import Mathlib.Data.List.Forall2
import Pfsim.Machine.Run

/-!
# Lockstep

Two machines are in *lockstep* along a relation of their states if related states take
steps to related states, with related labels, or stop with the same error. The first
machine may be asked for more: the states it takes its steps from are those which
satisfy a guard.

* `Lockstep.run`: a run of the first machine, within the guard, has a run of the second
  one along with it, step by step;
* `Lockstep.returns_iff`, `Lockstep.stops_iff`: both end in the same way.
-/

namespace Machine

variable {S L S' L' E : Type*}

/-- The steps of `M` within `G` are those of `M'`, along `T`. -/
structure Lockstep (M : Machine S L E) (M' : Machine S' L' E) (G : S → Prop) (T : S → S' → Prop)
    (A : L → L' → Prop) : Prop where
  running {s : S} {s' : S'} : T s s' → M'.running s' = M.running s
  step {s r : S} {s' : S'} {l : L} : G s → T s s' → M.running s = true → M.step s = .ok (l, r) →
    ∃ l' r', M'.step s' = .ok (l', r') ∧ A l l' ∧ T r r'
  error {s : S} {s' : S'} {e : E} : G s → T s s' → M.running s = true → M.step s = .error e →
    M'.step s' = .error e

/-- Two steps with related labels, from related states to related states. -/
structure Transition.Along (T : S → S' → Prop) (A : L → L' → Prop) (t : Transition S L)
    (t' : Transition S' L') : Prop where
  src : T t.src t'.src
  lbl : A t.lbl t'.lbl
  dst : T t.dst t'.dst

/-- Every step of one run goes along with a step of the other. -/
theorem Transition.exists_along {T : S → S' → Prop} {A : L → L' → Prop} {t' : Transition S' L'}
    {ts : List (Transition S L)} {ts' : List (Transition S' L')}
    (h : List.Forall₂ (Transition.Along T A) ts ts') (ht : t' ∈ ts') :
    ∃ t ∈ ts, t.Along T A t' := by
  induction h with
  | nil => cases ht
  | @cons t u ts ts' htu _ ih =>
    rcases List.mem_cons.1 ht with rfl | ht
    · exact ⟨t, List.mem_cons_self, htu⟩
    · obtain ⟨v, hv, hvt⟩ := ih ht
      exact ⟨v, List.mem_cons_of_mem _ hv, hvt⟩

namespace Lockstep

variable {M : Machine S L E} {M' : Machine S' L' E} {G : S → Prop} {T : S → S' → Prop}
  {A : L → L' → Prop} {s₀ s : S} {s₀' s' : S'} {ts : List (Transition S L)}
  {ts' : List (Transition S' L')} {e : E}

/-- A run of one machine has a run of the other along with it. -/
theorem run (h : Lockstep M M' G T A) (h₀ : T s₀ s₀') (hr : M.Run s₀ ts s)
    (hG : ∀ t ∈ ts, G t.src) : ∃ ts' s', M'.Run s₀' ts' s' ∧ T s s' ∧
      List.Forall₂ (Transition.Along T A) ts ts' := by
  induction hr with
  | start => exact ⟨[], s₀', .start, h₀, .nil⟩
  | @step ts s r l _ hrunning hstep ih =>
    obtain ⟨ts', s', hr', ht, hts⟩ := ih fun t ht => hG t (List.mem_append_left _ ht)
    have hs : G s := hG ⟨s, l, r⟩ (List.mem_append_right _ List.mem_cons_self)
    obtain ⟨l', r', hstep', hl, hdst⟩ := h.step hs ht hrunning hstep
    exact ⟨_, r', hr'.step ((h.running ht).trans hrunning) hstep', hdst,
      List.rel_append hts (.cons ⟨ht, hl, hdst⟩ .nil)⟩

/-- If one run is over, so is the other. -/
theorem returns_iff (h : Lockstep M M' G T A) (ht : T s s') (hr : M.Run s₀ ts s)
    (hr' : M'.Run s₀' ts' s') : M'.Returns s₀' ts' s' ↔ M.Returns s₀ ts s := by
  rw [Returns, Returns, h.running ht]
  exact ⟨fun hd => ⟨hr, hd.2⟩, fun hd => ⟨hr', hd.2⟩⟩

/-- If one ends with an error, so does the other. -/
theorem stops_iff (h : Lockstep M M' G T A) (hs : G s) (ht : T s s') (hr : M.Run s₀ ts s)
    (hr' : M'.Run s₀' ts' s') : M'.Stops s₀' ts' s' e ↔ M.Stops s₀ ts s e := by
  rw [Stops, Stops, h.running ht]
  refine ⟨fun ⟨_, hd, he⟩ => ⟨hr, hd, ?_⟩, fun ⟨_, hd, he⟩ => ⟨hr', hd, h.error hs ht hd he⟩⟩
  cases hstep : M.step s with
  | error e' => exact congrArg _ (Except.error.inj ((h.error hs ht hd hstep).symm.trans he))
  | ok r =>
    obtain ⟨l, r⟩ := r
    obtain ⟨l', r', hstep', -⟩ := h.step hs ht hd hstep
    cases he.symm.trans hstep'

end Lockstep

end Machine
