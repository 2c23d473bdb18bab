import Pfsim.Machine.Run

/-!
# Stuttering

Two machines on the same states: a *coalescing* one, which may take several
silent steps of the other at once, and otherwise takes the same steps. They
then have the same visible steps, in the same order and between the same
states, whatever their runs:

* `Coalesces.run`: what the coalescing machine does, the other does;
* `Coalesces.run_back`: what the other does, the coalescing one does, up to
  the silent steps it has not coalesced yet;
* `Coalesces.returns_iff`, `Coalesces.stops_iff`: they end in the same way.
-/

namespace Machine

variable {S L E : Type*}

/-- The steps of a run that are not silent. -/
def visible (silent : L → Bool) (ts : List (Transition S L)) : List (Transition S L) :=
  ts.filter fun t => !silent t.lbl

@[simp] theorem visible_append (silent : L → Bool) (ts us : List (Transition S L)) :
    visible silent (ts ++ us) = visible silent ts ++ visible silent us :=
  List.filter_append ..

theorem visible_eq_nil {silent : L → Bool} {ts : List (Transition S L)}
    (h : ∀ t ∈ ts, silent t.lbl = true) : visible silent ts = [] :=
  List.filter_eq_nil_iff.2 fun t ht => by simp [h t ht]

/-- At the states where `I` holds, `M` takes the steps of `N`, except for
    nonempty runs of silent steps, which it may take at once. -/
structure Coalesces (M N : Machine S L E) (silent : L → Bool) (I : S → Prop) : Prop where
  running : ∀ s, M.running s = N.running s
  error : ∀ s e, I s → M.running s = true → (M.step s = .error e ↔ N.step s = .error e)
  step : ∀ s l s', I s → M.running s = true → M.step s = .ok (l, s') →
    (silent l = false ∧ N.step s = .ok (l, s')) ∨
      (silent l = true ∧ ∃ us, us ≠ [] ∧ N.Run s us s' ∧ ∀ u ∈ us, silent u.lbl = true)

variable {M N : Machine S L E} {silent : L → Bool} {I : S → Prop} {s₀ s : S}

/-- A step of the coalescing machine is a nonempty run of the other, with the
    same visible steps. -/
theorem Coalesces.macro (h : Coalesces M N silent I) {l : L} {s' : S} (hI : I s)
    (hr : M.running s = true) (hs : M.step s = .ok (l, s')) :
    ∃ us, us ≠ [] ∧ N.Run s us s' ∧ visible silent us = visible silent [⟨s, l, s'⟩] ∧
      ∀ us₁ us₂, us = us₁ ++ us₂ → us₂ ≠ [] → ∀ u ∈ us₁, silent u.lbl = true := by
  rcases h.step s l s' hI hr hs with ⟨_, hs'⟩ | ⟨hl, us, hne, hu, hsil⟩
  · refine ⟨_, by simp, .single (h.running s ▸ hr) hs', rfl, fun us₁ us₂ e hne u hu => ?_⟩
    have hlen : 1 = us₁.length + us₂.length := by simpa using congrArg List.length e
    have hpos := List.length_pos_iff.2 hne
    rw [List.eq_nil_of_length_eq_zero (show us₁.length = 0 by omega)] at hu
    simp at hu
  · refine ⟨us, hne, hu, ?_, fun us₁ us₂ e _ u hu => hsil u (e ▸ List.mem_append_left _ hu)⟩
    rw [visible_eq_nil hsil, visible_eq_nil (by simpa using hl)]

/-- What the coalescing machine does, the other does. -/
theorem Coalesces.run (h : Coalesces M N silent I) (hI : ∀ s, M.Reachable s₀ s → I s)
    {ts : List (Transition S L)} (ht : M.Run s₀ ts s) :
    ∃ us, N.Run s₀ us s ∧ visible silent us = visible silent ts := by
  induction ht with
  | start => exact ⟨[], .start, rfl⟩
  | step ht hr hs ih =>
    obtain ⟨us, hu, hv⟩ := ih
    obtain ⟨vs, _, hv', e, _⟩ := h.macro (hI _ ht.reachable) hr hs
    exact ⟨us ++ vs, hu.trans hv', by rw [visible_append, visible_append, hv, e]⟩

/-- What the other machine does, the coalescing one does, up to some silent
    steps in the middle of those it takes at once: it may lag behind, but then
    the other is going to take another step. -/
theorem Coalesces.run_back (h : Coalesces M N silent I) (hI : ∀ s, M.Reachable s₀ s → I s)
    {us : List (Transition S L)} {r : S} (hu : N.Run s₀ us r) :
    ∃ ts s vs, M.Run s₀ ts s ∧ N.Run s vs r ∧ (∀ v ∈ vs, silent v.lbl = true) ∧
      visible silent ts = visible silent us ∧
      (vs = [] ∨ N.running r = true ∧ ∃ p, N.step r = .ok p) := by
  induction hn : us.length using Nat.strong_induction_on generalizing s₀ us with
  | _ n ih =>
    cases us with
    | nil => exact ⟨[], s₀, [], .start, Run.nil_iff.1 hu ▸ .start, by simp, rfl, .inl rfl⟩
    | cons u us =>
      obtain ⟨-, hr, hs, -⟩ := hu.cons
      have hr' : M.running s₀ = true := h.running s₀ ▸ hr
      -- `N` takes a step, so `M` does not stop: it takes a macro step, which
      -- the run of `N` is either in the middle of, or past.
      cases hs' : M.step s₀ with
      | error e =>
        rw [(h.error s₀ e (hI _ .refl) hr').1 hs'] at hs
        cases hs
      | ok p =>
        obtain ⟨l, s'⟩ := p
        obtain ⟨ws, hne, hw, hvis, hsil⟩ := h.macro (hI _ .refl) hr' hs'
        rcases hw.compare hu with ⟨vs, e, hv⟩ | ⟨vs, e, hv⟩
        · have hlt : vs.length < n := by
            rw [← hn, e, List.length_append]
            have := List.length_pos_iff.2 hne
            omega
          obtain ⟨ts, s, xs, ht, hx, hxs, hv', hend⟩ :=
            ih _ hlt (fun r hr₁ => hI r (hr₁.elim fun ts ht =>
              ⟨_, (Run.single hr' hs').trans ht⟩)) hv rfl
          refine ⟨_, s, xs, (Run.single hr' hs').trans ht, hx, hxs, ?_, hend⟩
          rw [visible_append, ← hvis, hv', e, visible_append]
        · cases vs with
          | nil =>
            obtain rfl := Run.nil_iff.1 hv
            rw [List.append_nil] at e
            exact ⟨_, s', [], .single hr' hs', .start, by simp, by rw [← hvis, e], .inl rfl⟩
          | cons v vs =>
            obtain ⟨-, hr₁, hs₁, -⟩ := hv.cons
            refine ⟨[], s₀, u :: us, .start, hu, hsil _ _ e (by simp), ?_, .inr ⟨hr₁, _, hs₁⟩⟩
            rw [visible_eq_nil (hsil _ _ e (by simp)), visible, List.filter_nil]

/-- Both machines return at the same states, after the same visible steps. -/
theorem Coalesces.returns_iff (h : Coalesces M N silent I) (hI : ∀ s, M.Reachable s₀ s → I s)
    {vis : List (Transition S L)} :
    (∃ ts, M.Returns s₀ ts s ∧ visible silent ts = vis) ↔
      ∃ us, N.Returns s₀ us s ∧ visible silent us = vis := by
  constructor
  · rintro ⟨ts, ⟨ht, hr⟩, rfl⟩
    obtain ⟨us, hu, hv⟩ := h.run hI ht
    exact ⟨us, ⟨hu, h.running s ▸ hr⟩, hv⟩
  · rintro ⟨us, ⟨hu, hr⟩, rfl⟩
    obtain ⟨ts, s', vs, ht, hv, _, e, rfl | ⟨hr', _⟩⟩ := h.run_back hI hu
    · exact ⟨ts, ⟨Run.nil_iff.1 hv ▸ ht, h.running s ▸ hr⟩, e⟩
    · rw [hr] at hr'
      cases hr'

/-- Both machines stop at the same states with the same errors, after the same
    visible steps. -/
theorem Coalesces.stops_iff (h : Coalesces M N silent I) (hI : ∀ s, M.Reachable s₀ s → I s)
    {vis : List (Transition S L)} {e : E} :
    (∃ ts, M.Stops s₀ ts s e ∧ visible silent ts = vis) ↔
      ∃ us, N.Stops s₀ us s e ∧ visible silent us = vis := by
  constructor
  · rintro ⟨ts, ⟨ht, hr, he⟩, rfl⟩
    obtain ⟨us, hu, hv⟩ := h.run hI ht
    exact ⟨us, ⟨hu, h.running s ▸ hr, (h.error s e (hI s ht.reachable) hr).1 he⟩, hv⟩
  · rintro ⟨us, ⟨hu, hr, he⟩, rfl⟩
    obtain ⟨ts, s', vs, ht, hv, _, e', rfl | ⟨_, p, hp⟩⟩ := h.run_back hI hu
    · obtain rfl := Run.nil_iff.1 hv
      have hr' : M.running s = true := h.running s ▸ hr
      exact ⟨ts, ⟨ht, hr', (h.error s e (hI s ht.reachable) hr').2 he⟩, e'⟩
    · rw [he] at hp
      cases hp

end Machine
