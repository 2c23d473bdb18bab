import Pfsim.Machine.Run

/-!
# Loops

The execution of a machine to its end, as a function (`Machine.loop`), which takes the number
of steps it may come to.

* `loop_cases`: it gives the state where the run returns, or the error it stops with, unless
  there are more steps;
* `Run.loop_eq`: it goes along with any run from there;
* `SameSteps.loop_eq`: machines with the same steps, from the states reached, execute alike.
-/

namespace Machine

variable {S L E : Type*}

/-- The execution of at most `n` steps, with the error `out` if there are more. -/
def loop (M : Machine S L E) (out : E) : ℕ → S → Except E S
  | 0, s => if M.running s then .error out else .ok s
  | n + 1, s =>
    if M.running s then
      match M.step s with
      | .ok (_, s') => M.loop out n s'
      | .error e => .error e
    else .ok s

variable {M M' : Machine S L E} {out : E} {n : ℕ} {s s₀ : S}

theorem loop_of_not_running (h : M.running s = false) : M.loop out n s = .ok s := by
  cases n <;> rw [loop, h] <;> rfl

theorem loop_of_step {l : L} {s' : S} (hr : M.running s = true) (hs : M.step s = .ok (l, s')) :
    M.loop out (n + 1) s = M.loop out n s' := by
  rw [loop, if_pos hr, hs]

theorem loop_of_error {e : E} (hr : M.running s = true) (hs : M.step s = .error e) :
    M.loop out (n + 1) s = .error e := by
  rw [loop, if_pos hr, hs]

/-- The execution follows the run, to its end or until there are no more steps to take. -/
theorem loop_cases (M : Machine S L E) (out : E) (n : ℕ) (s : S) :
    (∃ ts s', M.Returns s ts s' ∧ M.loop out n s = .ok s') ∨
    (∃ ts s' e, M.Stops s ts s' e ∧ M.loop out n s = .error e) ∨
    ∃ ts s', M.Run s ts s' ∧ ts.length = n ∧ M.loop out n s = .error out := by
  induction n generalizing s with
  | zero =>
    cases hr : M.running s with
    | false => exact .inl ⟨[], s, ⟨.start, hr⟩, loop_of_not_running hr⟩
    | true => exact .inr (.inr ⟨[], s, .start, rfl, if_pos hr⟩)
  | succ n ih =>
    cases hr : M.running s with
    | false => exact .inl ⟨[], s, ⟨.start, hr⟩, loop_of_not_running hr⟩
    | true =>
      cases hs : M.step s with
      | error e => exact .inr (.inl ⟨[], s, e, ⟨.start, hr, hs⟩, loop_of_error hr hs⟩)
      | ok p =>
        obtain ⟨l, s₁⟩ := p
        have hstep : M.loop out (n + 1) s = M.loop out n s₁ := loop_of_step hr hs
        have hone := Run.single hr hs
        rcases ih s₁ with ⟨ts, s', h, he⟩ | ⟨ts, s', e, h, he⟩ | ⟨ts, s', h, hn, he⟩
        · exact .inl ⟨_, s', ⟨hone.trans h.1, h.2⟩, hstep.trans he⟩
        · exact .inr (.inl ⟨_, s', e, ⟨hone.trans h.1, h.2⟩, hstep.trans he⟩)
        · exact .inr (.inr ⟨_, s', hone.trans h, by simp [hn], hstep.trans he⟩)

variable {s' : S} {e : E} {ts : List (Transition S L)}

/-- Once the steps of a run are taken, the execution goes on from its end. -/
theorem Run.loop_eq (h : M.Run s ts s') (n : ℕ) :
    M.loop out (n + ts.length) s = M.loop out n s' := by
  induction ts generalizing s with
  | nil =>
    obtain rfl := Run.nil_iff.1 h
    rfl
  | cons t ts ih =>
    obtain ⟨-, hr, hs, hrest⟩ := h.cons
    rw [List.length_cons, ← Nat.add_assoc, loop_of_step hr hs, ih hrest]

theorem Returns.loop_eq (h : M.Returns s ts s') (hn : ts.length ≤ n) :
    M.loop out n s = .ok s' := by
  rw [← Nat.sub_add_cancel hn, h.1.loop_eq, loop_of_not_running h.2]

theorem Stops.loop_eq (h : M.Stops s ts s' e) (hn : ts.length < n) :
    M.loop out n s = .error e := by
  obtain ⟨hrun, hr, hs⟩ := h
  obtain ⟨k, rfl⟩ := Nat.exists_eq_add_of_lt hn
  rw [show ts.length + k + 1 = k + 1 + ts.length by omega, hrun.loop_eq, loop_of_error hr hs]

/-! ## The same steps -/

/-- Two machines take the same steps from the states in `I`, which they keep. -/
structure SameSteps (M M' : Machine S L E) (I : S → Prop) : Prop where
  running : ∀ s, M'.running s = M.running s
  step : ∀ s, I s → M.running s = true → M'.step s = M.step s
  keeps : ∀ {s l s'}, I s → M.running s = true → M.step s = .ok (l, s') → I s'

namespace SameSteps

variable {I : S → Prop}

/-- They execute alike. -/
theorem loop_eq (h : SameSteps M M' I) (h₀ : I s₀) : M'.loop out n s₀ = M.loop out n s₀ := by
  induction n generalizing s₀ with
  | zero => rw [loop, loop, h.running]
  | succ n ih =>
    rw [loop, loop, h.running]
    cases hr : M.running s₀ with
    | false => rfl
    | true =>
      rw [h.step s₀ h₀ hr]
      cases hs : M.step s₀ with
      | error e => rfl
      | ok p => exact ih (h.keeps h₀ hr hs)

end SameSteps

end Machine
