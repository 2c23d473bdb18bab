import Mathlib.Data.List.Induction
import Mathlib.Order.WellFounded
import Mathlib.Tactic.Common

/-!
# Machines

A *machine* is a deterministic system: while it is running, it either takes a
step, with a label telling what happened, or stops with an error. A `Run` is
the record of the steps taken from a state, in order, each with the states
before and after it.

* `Run.trans`, `Run.split`: runs compose, and split anywhere;
* `Run.compare`: of two runs from a state, one extends the other;
* `Stops.unique`: a machine stops with a single error, and does not return then;
* `Run.invariant`: what holds at the start and is preserved by the steps holds
  throughout;
* `Run.amortized`: a potential pays for the steps which cost more than what they bring;
* `lastTime`: when something last happened in a run;
* `halts_of_wellFounded`: a machine whose steps decrease a well-founded measure
  halts.
-/

/-- A deterministic machine: at a running state, `step` gives the label of the
    step and the next state, or the error the machine stops with. -/
structure Machine (S L E : Type*) where
  /-- The states at which the machine takes a step. -/
  running : S → Bool
  /-- The step at a running state. -/
  step : S → Except E (L × S)

namespace Machine

/-- A step taken: the state before it, its label and the state after it. -/
structure Transition (S L : Type*) where
  src : S
  lbl : L
  dst : S

variable {S L E : Type*} (M : Machine S L E)

/-- The runs from `s₀`: the steps taken so far, and the state reached. -/
inductive Run (s₀ : S) : List (Transition S L) → S → Prop
  | start : Run s₀ [] s₀
  | step {ts : List (Transition S L)} {s s' : S} {l : L} : Run s₀ ts s →
      M.running s = true → M.step s = .ok (l, s') → Run s₀ (ts ++ [⟨s, l, s'⟩]) s'

/-- The states reached by the runs from `s₀`. -/
def Reachable (s₀ s : S) : Prop := ∃ ts, M.Run s₀ ts s

/-- The run `ts` is over at `s`: the machine is not running any more. -/
def Returns (s₀ : S) (ts : List (Transition S L)) (s : S) : Prop :=
  M.Run s₀ ts s ∧ M.running s = false

/-- The run `ts` ends at `s` with the error `e`. -/
def Stops (s₀ : S) (ts : List (Transition S L)) (s : S) (e : E) : Prop :=
  M.Run s₀ ts s ∧ M.running s = true ∧ M.step s = .error e

/-- The run from `s₀` ends after finitely many steps. -/
def Halts (s₀ : S) : Prop :=
  ∃ ts s, M.Returns s₀ ts s ∨ ∃ e, M.Stops s₀ ts s e

variable {M} {s₀ s s' : S} {ts us : List (Transition S L)}

/-! ## Composition -/

theorem Run.trans (h : M.Run s₀ ts s) (h' : M.Run s us s') : M.Run s₀ (ts ++ us) s' := by
  induction h' with
  | start => rwa [List.append_nil]
  | step _ hr hs ih =>
    rw [← List.append_assoc]
    exact ih.step hr hs

theorem Run.single {l : L} (hr : M.running s = true) (hs : M.step s = .ok (l, s')) :
    M.Run s [⟨s, l, s'⟩] s' :=
  Run.start.step hr hs

/-- A run of no steps goes nowhere. -/
theorem Run.nil_iff : M.Run s₀ [] s ↔ s = s₀ := by
  refine ⟨fun h => ?_, fun h => h ▸ .start⟩
  generalize hw : ([] : List (Transition S L)) = ws at h
  cases h with
  | start => rfl
  | step => simp at hw

/-- A run splits anywhere. -/
theorem Run.split (h : M.Run s₀ (ts ++ us) s) : ∃ r, M.Run s₀ ts r ∧ M.Run r us s := by
  induction us using List.reverseRecOn generalizing s with
  | nil => exact ⟨s, by rwa [List.append_nil] at h, .start⟩
  | append_singleton us t ih =>
    rw [← List.append_assoc] at h
    generalize hw : ts ++ us ++ [t] = ws at h
    cases h with
    | start => simp at hw
    | step h hr hs =>
      obtain ⟨rfl, rfl⟩ := List.append_singleton_inj.1 hw
      obtain ⟨r, h₁, h₂⟩ := ih h
      exact ⟨r, h₁, h₂.step hr hs⟩

/-- The first step of a nonempty run. -/
theorem Run.cons {t : Transition S L} (h : M.Run s₀ (t :: ts) s) :
    t.src = s₀ ∧ M.running s₀ = true ∧ M.step s₀ = .ok (t.lbl, t.dst) ∧ M.Run t.dst ts s := by
  obtain ⟨r, h₁, h₂⟩ := (show M.Run s₀ ([t] ++ ts) s from h).split
  generalize hw : [t] = ws at h₁
  cases h₁ with
  | start => simp at hw
  | @step vs _ _ l h hr hs =>
    cases vs with
    | nil =>
      obtain rfl := Run.nil_iff.1 h
      simp only [List.nil_append, List.cons.injEq, and_true] at hw
      subst hw
      exact ⟨rfl, hr, hs, h₂⟩
    | cons v vs => simp at hw

/-- Of two runs from a state, one extends the other. -/
theorem Run.compare (h : M.Run s₀ ts s) (h' : M.Run s₀ us s') :
    (∃ vs, us = ts ++ vs ∧ M.Run s vs s') ∨ ∃ vs, ts = us ++ vs ∧ M.Run s' vs s := by
  induction ts generalizing s₀ us with
  | nil =>
    obtain rfl := Run.nil_iff.1 h
    exact .inl ⟨us, rfl, h'⟩
  | cons t ts ih =>
    cases us with
    | nil =>
      obtain rfl := Run.nil_iff.1 h'
      exact .inr ⟨t :: ts, rfl, h⟩
    | cons u us =>
      obtain ⟨ht, _, hs, h⟩ := h.cons
      obtain ⟨hu, _, hs', h'⟩ := h'.cons
      -- The machine is deterministic, so both runs start with the same step.
      have e : t = u := by
        rw [hs] at hs'
        obtain ⟨t₁, t₂, t₃⟩ := t
        obtain ⟨u₁, u₂, u₃⟩ := u
        simp_all
      subst e
      exact (ih h h').imp (fun ⟨vs, e, hv⟩ => ⟨vs, by rw [e, List.cons_append], hv⟩)
        (fun ⟨vs, e, hv⟩ => ⟨vs, by rw [e, List.cons_append], hv⟩)

/-- A run which stops extends all others. -/
theorem Stops.extends {e : E} (h : M.Stops s₀ us s' e) (h' : M.Run s₀ ts s) :
    ∃ vs, us = ts ++ vs ∧ M.Run s vs s' := by
  obtain ⟨hrun, -, hs⟩ := h
  rcases h'.compare hrun with hext | ⟨vs, rfl, hv⟩
  · exact hext
  · cases vs with
    | nil =>
      obtain rfl := Run.nil_iff.1 hv
      exact ⟨[], by rw [List.append_nil, List.append_nil], .start⟩
    | cons v vs =>
      obtain ⟨-, -, hstep, -⟩ := hv.cons
      cases hs.symm.trans hstep

/-- It does not return. -/
theorem Stops.not_returns {e : E} (h : M.Stops s₀ us s' e) : ¬M.Returns s₀ ts s := by
  rintro ⟨hrun, hr⟩
  obtain ⟨vs, -, hv⟩ := h.extends hrun
  cases vs with
  | nil =>
    obtain rfl := Run.nil_iff.1 hv
    cases hr.symm.trans h.2.1
  | cons v vs =>
    obtain ⟨-, hr', -⟩ := hv.cons
    cases hr.symm.trans hr'

/-- It stops with a single error. -/
theorem Stops.unique {e e' : E} (h : M.Stops s₀ us s' e) (h' : M.Stops s₀ ts s e') : e' = e := by
  obtain ⟨vs, -, hv⟩ := h.extends h'.1
  cases vs with
  | nil =>
    obtain rfl := Run.nil_iff.1 hv
    exact Except.error.inj (h'.2.2.symm.trans h.2.2)
  | cons v vs =>
    obtain ⟨-, -, hstep, -⟩ := hv.cons
    cases h'.2.2.symm.trans hstep

/-- The transitions of a run are steps of the machine, from reachable states. -/
theorem Run.of_mem {t : Transition S L} (h : M.Run s₀ ts s) (ht : t ∈ ts) :
    M.Reachable s₀ t.src ∧ M.running t.src = true ∧ M.step t.src = .ok (t.lbl, t.dst) := by
  induction h with
  | start => simp at ht
  | @step ts s s' l h hr hs ih =>
    rcases List.mem_append.1 ht with ht | ht
    · exact ih ht
    · obtain rfl := List.mem_singleton.1 ht
      exact ⟨⟨ts, h⟩, hr, hs⟩

/-! ## Invariants -/

theorem Reachable.refl : M.Reachable s₀ s₀ := ⟨[], .start⟩

theorem Run.reachable (h : M.Run s₀ ts s) : M.Reachable s₀ s := ⟨ts, h⟩

theorem Reachable.trans (h : M.Reachable s₀ s) (h' : M.Reachable s s') : M.Reachable s₀ s' := by
  obtain ⟨ts, ht⟩ := h
  obtain ⟨us, hu⟩ := h'
  exact ⟨ts ++ us, ht.trans hu⟩

theorem Reachable.step {l : L} (h : M.Reachable s₀ s) (hr : M.running s = true)
    (hs : M.step s = .ok (l, s')) : M.Reachable s₀ s' :=
  h.elim fun _ h => ⟨_, h.step hr hs⟩

/-- What holds at the start and is preserved by the steps holds throughout. -/
theorem Reachable.invariant {I : S → Prop} (h : M.Reachable s₀ s) (h₀ : I s₀)
    (hI : ∀ s l s', I s → M.running s = true → M.step s = .ok (l, s') → I s') : I s := by
  obtain ⟨ts, h⟩ := h
  induction h with
  | start => exact h₀
  | step _ hr hs ih => exact hI _ _ _ ih hr hs

/-- What relates the steps taken to the state reached, given an invariant of
    the states. -/
theorem Run.invariant {I : S → Prop} {J : List (Transition S L) → S → Prop}
    (h : M.Run s₀ ts s) (hI : ∀ s, M.Reachable s₀ s → I s) (h₀ : J [] s₀)
    (hJ : ∀ ts s l s', I s → J ts s → M.running s = true → M.step s = .ok (l, s') →
      J (ts ++ [⟨s, l, s'⟩]) s') : J ts s := by
  induction h with
  | start => exact h₀
  | step h hr hs ih => exact hJ _ _ _ _ (hI _ h.reachable) ih hr hs

/-! ## Costs -/

/-- What the steps cost together. -/
def total (cost : Transition S L → ℕ) : List (Transition S L) → ℕ
  | [] => 0
  | t :: ts => cost t + total cost ts

theorem total_append (cost : Transition S L → ℕ) (ts us : List (Transition S L)) :
    total cost (ts ++ us) = total cost ts + total cost us := by
  induction ts with
  | nil => exact (Nat.zero_add _).symm
  | cons t ts ih => rw [List.cons_append, total, ih, total, Nat.add_assoc]

theorem total_singleton (cost : Transition S L → ℕ) (t : Transition S L) :
    total cost [t] = cost t := rfl

/-- If every step costs no more than its credit and what it takes from a potential, so does
    a run. -/
theorem Run.amortized {I : S → Prop} {cost credit : Transition S L → ℕ} {Φ : S → ℕ}
    (h : M.Run s₀ ts s) (hI : ∀ s, M.Reachable s₀ s → I s)
    (hcost : ∀ s l s', I s → M.running s = true → M.step s = .ok (l, s') →
      cost ⟨s, l, s'⟩ + Φ s' ≤ Φ s + credit ⟨s, l, s'⟩) :
    total cost ts + Φ s ≤ Φ s₀ + total credit ts := by
  induction h with
  | start => exact Nat.le_of_eq (Nat.add_comm 0 (Φ s₀))
  | @step ts s s' l h hr hs ih =>
    have hstep := hcost s l s' (hI s h.reachable) hr hs
    rw [total_append, total_append, total_singleton, total_singleton]
    omega

/-! ## Histories -/

/-- The time of the last step of `ts` whose label satisfies `P`, by the clock after
    it; `0` if there is none. -/
def lastTime (clock : S → ℕ) (P : L → Bool) (ts : List (Transition S L)) : ℕ :=
  ((ts.filter fun t => P t.lbl).getLast?.map fun t => clock t.dst).getD 0

section LastTime

variable {clock : S → ℕ} {P : L → Bool} {t : Transition S L}

@[simp] theorem lastTime_nil : lastTime clock P ([] : List (Transition S L)) = 0 := rfl

theorem lastTime_append : lastTime clock P (ts ++ [t]) =
    if P t.lbl then clock t.dst else lastTime clock P ts := by
  rw [lastTime, lastTime, List.filter_append]
  cases hP : P t.lbl with
  | true => simp [hP]
  | false => simp [hP]

end LastTime

/-! ## Execution -/

/-- The state after `n` steps, if the machine takes that many. -/
def after (M : Machine S L E) : ℕ → S → Option S
  | 0, s => some s
  | n + 1, s =>
    if M.running s then
      match M.step s with
      | .ok (_, s') => M.after n s'
      | .error _ => none
    else none

/-- The run of so many steps, whose states before the last one satisfy `P`. -/
theorem exists_run_all_of_after {P : S → Prop} {n : ℕ} (h : M.after n s = some s')
    (hP : ∀ i < n, ∀ r, M.after i s = some r → P r) :
    ∃ ts, M.Run s ts s' ∧ ts.length = n ∧ ∀ t ∈ ts, P t.src := by
  induction n generalizing s with
  | zero =>
    obtain rfl := Option.some.inj h
    exact ⟨[], .start, rfl, fun t ht => nomatch ht⟩
  | succ n ih =>
    rw [after] at h
    split at h
    · next hr =>
      split at h
      · next l s₁ hs =>
        have hafter (i : ℕ) : M.after (i + 1) s = M.after i s₁ := by rw [after, if_pos hr, hs]
        obtain ⟨ts, ht, hn, hall⟩ := ih h fun i hi r hir =>
          hP (i + 1) (Nat.succ_lt_succ hi) r ((hafter i).trans hir)
        refine ⟨_, (Run.single hr hs).trans ht, by simp [hn], fun t htm => ?_⟩
        rcases List.mem_append.1 htm with htm | htm
        · rw [List.mem_singleton.1 htm]
          exact hP 0 (Nat.succ_pos n) s rfl
        · exact hall t htm
      · simp at h
    · simp at h

theorem exists_run_of_after {n : ℕ} (h : M.after n s = some s') :
    ∃ ts, M.Run s ts s' ∧ ts.length = n :=
  (exists_run_all_of_after (P := fun _ => True) h fun _ _ _ _ => trivial).imp
    fun _ h => ⟨h.1, h.2.1⟩

/-! ## Halting -/

/-- A machine whose steps decrease a well-founded measure halts. -/
theorem halts_of_wellFounded {α : Type*} {r : α → α → Prop} (wf : WellFounded r) (μ : S → α)
    {I : S → Prop} (h₀ : I s₀)
    (hI : ∀ s l s', I s → M.running s = true → M.step s = .ok (l, s') → I s' ∧ r (μ s') (μ s)) :
    M.Halts s₀ := by
  induction h : μ s₀ using wf.induction generalizing s₀ with
  | _ a ih =>
    cases hr : M.running s₀ with
    | false => exact ⟨[], s₀, .inl ⟨.start, hr⟩⟩
    | true =>
      cases hs : M.step s₀ with
      | error e => exact ⟨[], s₀, .inr ⟨e, .start, hr, hs⟩⟩
      | ok p =>
        obtain ⟨l, s'⟩ := p
        obtain ⟨hI', hlt⟩ := hI s₀ l s' h₀ hr hs
        obtain ⟨ts, s, ht⟩ := ih _ (h ▸ hlt) hI' rfl
        have h₁ := Run.single hr hs
        exact ⟨_, s, ht.imp (fun h => ⟨h₁.trans h.1, h.2⟩)
          fun ⟨e, h⟩ => ⟨e, h₁.trans h.1, h.2⟩⟩

end Machine
