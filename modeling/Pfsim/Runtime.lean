import Mathlib.Tactic.Common

/-!
# Stopping

How a piece of the program may fail to reach its end, and the `assert`s, which
the default build compiles out (`-DNDEBUG`) and the debug build keeps.
-/

namespace Pfsim

/-- The ways the program stops before its end. -/
inductive Stop
  /-- A message, and `exit(EXIT_FAILURE)`. -/
  | exitFailure (msg : String)
  /-- An `assert` that does not hold. -/
  | assertFailed (cond : String)
  /-- Undefined behaviour: a null or freed pointer, an index out of bounds, a
      value never written. -/
  | undefined (what : String)
  /-- A loop that did not end within the iterations given to it. -/
  | outOfFuel
  deriving DecidableEq, Repr

/-- `assert(cond)`, unless `NDEBUG` is defined. -/
def assert (ndebug : Bool) (cond : Prop) [Decidable cond] (text : String) : Except Stop Unit :=
  if ndebug = true ∨ cond then .ok () else .error (.assertFailed text)

variable {ndebug : Bool} {cond : Prop} [Decidable cond] {text : String}

/-- What succeeds hands its value over. -/
@[simp] theorem ok_bind {α β : Type} (a : α) (f : α → Except Stop β) :
    (Except.ok a >>= f) = f a := rfl

/-- What fails ends there. -/
@[simp] theorem error_bind {α β : Type} (e : Stop) (f : α → Except Stop β) :
    (Except.error e >>= f) = .error e := rfl

/-- What succeeds has succeeded at each step. -/
theorem bind_eq_ok {α β : Type} {x : Except Stop α} {f : α → Except Stop β} {b : β} :
    x >>= f = .ok b ↔ ∃ a, x = .ok a ∧ f a = .ok b := by
  cases x with
  | error e => simp
  | ok a => simp

theorem toOption_eq_some {α : Type} {x : Except Stop α} {a : α} :
    x.toOption = some a ↔ x = .ok a := by
  cases x with
  | error e => simp [Except.toOption]
  | ok b => simp [Except.toOption]

/-- A sequence of steps succeeds if each of them does, and then makes its changes
    in turn. -/
theorem foldlM_eq_ok_iff {α β : Type} {f : β → α → Except Stop β} {P : α → Prop} {g : β → α → β}
    (hf : ∀ b a b', f b a = .ok b' ↔ P a ∧ b' = g b a) {l : List α} {b b' : β} :
    l.foldlM f b = .ok b' ↔ (∀ a ∈ l, P a) ∧ b' = l.foldl g b := by
  induction l generalizing b with
  | nil =>
    refine ⟨fun h => ⟨by simp, ?_⟩, fun h => by rw [h.2]; rfl⟩
    injection h with h
    exact h.symm
  | cons a l ih =>
    rw [List.foldlM_cons, bind_eq_ok, List.foldl_cons, List.forall_mem_cons]
    constructor
    · rintro ⟨b₁, h₁, h⟩
      obtain ⟨ha, rfl⟩ := (hf b a b₁).1 h₁
      exact ⟨⟨ha, (ih.1 h).1⟩, (ih.1 h).2⟩
    · rintro ⟨⟨ha, hl⟩, rfl⟩
      exact ⟨g b a, (hf b a _).2 ⟨ha, rfl⟩, ih.2 ⟨hl, rfl⟩⟩

/-- A failure is an exit with a message. -/
def Exits {α : Type} (x : Except Stop α) : Prop := ∀ e, x = .error e → ∃ msg, e = .exitFailure msg

theorem exits_ok {α : Type} (a : α) : Exits (.ok a) := fun _ h => by cases h

theorem exits_exitFailure {α : Type} (msg : String) :
    Exits (.error (.exitFailure msg) : Except Stop α) := fun _ h => ⟨msg, (Except.error.inj h).symm⟩

theorem Exits.bind {α β : Type} {x : Except Stop α} {f : α → Except Stop β} (hx : Exits x)
    (hf : ∀ a, Exits (f a)) : Exits (x >>= f) := by
  cases x with
  | error e' =>
    intro e h
    rw [error_bind] at h
    exact hx e (congrArg Except.error (Except.error.inj h))
  | ok a => exact hf a

theorem Exits.foldlM {α β : Type} {f : β → α → Except Stop β} (hf : ∀ b a, Exits (f b a))
    (l : List α) (b : β) : Exits (l.foldlM f b) := by
  induction l generalizing b with
  | nil => exact exits_ok b
  | cons a l ih =>
    rw [List.foldlM_cons]
    exact (hf b a).bind ih

theorem assert_ok (h : cond) : assert ndebug cond text = .ok () := if_pos (.inr h)

end Pfsim
