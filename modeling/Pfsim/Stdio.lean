import Mathlib.Data.List.DropRight
import Mathlib.Tactic

/-!
# Reading a trace file

A trace file is the list of its characters, and a position in it, as `ftell`
gives it, the number of characters before it. Both readers of the program use
`fscanf` with the directives `%lu` and white space (`Directive`):

* the first pass reads a record with `"%lu %lu"` (`firstPassFormat`), and stops
  right after it;
* the simulator reads it with `"%lu %lu\n"` (`simulatorFormat`), and stops at
  the next character that is not white space.

As the standard has it, `%lu` skips white space, then takes a sign and the
longest sequence of digits; at the end of the file it is an input failure,
without digits a matching failure. A number too large for an `unsigned long`
gives `ULONG_MAX`, as `strtoul` does.
-/

namespace Pfsim

/-- The largest `unsigned long`. -/
def ULONG_MAX : ℕ := 2 ^ 64 - 1

/-- `isspace` in the `"C"` locale: space, `\t`, `\n`, `\v`, `\f` and `\r`. -/
def isspace (c : Char) : Bool := c.toNat == 32 || (9 ≤ c.toNat && c.toNat ≤ 13)

/-- The number a sequence of decimal digits stands for. -/
def decimal (digits : List Char) : ℕ := digits.foldl (fun n c => 10 * n + (c.toNat - 48)) 0

/-- The value `strtoul` gives to the digits, after a minus sign or not. -/
def strtoul (neg : Bool) (digits : List Char) : ℕ :=
  if ULONG_MAX < decimal digits then ULONG_MAX
  else if neg then (2 ^ 64 - decimal digits) % 2 ^ 64 else decimal digits

/-- What the execution of `%lu` comes to, with the input left to read. -/
inductive Conversion
  | value (n : ℕ) (rest : List Char)
  | matchingFailure (rest : List Char)
  | inputFailure
  deriving DecidableEq

/-- The directive `%lu`. -/
def scanLu (cs : List Char) : Conversion :=
  match cs.dropWhile isspace with
  | [] => .inputFailure
  | c :: rest =>
    let cs := if c = '-' ∨ c = '+' then rest else c :: rest
    if cs.takeWhile Char.isDigit = [] then .matchingFailure cs
    else .value (strtoul (c = '-') (cs.takeWhile Char.isDigit)) (cs.dropWhile Char.isDigit)

/-- The directives of the formats of the program. -/
inductive Directive
  | lu
  | space
  deriving DecidableEq

/-- What a call of `fscanf` gives: its result, the values assigned, in order,
    and the input left to read. -/
structure Scanned where
  result : ℤ
  values : List ℕ
  rest : List Char
  deriving DecidableEq

/-- `EOF`. -/
def EOF : ℤ := -1

/-- `fscanf`, the values `vs` having been assigned. -/
def fscanfFrom : List Directive → List Char → List ℕ → Scanned
  | [], cs, vs => ⟨vs.length, vs, cs⟩
  | .space :: f, cs, vs => fscanfFrom f (cs.dropWhile isspace) vs
  | .lu :: f, cs, vs =>
    match scanLu cs with
    | .value n rest => fscanfFrom f rest (vs ++ [n])
    | .matchingFailure rest => ⟨vs.length, vs, rest⟩
    | .inputFailure => ⟨if vs = [] then EOF else vs.length, vs, []⟩

/-- `fscanf` with the format `f`, on the input `cs` left to read. -/
def fscanf (f : List Directive) (cs : List Char) : Scanned := fscanfFrom f cs []

/-- `"%lu %lu"`, which the first pass reads records with. -/
def firstPassFormat : List Directive := [.lu, .space, .lu]

/-- `"%lu %lu\n"`, which the simulator reads records with. -/
def simulatorFormat : List Directive := [.lu, .space, .lu, .space]

example : fscanf simulatorFormat ['3', ' ', '4', '2', '\n', '5'] = ⟨2, [3, 42], ['5']⟩ := by decide

/-! ## The input left to read -/

theorem scanLu_suffix {cs rest : List Char} {n : ℕ} (h : scanLu cs = .value n rest) :
    rest <:+ cs ∧ rest.length < cs.length := by
  have hs := List.dropWhile_suffix (l := cs) isspace
  rw [scanLu] at h
  split at h
  · cases h
  · next c cs' hc =>
    rw [hc] at hs
    dsimp only at h
    split_ifs at h with hsign hnil hnil
    · -- A sign, and at least one digit.
      obtain ⟨-, rfl⟩ := Conversion.value.inj h
      have hd := List.dropWhile_suffix (l := cs') Char.isDigit
      refine ⟨hd.trans ((List.suffix_cons c cs').trans hs), ?_⟩
      exact hd.length_le.trans_lt (by simpa using hs.length_le)
    · obtain ⟨-, rfl⟩ := Conversion.value.inj h
      have hd := List.dropWhile_suffix (l := c :: cs') Char.isDigit
      refine ⟨hd.trans hs, lt_of_lt_of_le ?_ hs.length_le⟩
      have e := congrArg List.length
        (List.takeWhile_append_dropWhile (p := Char.isDigit) (l := c :: cs'))
      have := List.length_pos_iff.2 hnil
      rw [List.length_append] at e
      omega

theorem scanLu_matchingFailure_suffix {cs rest : List Char}
    (h : scanLu cs = .matchingFailure rest) : rest <:+ cs := by
  have hs := List.dropWhile_suffix (l := cs) isspace
  rw [scanLu] at h
  split at h
  · cases h
  · next c cs' hc =>
    rw [hc] at hs
    dsimp only at h
    split_ifs at h
    · obtain rfl := Conversion.matchingFailure.inj h
      exact (List.suffix_cons c cs').trans hs
    · obtain rfl := Conversion.matchingFailure.inj h
      exact hs

/-- `fscanf` only moves forwards. -/
theorem fscanfFrom_suffix (f : List Directive) (cs : List Char) (vs : List ℕ) :
    (fscanfFrom f cs vs).rest <:+ cs := by
  induction f generalizing cs vs with
  | nil => exact List.suffix_rfl
  | cons d f ih =>
    cases d with
    | space => exact (ih _ vs).trans (List.dropWhile_suffix _)
    | lu =>
      rw [fscanfFrom]
      split
      · next n rest h => exact (ih _ _).trans (scanLu_suffix h).1
      · next rest h => exact scanLu_matchingFailure_suffix h
      · exact List.nil_suffix

theorem fscanf_suffix (f : List Directive) (cs : List Char) : (fscanf f cs).rest <:+ cs :=
  fscanfFrom_suffix f cs []

/-- `fscanf` moves past what it assigns. -/
theorem fscanf_length_lt {f : List Directive} {cs : List Char}
    (h : 0 < (fscanf (.lu :: f) cs).result) : (fscanf (.lu :: f) cs).rest.length < cs.length := by
  rw [fscanf, fscanfFrom] at h ⊢
  split at h
  · next n rest hn =>
    exact (fscanfFrom_suffix f rest _).length_le.trans_lt (scanLu_suffix hn).2
  · simp at h
  · simp [EOF] at h

/-- So does the simulator when it reads a record. -/
theorem simulatorFormat_length_lt {cs rest : List Char} {vs : List ℕ}
    (h : fscanf simulatorFormat cs = ⟨2, vs, rest⟩) : rest.length < cs.length := by
  have hlt : 0 < (fscanf simulatorFormat cs).result →
    (fscanf simulatorFormat cs).rest.length < cs.length := fscanf_length_lt
  rw [h] at hlt
  exact hlt (show (0 : ℤ) < 2 by decide)

/-! ## Reading a number -/

/-- Dropping stops where the condition fails. -/
theorem dropWhile_append {p : Char → Bool} {l rest : List Char} (hl : ∀ c ∈ l, p c = true)
    (hr : ∀ c ∈ rest.head?, p c = false) : (l ++ rest).dropWhile p = rest := by
  rw [List.dropWhile_append_of_pos hl]
  cases rest with
  | nil => rfl
  | cons c rest => rw [List.dropWhile_cons_of_neg (by simp [hr c rfl])]

/-- Taking stops where the condition fails. -/
theorem takeWhile_append {p : Char → Bool} {l rest : List Char} (hl : ∀ c ∈ l, p c = true)
    (hr : ∀ c ∈ rest.head?, p c = false) : (l ++ rest).takeWhile p = l := by
  rw [List.takeWhile_append_of_pos hl]
  cases rest with
  | nil => simp
  | cons c rest => rw [List.takeWhile_cons_of_neg (by simp [hr c rfl]), List.append_nil]

theorem not_isspace_of_isDigit {c : Char} (h : c.isDigit = true) : isspace c = false := by
  have h' : 48 ≤ c.toNat := by
    simp only [Char.isDigit, Bool.and_eq_true, decide_eq_true_eq] at h
    exact h.1
  simp [isspace]
  omega

theorem not_isDigit_of_isspace {c : Char} (h : isspace c = true) : c.isDigit = false := by
  by_contra hd
  rw [not_isspace_of_isDigit (by simpa using hd)] at h
  cases h

/-- Reading a number, after white space. -/
theorem scanLu_number {gap digits rest : List Char} (hg : ∀ c ∈ gap, isspace c = true)
    (hd : ∀ c ∈ digits, c.isDigit = true) (hne : digits ≠ [])
    (hr : ∀ c ∈ rest.head?, c.isDigit = false) :
    scanLu (gap ++ (digits ++ rest)) = .value (strtoul false digits) rest := by
  obtain ⟨c, ds, rfl⟩ := List.exists_cons_of_ne_nil hne
  have hc : c.isDigit = true := hd c (by simp)
  have hsign : ¬(c = '-' ∨ c = '+') := by
    rintro (rfl | rfl) <;> exact absurd hc (by decide)
  have hdrop : (gap ++ (c :: ds ++ rest)).dropWhile isspace = c :: (ds ++ rest) :=
    dropWhile_append hg (by simpa using not_isspace_of_isDigit hc)
  have htake : (c :: (ds ++ rest)).takeWhile Char.isDigit = c :: ds := takeWhile_append hd hr
  have hrest : (c :: (ds ++ rest)).dropWhile Char.isDigit = rest := dropWhile_append hd hr
  have hneg : decide (c = '-') = false := by simpa using fun h => hsign (.inl h)
  simp only [scanLu, hdrop, if_neg hsign, htake, hrest, hneg, reduceCtorEq, if_false]

theorem strtoul_of_le {digits : List Char} (hle : decimal digits ≤ ULONG_MAX) :
    strtoul false digits = decimal digits := by
  simp only [strtoul, not_lt.2 hle, Bool.false_eq_true, if_false]

/-- A number that fits is read as it is. -/
theorem scanLu_digits {gap digits rest : List Char} (hg : ∀ c ∈ gap, isspace c = true)
    (hd : ∀ c ∈ digits, c.isDigit = true) (hne : digits ≠ [])
    (hr : ∀ c ∈ rest.head?, c.isDigit = false) (hle : decimal digits ≤ ULONG_MAX) :
    scanLu (gap ++ (digits ++ rest)) = .value (decimal digits) rest := by
  rw [scanLu_number hg hd hne hr, strtoul_of_le hle]

/-- A number that is not zero is not taken for zero. -/
theorem strtoul_ne_zero {digits : List Char} (h : decimal digits ≠ 0) :
    strtoul false digits ≠ 0 := by
  by_cases hle : decimal digits ≤ ULONG_MAX
  · rwa [strtoul_of_le hle]
  · rw [strtoul, if_pos (not_le.1 hle)]
    decide

/-! ## Reading a record -/

/-- `%lu` skips white space. -/
theorem scanLu_dropWhile (cs : List Char) : scanLu (cs.dropWhile isspace) = scanLu cs := by
  rw [scanLu, scanLu, List.dropWhile_idempotent]

/-- So does the simulator, before a record. -/
theorem simulatorFormat_dropWhile (cs : List Char) :
    fscanf simulatorFormat (cs.dropWhile isspace) = fscanf simulatorFormat cs := by
  simp only [fscanf, simulatorFormat, fscanfFrom, scanLu_dropWhile]

/-- What the first pass reads as a record, the simulator reads too. -/
theorem simulatorFormat_of_firstPassFormat {cs rest : List Char} {pid vpn : ℕ}
    (h : fscanf firstPassFormat cs = ⟨2, [pid, vpn], rest⟩) :
    fscanf simulatorFormat cs = ⟨2, [pid, vpn], rest.dropWhile isspace⟩ := by
  rw [fscanf, firstPassFormat, fscanfFrom] at h
  rw [fscanf, simulatorFormat, fscanfFrom]
  cases hpid : scanLu cs with
  | value n cs' =>
    rw [hpid] at h
    simp only [fscanfFrom] at h ⊢
    cases hvpn : scanLu (cs'.dropWhile isspace) with
    | value m cs'' =>
      rw [hvpn] at h
      simp only at h ⊢
      obtain ⟨-, hvs, rfl⟩ := Scanned.mk.inj h
      rw [hvs]
      rfl
    | matchingFailure cs'' => simp [hvpn] at h
    | inputFailure => simp [hvpn] at h
  | matchingFailure cs' => simp [hpid] at h
  | inputFailure => simp [hpid] at h

end Pfsim
