import Pfsim.Main

/-!
# The sizes accepted

The command lines accepted, and whether the sizes are those that were asked for.
`strtol` refuses what does not fit in a `long`, but the conversion to `int` and
the multiplication into bytes wrap, so that a memory size from 2048 MB on, or a
page size that is no `int`, is taken for what is left of it
(`sizesExact_iff`). And the page size is only tested for being even: 1 is
refused, and 6 is accepted (`powersAccepted_iff`).
-/

namespace Pfsim

variable {argv : List (List Char)} {a : Args}

/-- The sizes of a memory that fits in an `int` are those asked for. -/
theorem parseArgs_eq_ok_of_fits (hm : 0 ≤ mOperand argv ∧ mOperand argv ≤ 2047)
    (hp : FitsInt (pOperand argv)) : parseArgs argv = .ok a ↔
      (∀ o ∈ getopt argv, o.Read) ∧ (0 ≤ pOperand argv ∧ 2 ∣ pOperand argv) ∧
      or4096B (pOperand argv) ≤ orOneMB (mOperand argv) * 2 ^ 20 ∧ fileOperand argv ≠ none ∧
      a = ⟨orOneMB (mOperand argv) * 2 ^ 20, or4096B (pOperand argv), fileOperand argv⟩ := by
  have hm' : toInt (mOperand argv) = mOperand argv :=
    toInt_eq_self_iff.2 ⟨by omega, by omega⟩
  have hbytes : toInt (orOneMB (mOperand argv) * 2 ^ 20) = orOneMB (mOperand argv) * 2 ^ 20 := by
    rw [toInt_eq_self_iff, orOneMB, FitsInt]
    split_ifs <;> omega
  rw [parseArgs_eq_ok_iff, toInt_eq_self_iff.2 hp, hm', hbytes]
  exact and_congr_right fun _ => and_congr_right fun _ => and_iff_right hm.1

/-! ### Memory-size arithmetic -/

/-- The sizes are those asked for, which fit, and so is the number of frames. -/
structure SizesAsked (argv : List (List Char)) (a : Args) : Prop where
  fitsInt_m : FitsInt (mOperand argv)
  fitsInt_p : FitsInt (pOperand argv)
  fitsInt_bytes : FitsInt (orOneMB (mOperand argv) * 2 ^ 20)
  memsize_eq : a.memsize = orOneMB (mOperand argv) * 2 ^ 20
  memsize_pos : 0 < a.memsize
  pagesize_eq : a.pagesize = or4096B (pOperand argv)
  pagesize_pos : 0 < a.pagesize
  frameCount_eq : ∀ ndebug, frameCount ndebug argv =
    .ok (orOneMB (mOperand argv) * 2 ^ 20 / or4096B (pOperand argv)).toNat
  frames_pos : 1 ≤ orOneMB (mOperand argv) * 2 ^ 20 / or4096B (pOperand argv)

/-- Memory and page fit, and the page in the memory. -/
def Representable (argv : List (List Char)) : Prop :=
  FitsInt (mOperand argv) ∧ FitsInt (pOperand argv) ∧
    FitsInt (orOneMB (mOperand argv) * 2 ^ 20) ∧ 0 < or4096B (pOperand argv) ∧
    or4096B (pOperand argv) ≤ orOneMB (mOperand argv) * 2 ^ 20

/-- A command line accepted has the sizes asked for, and one whose sizes are not
    representable is refused. -/
def SizesExact (argv : List (List Char)) : Prop :=
  (∀ a, parseArgs argv = .ok a → SizesAsked argv a) ∧
    (¬Representable argv → ∃ msg, parseArgs argv = .error (.exitFailure msg))

/-- What is left of the operands in 32 bits passes the checks, where the
    megabytes count modulo 4096. -/
structure ResiduesPass (argv : List (List Char)) : Prop where
  read : ∀ o ∈ getopt argv, o.Read
  file : fileOperand argv ≠ none
  even : 2 ∣ pOperand argv
  p_lt : pOperand argv % 2 ^ 32 < 2 ^ 31
  m_lt : mOperand argv % 2 ^ 32 < 2 ^ 31
  bytes_lt : orOneMB (mOperand argv % 2 ^ 32) % 4096 < 2048
  le : or4096B (pOperand argv % 2 ^ 32) ≤ orOneMB (mOperand argv % 2 ^ 32) % 4096 * 2 ^ 20

theorem toInt_nonneg_iff {n : ℤ} : 0 ≤ toInt n ↔ n % 2 ^ 32 < 2 ^ 31 := by
  rw [toInt]
  split_ifs <;> omega

theorem toInt_eq_emod {n : ℤ} (h : n % 2 ^ 32 < 2 ^ 31) : toInt n = n % 2 ^ 32 := if_pos h

theorem two_dvd_toInt_iff {n : ℤ} : 2 ∣ toInt n ↔ 2 ∣ n := by
  rw [toInt]
  split_ifs <;> omega

/-- The bytes that megabytes come to: positive if what is left of them modulo
    4096 is below 2048. -/
theorem le_toInt_bytes_iff {n k : ℤ} (hk : 0 < k) :
    k ≤ toInt (n * 2 ^ 20) ↔ n % 4096 < 2048 ∧ k ≤ n % 4096 * 2 ^ 20 := by
  rw [toInt]
  split_ifs <;> omega

/-- The command lines accepted, by arithmetic on the operands. -/
theorem exists_parseArgs_eq_ok_iff : (∃ a, parseArgs argv = .ok a) ↔ ResiduesPass argv := by
  simp only [parseArgs_eq_ok_iff, exists_and_left, exists_eq, and_true, toInt_nonneg_iff,
    two_dvd_toInt_iff]
  constructor
  · rintro ⟨hread, ⟨hp, h2⟩, hm, hle, hfile⟩
    rw [toInt_eq_emod hp, toInt_eq_emod hm,
      le_toInt_bytes_iff (or4096B_pos (Int.emod_nonneg _ (by decide)))] at hle
    exact ⟨hread, hfile, h2, hp, hm, hle.1, hle.2⟩
  · intro h
    refine ⟨h.read, ⟨h.p_lt, h.even⟩, h.m_lt, ?_, h.file⟩
    rw [toInt_eq_emod h.p_lt, toInt_eq_emod h.m_lt,
      le_toInt_bytes_iff (or4096B_pos (Int.emod_nonneg _ (by decide)))]
    exact ⟨h.bytes_lt, h.le⟩

/-- A command line that is not accepted ends the program with a message. -/
theorem exists_exit (h : ∀ a, parseArgs argv ≠ .ok a) :
    ∃ msg, parseArgs argv = .error (.exitFailure msg) := by
  cases hargs : parseArgs argv with
  | ok a => exact absurd hargs (h a)
  | error e =>
    obtain ⟨msg, rfl⟩ := exits_parseArgs argv e hargs
    exact ⟨msg, rfl⟩

/-- A memory that fits in an `int` has the sizes asked for. -/
theorem sizesAsked_of_fits (hm : 0 ≤ mOperand argv ∧ mOperand argv ≤ 2047)
    (hp : FitsInt (pOperand argv)) (h : parseArgs argv = .ok a) : SizesAsked argv a := by
  obtain ⟨-, -, -, -, ha⟩ := (parseArgs_eq_ok_of_fits hm hp).1 h
  have hmem : a.memsize = orOneMB (mOperand argv) * 2 ^ 20 := by rw [ha]
  have hpage : a.pagesize = or4096B (pOperand argv) := by rw [ha]
  obtain ⟨hmpos, hppos, -⟩ := parseArgs_pos h
  have hdiv : numberOfPhysicalPages a =
      orOneMB (mOperand argv) * 2 ^ 20 / or4096B (pOperand argv) := by
    rw [numberOfPhysicalPages, Int.tdiv_eq_ediv_of_nonneg hmpos.le, hmem, hpage]
  have hbytes : FitsInt (orOneMB (mOperand argv) * 2 ^ 20) := by
    rw [orOneMB, FitsInt]
    split_ifs <;> omega
  exact ⟨⟨by omega, by omega⟩, hp, hbytes, hmem, hmpos, hpage, hppos,
    fun ndebug => hdiv ▸ (frameCount_eq h).1, hdiv ▸ (parseArgs_pos h).2.2.2.1⟩

/-- The sizes are exact if and only if the last operands fit, the bytes of the
    memory included, or if what is left of them in 32 bits does not pass the
    checks either. -/
theorem sizesExact_iff (argv : List (List Char)) : SizesExact argv ↔
    (ResiduesPass argv → (0 ≤ mOperand argv ∧ mOperand argv ≤ 2047) ∧ FitsInt (pOperand argv)) := by
  constructor
  · rintro ⟨hexact, -⟩ hpass
    obtain ⟨a, ha⟩ := exists_parseArgs_eq_ok_iff.2 hpass
    obtain ⟨hm, hp, hbytes, -⟩ := hexact a ha
    have hnonneg := hpass.m_lt
    rw [orOneMB, FitsInt] at hbytes
    rw [FitsInt] at hm
    refine ⟨?_, hp⟩
    split_ifs at hbytes <;> omega
  · intro hfits
    have hexact (a : Args) (ha : parseArgs argv = .ok a) : SizesAsked argv a :=
      have h := hfits (exists_parseArgs_eq_ok_iff.1 ⟨a, ha⟩)
      sizesAsked_of_fits h.1 h.2 ha
    refine ⟨hexact, fun hrep => exists_exit fun a ha => hrep ?_⟩
    have h := hexact a ha
    have hle := (Int.le_ediv_iff_mul_le (h.pagesize_eq ▸ h.pagesize_pos)).1 h.frames_pos
    rw [one_mul] at hle
    exact ⟨h.fitsInt_m, h.fitsInt_p, h.fitsInt_bytes, h.pagesize_eq ▸ h.pagesize_pos, hle⟩

/-- 4294967297 MB are taken for 1 MB. -/
theorem not_sizesExact_wrapped : ¬∀ argv, SizesExact argv := by
  intro h
  have hok : parseArgs ["pfsim".toList, "-m4294967297".toList, "t".toList] =
      .ok ⟨0x100000, 4096, some ['t']⟩ := by decide
  exact absurd ((h _).1 _ hok).memsize_eq (by decide)

/-! ### Powers of two -/

/-- The last operand of `-p` is a power of two, at most the bytes of the memory. -/
def FittingPower (argv : List (List Char)) : Prop :=
  (∃ k : ℕ, pOperand argv = 2 ^ k) ∧ pOperand argv ≤ orOneMB (mOperand argv) * 2 ^ 20

/-- The command line is accepted if and only if the page size is a power of two
    that fits, and then the frames make up the memory. -/
structure PowersAccepted (argv : List (List Char)) : Prop where
  accepted_iff : (∃ a, parseArgs argv = .ok a) ↔ FittingPower argv
  refused : ¬FittingPower argv → ∃ msg, parseArgs argv = .error (.exitFailure msg)
  tiles : ∀ a, parseArgs argv = .ok a → numberOfPhysicalPages a * a.pagesize = a.memsize

/-- A power of two other than 1 is even. -/
theorem two_dvd_pow {k : ℕ} (h : (2 : ℤ) ^ k ≠ 1) : (2 : ℤ) ∣ 2 ^ k := by
  refine dvd_pow_self 2 ?_
  rintro rfl
  exact h rfl

/-- The frames make up the memory if and only if the page divides it. -/
theorem tiles_iff : numberOfPhysicalPages a * a.pagesize = a.memsize ↔ a.pagesize ∣ a.memsize :=
  ⟨fun h => h ▸ dvd_mul_left _ _, Int.tdiv_mul_cancel⟩

/-- The page size is positive and even, and at most the bytes of the memory. -/
def FittingEven (argv : List (List Char)) : Prop :=
  0 < pOperand argv ∧ 2 ∣ pOperand argv ∧ pOperand argv ≤ orOneMB (mOperand argv) * 2 ^ 20

/-- What `parseArgs` tests, when there is a file name and the sizes fit. -/
theorem parseArgs_eq_ok_iff_fittingEven (hfile : fileOperand argv ≠ none)
    (hm : 1 ≤ orOneMB (mOperand argv) ∧ orOneMB (mOperand argv) ≤ 2047)
    (hp : pOperand argv ≠ 0 ∧ FitsInt (pOperand argv)) : parseArgs argv = .ok a ↔
      ((∀ o ∈ getopt argv, o.Read) ∧ FittingEven argv) ∧
        a = ⟨orOneMB (mOperand argv) * 2 ^ 20, pOperand argv, fileOperand argv⟩ := by
  have hm' : 0 ≤ mOperand argv ∧ mOperand argv ≤ 2047 := by
    rw [orOneMB] at hm
    split_ifs at hm <;> omega
  have hpage : or4096B (pOperand argv) = pOperand argv := if_neg hp.1
  have hpos : 0 ≤ pOperand argv ↔ 0 < pOperand argv := (Ne.symm hp.1).le_iff_lt
  rw [parseArgs_eq_ok_of_fits hm' hp.2, hpage, hpos, FittingEven]
  tauto

/-- When a file name is given and the sizes fit, the page sizes accepted are the
    powers of two that fit if and only if: all options are read, the page size is
    not 1, and if it is even and fits, then it is a power of two that divides the
    memory; or some option is not read, and the page size is no power of two that
    fits. -/
theorem powersAccepted_iff (argv : List (List Char)) (hfile : fileOperand argv ≠ none)
    (hm : 1 ≤ orOneMB (mOperand argv) ∧ orOneMB (mOperand argv) ≤ 2047)
    (hp : pOperand argv ≠ 0 ∧ FitsInt (pOperand argv)) : PowersAccepted argv ↔
      ((∀ o ∈ getopt argv, o.Read) → pOperand argv ≠ 1 ∧ (FittingEven argv →
        (∃ k : ℕ, pOperand argv = 2 ^ k) ∧ pOperand argv ∣ orOneMB (mOperand argv) * 2 ^ 20)) ∧
      ((¬∀ o ∈ getopt argv, o.Read) → ¬FittingPower argv) := by
  have hok {a} := parseArgs_eq_ok_iff_fittingEven (a := a) hfile hm hp
  have haccepted : (∃ a, parseArgs argv = .ok a) ↔
      (∀ o ∈ getopt argv, o.Read) ∧ FittingEven argv := by
    simp only [hok, exists_and_left, exists_eq, and_true]
  constructor
  · intro h
    refine ⟨fun hread => ⟨fun h1 => ?_, fun heven => ?_⟩, fun hread hpow => ?_⟩
    · -- 1 is a power of two, and odd
      have hfit : FittingPower argv := ⟨⟨0, h1⟩, by omega⟩
      have h2 := (haccepted.1 (h.accepted_iff.2 hfit)).2.2.1
      omega
    · obtain ⟨a, ha⟩ := haccepted.2 ⟨hread, heven⟩
      have htiles := tiles_iff.1 (h.tiles a ha)
      rw [(hok.1 ha).2] at htiles
      exact ⟨(h.accepted_iff.1 ⟨a, ha⟩).1, htiles⟩
    · exact hread (haccepted.1 (h.accepted_iff.2 hpow)).1
  · rintro ⟨hread, hnot⟩
    have hiff : (∃ a, parseArgs argv = .ok a) ↔ FittingPower argv := by
      rw [haccepted]
      constructor
      · rintro ⟨hr, heven⟩
        exact ⟨((hread hr).2 heven).1, heven.2.2⟩
      · intro hpow
        have hr : ∀ o ∈ getopt argv, o.Read := not_not.1 fun hr => hnot hr hpow
        obtain ⟨⟨k, hk⟩, hle⟩ := hpow
        refine ⟨hr, hk ▸ by positivity, ?_, hle⟩
        rw [hk]
        exact two_dvd_pow (hk ▸ (hread hr).1)
    refine ⟨hiff, fun hpow => exists_exit fun a ha => hpow (hiff.1 ⟨a, ha⟩), fun a ha => ?_⟩
    obtain ⟨⟨hr, heven⟩, hargs⟩ := hok.1 ha
    rw [tiles_iff, hargs]
    exact ((hread hr).2 heven).2

/-- Pages of 4096 bytes, in 2 MB. -/
theorem powersAccepted_4096 :
    PowersAccepted ["pfsim".toList, "-p4096".toList, "-m2".toList, "t".toList] :=
  (powersAccepted_iff _ (by decide) (by decide) ⟨by decide, by decide⟩).2
    ⟨fun _ => ⟨by decide, fun _ => ⟨⟨12, by decide⟩, by decide⟩⟩, fun h => absurd (by decide) h⟩

/-- Pages of 6 bytes are accepted. -/
theorem not_powersAccepted_6 : ¬∀ argv, fileOperand argv ≠ none →
    (∀ o ∈ getopt argv, o ≠ .h ∧ o ≠ .unknown) →
    1 ≤ orOneMB (mOperand argv) ∧ orOneMB (mOperand argv) ≤ 2047 →
    pOperand argv ≠ 0 ∧ FitsInt (pOperand argv) → PowersAccepted argv := by
  intro h
  have hok : parseArgs ["pfsim".toList, "-p6".toList, "t".toList] =
      .ok ⟨0x100000, 6, some ['t']⟩ := by decide
  have h6 := h ["pfsim".toList, "-p6".toList, "t".toList] (by decide) (by decide) (by decide)
    ⟨by decide, by decide⟩
  obtain ⟨⟨k, hk⟩, -⟩ := h6.accepted_iff.1 ⟨_, hok⟩
  rw [show pOperand ["pfsim".toList, "-p6".toList, "t".toList] = 6 by decide] at hk
  match k with
  | 0 | 1 | 2 => exact absurd hk (by decide)
  | k + 3 =>
    rw [pow_add] at hk
    omega

end Pfsim
