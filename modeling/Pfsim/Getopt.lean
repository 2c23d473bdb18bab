import Pfsim.Stdio

/-!
# Reading a command line

The functions of the C library that the program reads its command line with:

* `getopt(argc, argv, "-p:m:h")`. The options may be clustered (`-hm5`), the
  operand of `-m` and `-p` is the rest of the argument or else the next one,
  whatever it looks like; as the first character of the options is `-`, an
  argument that is no option is given as such, in its place, and only `--` ends
  the options before the arguments do;
* `strtol` in base 10, which gives 0 when there is no number to read, ignores
  what follows the number, and sets `errno` when the number does not fit.
-/

namespace Pfsim

/-- The value of a call of `getopt`, with `optarg`. -/
inductive Opt
  /-- The option `-m`. -/
  | m (optarg : List Char)
  /-- The option `-p`. -/
  | p (optarg : List Char)
  /-- The option `-h`. -/
  | h
  /-- A character that is no option, for which the value is `?`. -/
  | unknown
  /-- The option `-m` or `-p` without operand, for which the value is `?`. -/
  | missing
  /-- An argument that is no option, for which the value is 1. -/
  | nonoption (optarg : List Char)
  deriving DecidableEq

/-- The options in the rest of an argument, and the one that is to find its
    operand in the next argument, if any. -/
def getoptCluster : List Char → List Opt × Option (List Char → Opt)
  | [] => ([], none)
  | 'm' :: [] => ([], some .m)
  | 'm' :: optarg => ([.m optarg], none)
  | 'p' :: [] => ([], some .p)
  | 'p' :: optarg => ([.p optarg], none)
  | 'h' :: cs => (.h :: (getoptCluster cs).1, (getoptCluster cs).2)
  | _ :: cs => (.unknown :: (getoptCluster cs).1, (getoptCluster cs).2)

/-- The values of the calls of `getopt` on the arguments left, the first of them
    being the operand of an option or not. -/
def getoptFrom : Option (List Char → Opt) → List (List Char) → List Opt
  | none, [] => []
  | some _, [] => [.missing]
  | some option, optarg :: argv => option optarg :: getoptFrom none argv
  | none, arg :: argv =>
    if arg = ['-', '-'] then []
    else if arg.head? ≠ some '-' ∨ arg = ['-'] then .nonoption arg :: getoptFrom none argv
    else (getoptCluster arg.tail).1 ++ getoptFrom (getoptCluster arg.tail).2 argv

/-- The values of the calls of `getopt`, until it gives -1. The first argument is
    the name of the program. -/
def getopt (argv : List (List Char)) : List Opt := getoptFrom none argv.tail

/-- The largest `long`. -/
def LONG_MAX : ℤ := 2 ^ 63 - 1

/-- The least `long`. -/
def LONG_MIN : ℤ := -2 ^ 63

/-- The number that `strtol` reads, which may not fit in a `long`. -/
def strtolNumber (s : List Char) : ℤ :=
  match s.dropWhile isspace with
  | '-' :: cs => -decimal (cs.takeWhile Char.isDigit)
  | '+' :: cs => decimal (cs.takeWhile Char.isDigit)
  | cs => decimal (cs.takeWhile Char.isDigit)

/-- `strtol`, and whether it sets `errno` to `ERANGE`. -/
def strtol (s : List Char) : ℤ × Bool :=
  if strtolNumber s > LONG_MAX then (LONG_MAX, true)
  else if strtolNumber s < LONG_MIN then (LONG_MIN, true)
  else (strtolNumber s, false)

/-- The conversion to `int`, which keeps the last 32 bits. -/
def toInt (n : ℤ) : ℤ := if n % 2 ^ 32 < 2 ^ 31 then n % 2 ^ 32 else n % 2 ^ 32 - 2 ^ 32

/-- The number fits in a `long`. -/
def FitsLong (n : ℤ) : Prop := LONG_MIN ≤ n ∧ n ≤ LONG_MAX

/-- The number fits in an `int`. -/
def FitsInt (n : ℤ) : Prop := -2 ^ 31 ≤ n ∧ n < 2 ^ 31

instance (n : ℤ) : Decidable (FitsLong n) := inferInstanceAs (Decidable (_ ∧ _))

instance (n : ℤ) : Decidable (FitsInt n) := inferInstanceAs (Decidable (_ ∧ _))

example : getopt ["pfsim".toList, "-m5".toList, "-p".toList, "-8".toList, "t".toList] =
    [.m ['5'], .p ['-', '8'], .nonoption ['t']] := by decide

/-- `strtol` gives the number it reads, unless it sets `errno`. -/
theorem strtol_eq {s : List Char} (h : (strtol s).2 = false) :
    FitsLong (strtolNumber s) ∧ (strtol s).1 = strtolNumber s := by
  rw [strtol] at h ⊢
  split_ifs at h ⊢ with hmax hmin
  exact ⟨⟨not_lt.1 hmin, not_lt.1 hmax⟩, rfl⟩

theorem strtol_errno_iff {s : List Char} : (strtol s).2 = false ↔ FitsLong (strtolNumber s) := by
  refine ⟨fun h => (strtol_eq h).1, fun h => ?_⟩
  rw [strtol, if_neg (not_lt.2 h.2), if_neg (not_lt.2 h.1)]

/-- An `int` fits in an `int`. -/
theorem fitsInt_toInt (n : ℤ) : FitsInt (toInt n) := by
  rw [toInt, FitsInt]
  split_ifs <;> omega

/-- A number that fits is kept. -/
theorem toInt_eq_self_iff {n : ℤ} : toInt n = n ↔ FitsInt n := by
  rw [toInt, FitsInt]
  split_ifs <;> omega

end Pfsim
