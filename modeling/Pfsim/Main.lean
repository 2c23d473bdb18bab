import Pfsim.Getopt
import Pfsim.Runtime

/-!
# The command line

`parseArgs` goes through the options with `getopt`, writing the variables of
`main` as it meets them, so that the last operand of `-m` and the last one of
`-p` count (`foldl_after`), and then checks them. All of its arithmetic is on
`int`: the operands are converted from `long`, and the megabytes are multiplied
into bytes, which keep 32 bits.

* `parseArgs_eq_ok_iff`: the command lines accepted, and the sizes they give;
* `frameCount_eq`: `main` gives the other modules at least one frame.
-/

namespace Pfsim

/-- The variables of `main` that `parseArgs` writes. -/
structure Args where
  memsize : ℤ
  pagesize : ℤ
  filename : Option (List Char)
  deriving DecidableEq

/-- The message of `-h`. -/
def helpText : String :=
  "Usage:\n" ++
  "  ./pfsim-lru [-m real memory size] [-p page size] <tracefile>\n" ++
  "  ./pfsim-fifo [-m real memory size] [-p page size] <tracefile>\n" ++
  "  ./pfsim-clock [-m real memory size] [-p page size] <tracefile>\n" ++
  "  ./pfsim-random [-m real memory size] [-p page size] <tracefile>\n" ++
  "\nOptions:\n" ++
  "  -h\tPrints this message.\n" ++
  "  -m\tAmount of physical memory avaliable, in megabytes. Defaults to 1 MB.\n" ++
  "  -p\tPage size as a number of bytes, must be a power of two. Defaults to 4096 bytes.\n"

/-- `basename`: what follows the last slash. -/
def basename (path : List Char) : List Char := (path.reverse.takeWhile (· ≠ '/')).reverse

/-- The message on an option that is wrong. -/
def tryHelp : List (List Char) → String
  | [] => "Could not recognize executable name.Specify '-h' for more information.\n"
  | name :: _ => "Try '" ++ String.ofList (basename name) ++ " -h' for more information.\n"

/-- `(int)strtol(optarg, NULL, 10)`, for the option `opt`. -/
def parseInt (opt : String) (optarg : List Char) : Except Stop ℤ :=
  if (strtol optarg).2 then
    .error (.exitFailure ("Error parsing -" ++ opt ++ ", must be a valid integer.\n"))
  else .ok (toInt (strtol optarg).1)

/-- An iteration of the loop of `parseArgs`. -/
def Args.parse (argv : List (List Char)) (args : Args) : Opt → Except Stop Args
  | .m optarg => do
    let memsize ← parseInt "m" optarg
    .ok { args with memsize }
  | .p optarg => do
    let pagesize ← parseInt "p" optarg
    .ok { args with pagesize }
  | .h => .error (.exitFailure helpText)
  | .unknown => .error (.exitFailure (tryHelp argv))
  | .missing => .error (.exitFailure (tryHelp argv))
  | .nonoption optarg => .ok { args with filename := some optarg }

/-- The page size, validated. -/
def validPagesize (pagesize : ℤ) : Except Stop ℤ :=
  if pagesize ≠ 0 ∧ pagesize.tmod 2 ≠ 0 then
    .error (.exitFailure "ERROR: page size must be a power of two\n")
  else if pagesize < 0 then .error (.exitFailure "ERROR: page size must be positive\n")
  else if pagesize = 0 then .ok 4096
  else .ok pagesize

/-- The memory size in bytes, from that in megabytes. -/
def validMemsize (memsize : ℤ) : Except Stop ℤ :=
  if memsize < 0 then .error (.exitFailure "ERROR: memory size must be positive\n")
  else
    let memsize := if memsize = 0 then 1 else memsize
    .ok (toInt (memsize * 0x100000))

/-- The part of `parseArgs` after its loop. -/
def Args.validate (args : Args) : Except Stop Args := do
  let pagesize ← validPagesize args.pagesize
  let memsize ← validMemsize args.memsize
  if pagesize > memsize then
    .error (.exitFailure "ERROR: specified page size is larger than memory size\n")
  else if args.filename = none then
    .error (.exitFailure "ERROR: must specify valid file name on command line\n")
  else .ok ⟨memsize, pagesize, args.filename⟩

/-- `parseArgs`, on the variables as `main` initialises them. The warnings on
    the defaults taken are left out. -/
def parseArgs (argv : List (List Char)) : Except Stop Args := do
  let args ← (getopt argv).foldlM (Args.parse argv) ⟨0, 0, none⟩
  args.validate

/-- `memsize / pagesize`. -/
def numberOfPhysicalPages (args : Args) : ℤ := args.memsize.tdiv args.pagesize

/-- The number of frames that `main` gives to `Memory_init`, converted to
    `size_t`. -/
def frameCount (ndebug : Bool) (argv : List (List Char)) : Except Stop ℕ := do
  let args ← parseArgs argv
  assert ndebug (args.memsize > 0) "memsize > 0"
  assert ndebug (args.pagesize > 0) "pagesize > 0"
  assert ndebug (args.filename ≠ none) "filename != NULL"
  assert ndebug (numberOfPhysicalPages args > 0) "numberOfPhysicalPages > 0"
  .ok (numberOfPhysicalPages args % 2 ^ 64).toNat

/-! ## The operands -/

/-- The operand of `-m`. -/
def Opt.m? : Opt → Option (List Char)
  | .m optarg => some optarg
  | _ => none

/-- The operand of `-p`. -/
def Opt.p? : Opt → Option (List Char)
  | .p optarg => some optarg
  | _ => none

/-- The file name. -/
def Opt.filename? : Opt → Option (List Char)
  | .nonoption optarg => some optarg
  | _ => none

/-- The number that the last operand of an option is, or 0. -/
def lastNumber (operand : Opt → Option (List Char)) (l : List Opt) : ℤ :=
  ((l.filterMap operand).getLast?.map strtolNumber).getD 0

/-- The number that the last operand of `-m` is. -/
def mOperand (argv : List (List Char)) : ℤ := lastNumber Opt.m? (getopt argv)

/-- The number that the last operand of `-p` is. -/
def pOperand (argv : List (List Char)) : ℤ := lastNumber Opt.p? (getopt argv)

/-- The last file name given. -/
def fileOperand (argv : List (List Char)) : Option (List Char) :=
  ((getopt argv).filterMap Opt.filename?).getLast?

/-- An option that `parseArgs` goes past. -/
def Opt.Read : Opt → Prop
  | .m optarg => FitsLong (strtolNumber optarg)
  | .p optarg => FitsLong (strtolNumber optarg)
  | .h => False
  | .unknown => False
  | .missing => False
  | .nonoption _ => True

instance : DecidablePred Opt.Read
  | .m optarg => inferInstanceAs (Decidable (FitsLong (strtolNumber optarg)))
  | .p optarg => inferInstanceAs (Decidable (FitsLong (strtolNumber optarg)))
  | .h => inferInstanceAs (Decidable False)
  | .unknown => inferInstanceAs (Decidable False)
  | .missing => inferInstanceAs (Decidable False)
  | .nonoption _ => inferInstanceAs (Decidable True)

/-- What an option changes, read. -/
def Args.after (args : Args) : Opt → Args
  | .m optarg => { args with memsize := toInt (strtolNumber optarg) }
  | .p optarg => { args with pagesize := toInt (strtolNumber optarg) }
  | .nonoption optarg => { args with filename := some optarg }
  | _ => args

/-- The default of the memory size, in megabytes. -/
def orOneMB (n : ℤ) : ℤ := if n = 0 then 1 else n

/-- The default of the page size, in bytes. -/
def or4096B (n : ℤ) : ℤ := if n = 0 then 4096 else n

variable {argv : List (List Char)} {args a : Args} {l : List Opt} {o : Opt} {n k : ℤ} {e : Stop}

theorem parseInt_eq_ok_iff {opt : String} {optarg : List Char} :
    parseInt opt optarg = .ok n ↔
      FitsLong (strtolNumber optarg) ∧ n = toInt (strtolNumber optarg) := by
  rw [parseInt, ← strtol_errno_iff]
  cases h : (strtol optarg).2 with
  | false => simp [(strtol_eq h).2, eq_comm]
  | true => simp

theorem exits_parseInt (opt : String) (optarg : List Char) : Exits (parseInt opt optarg) := by
  rw [parseInt]
  split_ifs
  · exact exits_exitFailure _
  · exact exits_ok _

theorem parse_eq_ok_iff (args : Args) (o : Opt) (a : Args) :
    args.parse argv o = .ok a ↔ o.Read ∧ a = args.after o := by
  cases o with
  | m optarg =>
    simp only [Args.parse, bind_eq_ok, parseInt_eq_ok_iff, Except.ok.injEq, Opt.Read, Args.after]
    exact ⟨fun ⟨n, ⟨hn, e⟩, ha⟩ => ⟨hn, by rw [← ha, e]⟩, fun h => ⟨_, ⟨h.1, rfl⟩, h.2.symm⟩⟩
  | p optarg =>
    simp only [Args.parse, bind_eq_ok, parseInt_eq_ok_iff, Except.ok.injEq, Opt.Read, Args.after]
    exact ⟨fun ⟨n, ⟨hn, e⟩, ha⟩ => ⟨hn, by rw [← ha, e]⟩, fun h => ⟨_, ⟨h.1, rfl⟩, h.2.symm⟩⟩
  | h => simp [Args.parse, Opt.Read]
  | unknown => simp [Args.parse, Opt.Read]
  | missing => simp [Args.parse, Opt.Read]
  | nonoption optarg => simp [Args.parse, Opt.Read, Args.after, eq_comm]

theorem exits_parse (args : Args) (o : Opt) : Exits (args.parse argv o) := by
  cases o with
  | m optarg => exact (exits_parseInt _ _).bind fun _ => exits_ok _
  | p optarg => exact (exits_parseInt _ _).bind fun _ => exits_ok _
  | h => exact exits_exitFailure _
  | unknown => exact exits_exitFailure _
  | missing => exact exits_exitFailure _
  | nonoption optarg => exact exits_ok _

/-- The last options count. -/
theorem foldl_after : l.foldl Args.after ⟨0, 0, none⟩ =
    ⟨toInt (lastNumber Opt.m? l), toInt (lastNumber Opt.p? l),
      (l.filterMap Opt.filename?).getLast?⟩ := by
  induction l using List.reverseRecOn with
  | nil => rfl
  | append_singleton l o ih =>
    rw [List.foldl_append, ih]
    cases o <;> simp [Args.after, lastNumber, Opt.m?, Opt.p?, Opt.filename?]

theorem validPagesize_eq_ok_iff : validPagesize n = .ok k ↔ 0 ≤ n ∧ 2 ∣ n ∧ k = or4096B n := by
  have hodd : n ≠ 0 ∧ n.tmod 2 ≠ 0 ↔ ¬2 ∣ n := by
    rw [Ne, Ne, ← Int.dvd_iff_tmod_eq_zero]
    refine ⟨And.right, fun h => ⟨?_, h⟩⟩
    rintro rfl
    exact h (dvd_zero 2)
  rw [validPagesize]
  simp only [hodd]
  by_cases h2 : 2 ∣ n
  · rw [if_neg (not_not.2 h2)]
    by_cases hneg : n < 0
    · simp [hneg, not_le.2 hneg]
    rw [if_neg hneg, and_iff_right (not_lt.1 hneg), and_iff_right h2, or4096B]
    split_ifs <;> simp [eq_comm]
  · simp [h2]

theorem validMemsize_eq_ok_iff :
    validMemsize n = .ok k ↔ 0 ≤ n ∧ k = toInt (orOneMB n * 2 ^ 20) := by
  rw [validMemsize]
  by_cases hneg : n < 0
  · simp [hneg, not_le.2 hneg]
  rw [if_neg hneg, and_iff_right (not_lt.1 hneg), orOneMB]
  simp [eq_comm]

theorem validate_eq_ok_iff : args.validate = .ok a ↔
    (0 ≤ args.pagesize ∧ 2 ∣ args.pagesize) ∧ 0 ≤ args.memsize ∧
      or4096B args.pagesize ≤ toInt (orOneMB args.memsize * 2 ^ 20) ∧ args.filename ≠ none ∧
      a = ⟨toInt (orOneMB args.memsize * 2 ^ 20), or4096B args.pagesize, args.filename⟩ := by
  rw [Args.validate, bind_eq_ok]
  simp only [bind_eq_ok, validPagesize_eq_ok_iff, validMemsize_eq_ok_iff]
  constructor
  · rintro ⟨p, ⟨hp, h2, rfl⟩, b, ⟨hm, rfl⟩, h⟩
    split_ifs at h with hle hnone
    exact ⟨⟨hp, h2⟩, hm, not_lt.1 hle, hnone, (Except.ok.inj h).symm⟩
  · rintro ⟨⟨hp, h2⟩, hm, hle, hnone, rfl⟩
    exact ⟨_, ⟨hp, h2, rfl⟩, _, ⟨hm, rfl⟩, by rw [if_neg (not_lt.2 hle), if_neg hnone]⟩

theorem exits_validate (args : Args) : Exits args.validate := by
  have hpage (n : ℤ) : Exits (validPagesize n) := by
    rw [validPagesize]
    split_ifs
    · exact exits_exitFailure _
    · exact exits_exitFailure _
    · exact exits_ok _
    · exact exits_ok _
  have hmem (n : ℤ) : Exits (validMemsize n) := by
    rw [validMemsize]
    split_ifs
    · exact exits_exitFailure _
    · exact exits_ok _
    · exact exits_ok _
  refine (hpage _).bind fun p => (hmem _).bind fun m => ?_
  split_ifs
  · exact exits_exitFailure _
  · exact exits_exitFailure _
  · exact exits_ok _

/-- A command line that is not accepted ends the program, with a message. -/
theorem exits_parseArgs (argv : List (List Char)) : Exits (parseArgs argv) :=
  (Exits.foldlM exits_parse _ _).bind exits_validate

/-- The command lines accepted: all options are read, there is a file name, and
    the last operands, as `int`s, pass the checks. -/
theorem parseArgs_eq_ok_iff : parseArgs argv = .ok a ↔
    (∀ o ∈ getopt argv, o.Read) ∧ (0 ≤ toInt (pOperand argv) ∧ 2 ∣ toInt (pOperand argv)) ∧
      0 ≤ toInt (mOperand argv) ∧
      or4096B (toInt (pOperand argv)) ≤ toInt (orOneMB (toInt (mOperand argv)) * 2 ^ 20) ∧
      fileOperand argv ≠ none ∧
      a = ⟨toInt (orOneMB (toInt (mOperand argv)) * 2 ^ 20), or4096B (toInt (pOperand argv)),
        fileOperand argv⟩ := by
  rw [parseArgs, bind_eq_ok]
  simp only [foldlM_eq_ok_iff parse_eq_ok_iff, foldl_after, and_assoc, exists_and_left,
    exists_eq_left, validate_eq_ok_iff, mOperand, pOperand, fileOperand]

/-! ## The frames -/

theorem or4096B_pos (h : 0 ≤ n) : 0 < or4096B n := by
  rw [or4096B]
  split_ifs <;> omega

/-- What the asserts of `main` say: the sizes are positive, and there is a
    frame. -/
theorem parseArgs_pos (h : parseArgs argv = .ok a) :
    0 < a.memsize ∧ 0 < a.pagesize ∧ a.filename ≠ none ∧ 1 ≤ numberOfPhysicalPages a ∧
      numberOfPhysicalPages a < 2 ^ 31 := by
  obtain ⟨-, ⟨hp, -⟩, -, hle, hfile, rfl⟩ := parseArgs_eq_ok_iff.1 h
  have hpos := or4096B_pos hp
  have hmem := hpos.trans_le hle
  refine ⟨hmem, hpos, hfile, ?_⟩
  rw [numberOfPhysicalPages, Int.tdiv_eq_ediv_of_nonneg hmem.le]
  refine ⟨(Int.le_ediv_iff_mul_le hpos).2 (by rwa [one_mul]), ?_⟩
  exact (Int.ediv_le_self _ hmem.le).trans_lt (fitsInt_toInt _).2

/-- `main` gives the other modules the quotient of the sizes, which is at least
    one, as the simulations assume (`Setup.frames_pos`). -/
theorem frameCount_eq {ndebug : Bool} (h : parseArgs argv = .ok a) :
    frameCount ndebug argv = .ok (numberOfPhysicalPages a).toNat ∧
      1 ≤ (numberOfPhysicalPages a).toNat := by
  obtain ⟨hm, hp, hf, hn, hlt⟩ := parseArgs_pos h
  have hmod : numberOfPhysicalPages a % 2 ^ 64 = numberOfPhysicalPages a :=
    Int.emod_eq_of_lt (by omega) (by omega)
  refine ⟨?_, by omega⟩
  rw [frameCount, h, ok_bind, assert_ok hm, ok_bind, assert_ok hp, ok_bind, assert_ok hf, ok_bind]
  simp only [assert_ok (show numberOfPhysicalPages a > 0 by omega), ok_bind, hmod]

end Pfsim
