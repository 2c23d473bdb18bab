import Pfsim.TraceParser.FirstPass

/-!
# What the first pass accepts

The first pass should accept the formatted files and no others. It accepts them
all, and the simulator reads back what it has indexed (`Formatted.readsBack`).
But it also stops without a message at what is not a number, unless the variable
`curr_pid` happens to hold 0, and takes a process number without a page number
for a record, which the simulator then fails to read.

* `readsFormat_iff`: the first pass treats a file as it should if and only if the
  file is formatted or rejected.
-/

namespace Pfsim

section

variable (slot : ℕ → ℕ) (text : List Char)

/-- The line `k` is in an interval of a process. -/
def Processes.Counts (ps : Processes) (k : ℕ) : Prop :=
  ∃ p < ps.nextProc, ∃ i ∈ (ps.procs p).lineIntervals.intervals, i.low ≤ k ∧ k ≤ i.high

/-- The simulator reads back, from the offset of every interval, as many records
    as it has lines, and there is only white space after the last line counted. -/
structure ReadsBack (ps : Processes) : Prop where
  records : ∀ p < ps.nextProc, ∀ i ∈ (ps.procs p).lineIntervals.intervals,
    (readRecords text i.fposStart (i.high + 1 - i.low)).length = i.high + 1 - i.low
  rest : ∃ n, (∀ k, ps.Counts k ↔ 1 ≤ k ∧ k ≤ n) ∧
    ∀ x ∈ text.drop (lineStart text n), isspace x = true

/-- The first pass accepts the file if and only if it is formatted, stops with
    its message if not, and what it accepts is read back. -/
structure ReadsFormat : Prop where
  returns_iff : (∃ ps, firstPass slot text = .ok ps) ↔ Formatted text
  stops : ¬Formatted text → ∃ n, firstPass slot text = .error (invalidFormat n)
  readsBack : ∀ ps, firstPass slot text = .ok ps → ReadsBack text ps

end

variable {slot : ℕ → ℕ} {text : List Char} {k n pos : ℕ} {ps : Processes}

/-- From an offset up to white space that of the line `k + 1`, the simulator reads
    all the lines that are records. -/
theorem length_readRecords
    (hpos : (text.drop pos).dropWhile isspace = (text.drop (lineStart text k)).dropWhile isspace)
    (hscan : ∀ j, k ≤ j → j < k + n → ∃ pid vpn rest, scanLine text j = ⟨2, [pid, vpn], rest⟩) :
    (readRecords text pos n).length = n := by
  induction n generalizing pos k with
  | zero => rfl
  | succ n ih =>
    obtain ⟨pid, vpn, rest, hk⟩ := hscan k le_rfl (by omega)
    have hread : fscanf simulatorFormat (text.drop pos) =
        ⟨2, [pid, vpn], rest.dropWhile isspace⟩ := by
      rw [← simulatorFormat_dropWhile, hpos, simulatorFormat_dropWhile]
      exact simulatorFormat_of_firstPassFormat hk
    have hstep : readRecords text pos (n + 1) =
        (pid, vpn) :: readRecords text (text.length - (rest.dropWhile isspace).length) n := by
      rw [readRecords, hread]
      rfl
    rw [hstep, List.length_cons, ih (k := k + 1) ?_ fun j hj hj' => hscan j (by omega) (by omega)]
    -- Both readers are at the same record again.
    have hs : rest.dropWhile isspace <:+ text := by
      have hfirst := fscanf_suffix simulatorFormat (text.drop pos)
      rw [hread] at hfirst
      exact hfirst.trans (List.drop_suffix _ _)
    rw [← List.suffix_iff_eq_drop.1 hs, drop_lineStart_succ, hk, List.dropWhile_idempotent]

/-- What the first pass indexes of a formatted file is read back. -/
theorem Formatted.readsBack (h : Formatted text) (hok : firstPass slot text = .ok ps) :
    ReadsBack text ps := by
  obtain ⟨n, hrec, hlast, hi⟩ := firstPass_indexed hok
  have hscan (j : ℕ) (hj : j < n) : ∃ pid vpn rest, Pfsim.scanLine text j =
      ⟨2, [pid, vpn], rest⟩ := by
    have hpos := (hrec (j + 1) (by omega) hj).2
    rw [Nat.add_sub_cancel] at hpos
    rcases h.scanLine j with ⟨-, heof⟩ | ⟨pid, vpn, rest, hj, -⟩
    · rw [heof, EOF] at hpos
      omega
    · exact ⟨pid, vpn, rest, hj⟩
  refine ⟨fun p hp i hip => ?_, n, fun k => ⟨?_, ?_⟩, ?_⟩
  · obtain ⟨hrun, hle, hfpos, -⟩ := hi.indexes hp i hip
    have h1 := hrun.one_le
    have hsync : (text.drop i.fposStart).dropWhile isspace =
        (text.drop (lineStart text (i.low - 1))).dropWhile isspace := by rw [hfpos]
    exact length_readRecords hsync fun j _ hj => hscan j (by omega)
  · rintro ⟨p, hp, i, hip, hlow, hhigh⟩
    obtain ⟨hrun, hle, -⟩ := hi.indexes hp i hip
    exact ⟨hrun.one_le.trans hlow, hhigh.trans hle⟩
  · rintro ⟨h1, hk⟩
    exact hi.cover h1 hk
  · rcases h.scanLine n with ⟨hspace, -⟩ | ⟨pid, vpn, rest, hn, -⟩
    · exact hspace
    · rw [hn] at hlast
      exact absurd hlast (by simp)

/-- The first pass treats a file as it should if and only if the file is
    formatted, or is rejected. -/
theorem readsFormat_iff (slot : ℕ → ℕ) (text : List Char) :
    ReadsFormat slot text ↔ Formatted text ∨ Rejected slot text := by
  rcases firstPass_cases slot text with ⟨ps, hok, hrej⟩ | ⟨n, herr, hrej⟩
  · rw [or_iff_left hrej]
    refine ⟨fun h => h.returns_iff.1 ⟨ps, hok⟩, fun h => ⟨iff_of_true ⟨ps, hok⟩ h, ?_, ?_⟩⟩
    · exact fun hnot => absurd h hnot
    · exact fun ps hps => h.readsBack hps
  · have hnot : ¬Formatted text := fun h => h.not_rejected hrej
    have hfail (ps : Processes) : firstPass slot text ≠ .ok ps := by
      rw [herr]
      exact fun h => nomatch h
    refine iff_of_true ⟨iff_of_false (fun ⟨ps, hps⟩ => hfail ps hps) hnot, fun _ => ⟨n, herr⟩, ?_⟩
      (.inr hrej)
    exact fun ps hps => absurd hps (hfail ps)

/-- A file that ends in the middle of a record is accepted. -/
theorem not_readsFormat_half : ¬∀ slot text, ReadsFormat slot text := by
  intro h
  have hread := h (fun _ => 0) ['1', ' ', '1', '\n', '1']
  have hok : (firstPass (fun _ => 0) ['1', ' ', '1', '\n', '1']).toOption.isSome = true := by
    decide
  cases hps : firstPass (fun _ => 0) ['1', ' ', '1', '\n', '1'] with
  | error e =>
    rw [hps] at hok
    cases hok
  | ok ps =>
    have hscan : scanLine ['1', ' ', '1', '\n', '1'] 1 = ⟨1, [1], []⟩ := by decide
    rcases (hread.returns_iff.1 ⟨ps, hps⟩).scanLine 1 with ⟨-, heof⟩ | ⟨pid, vpn, rest, htwo, -⟩
    · rw [hscan] at heof
      cases heof
    · rw [hscan] at htwo
      cases htwo

end Pfsim
