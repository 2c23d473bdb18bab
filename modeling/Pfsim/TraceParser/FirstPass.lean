import Pfsim.TraceParser.Format

/-!
# The first pass on well-formed trace files

On a well-formed trace file, the first pass does not fail (`Trace.exists_firstPass`):
it reads the records one after the other, each where the one before it ends, and
then finds the end of the file. The offsets it keeps are those from which the
simulator reads the same records (`Trace.at_lineStart`).

* `firstPass_indexes`: the index is exact.
-/

namespace Pfsim

namespace Trace

variable {tr : Trace} {k : ℕ}

/-! ## Lines and records -/

/-- The first pass reads the records where they are. -/
theorem drop_lineStart (hk : k ≤ tr.length) : tr.text.drop (lineStart tr.text k) = tr.after k := by
  induction k with
  | zero => rfl
  | succ k ih =>
    rw [lineStart, ih (by omega), fscanf_firstPassFormat hk]
    exact drop_of_suffix (after_suffix (k + 1))

theorem scanLine_eq (hk : k < tr.length) :
    scanLine tr.text k = ⟨2, [tr.pid (k + 1), tr.vpn (k + 1)], tr.after (k + 1)⟩ := by
  rw [scanLine, drop_lineStart hk.le, fscanf_firstPassFormat hk]

theorem scanLine_pos (hk : k < tr.length) : 0 < (scanLine tr.text k).result := by
  rw [scanLine_eq hk]
  exact zero_lt_two

/-- Then there is only white space. -/
theorem scanLine_past (hk : tr.length ≤ k) : scanLine tr.text k = ⟨EOF, [], []⟩ := by
  refine fscanf_space ?_
  induction k, hk using Nat.le_induction with
  | base =>
    rw [drop_lineStart le_rfl, after_length]
    exact tr.trailing_space
  | succ k hk ih =>
    rw [lineStart, fscanf_space ih, List.length_nil, Nat.sub_zero, List.drop_length]
    simp

/-- The process numbers are those of the records. -/
theorem linePid_eq (tr : Trace) : linePid tr.text = tr.pid := by
  funext k
  cases k with
  | zero => rfl
  | succ k =>
    by_cases hk : k < tr.length
    · rw [linePid, scanLine_eq hk]
      rfl
    · rw [linePid, scanLine_past (not_lt.1 hk), pid_eq_zero (Nat.lt_succ_of_le (not_lt.1 hk))]
      rfl

theorem lineStart_lt {j : ℕ} (h : j < k) (hk : k ≤ tr.length) :
    lineStart tr.text j < lineStart tr.text k := by
  have hj : j < tr.length := h.trans_le hk
  exact (lineStart_lt_succ (scanLine_pos hj)).trans_le (lineStart_mono h)

/-- A file is at least as long as it has records. -/
theorem length_le (tr : Trace) : tr.length ≤ tr.text.length := by
  have hle : ∀ k ≤ tr.length, k ≤ lineStart tr.text k := fun k => by
    induction k with
    | zero => exact fun _ => Nat.zero_le _
    | succ k ih => exact fun hk => (ih (by omega)).trans_lt (lineStart_lt (Nat.lt_succ_self k) hk)
  exact (hle _ le_rfl).trans (lineStart_le _ _)

/-- The offset at which the first pass reads a record is one from which the
    simulator does. -/
theorem at_lineStart (h1 : 1 ≤ k) (hk : k ≤ tr.length) : tr.At (lineStart tr.text (k - 1)) k := by
  obtain ⟨k, rfl⟩ := Nat.exists_eq_succ_of_ne_zero (Nat.one_le_iff_ne_zero.1 h1)
  exact at_of_drop (drop_lineStart (Nat.le_of_succ_le hk))

/-! ## The first pass ends -/

/-- The first pass indexes all records. -/
theorem exists_firstPass (tr : Trace) (slot : ℕ → ℕ) : ∃ ps, firstPass slot tr.text = .ok ps ∧
    Indexed tr.pid (lineStart tr.text) tr.length ps := by
  obtain ⟨ps, hok, -⟩ := (firstPass_cases slot tr.text).resolve_right fun ⟨_, _, hrej⟩ =>
    tr.formatted.not_rejected hrej
  obtain ⟨n, hrec, hlast, hi⟩ := firstPass_indexed hok
  -- It stops at the first line that is not a record.
  have hn : n = tr.length := by
    refine le_antisymm (not_lt.1 fun hlt => ?_) (not_lt.1 fun hlt => ?_)
    · have := (hrec (tr.length + 1) (by omega) hlt).2
      rw [Nat.add_sub_cancel, scanLine_past le_rfl] at this
      exact absurd this (by decide)
    · exact absurd hlast (not_le.2 (scanLine_pos hlt))
  rw [linePid_eq, hn] at hi
  exact ⟨ps, hok, hi⟩

end Trace

/-! ## Reading an interval -/

/-- The records the simulator reads one after the other, from an offset. -/
def readRecords (text : List Char) : (pos n : ℕ) → List (ℕ × ℕ)
  | _, 0 => []
  | pos, n + 1 =>
    let scanned := fscanf simulatorFormat (text.drop pos)
    match scanned.result, scanned.values with
    | 2, [pid, vpn] => (pid, vpn) :: readRecords text (text.length - scanned.rest.length) n
    | _, _ => []

theorem Trace.At.readRecords {tr : Trace} {pos k n : ℕ} (h : tr.At pos k) (h1 : 1 ≤ k)
    (hn : k + n ≤ tr.length + 1) : Pfsim.readRecords tr.text pos n =
      (List.range' k n).map fun k => (tr.pid k, tr.vpn k) := by
  induction n generalizing pos k with
  | zero => rfl
  | succ n ih =>
    rw [Pfsim.readRecords, h.fscanf h1 (by omega)]
    dsimp only
    rw [ih (At.next tr k) (by omega) (by omega), List.range'_succ, List.map_cons]
    rfl

/-- From the offset of an interval, the next record is that of its first line. -/
theorem Process.Indexes.at_low {tr : Trace} {p : Process} {i : Interval}
    (h : p.Indexes tr.pid (lineStart tr.text) tr.length i) : tr.At i.fposStart i.low :=
  h.fposStart ▸ Trace.at_lineStart h.run.one_le (h.run.le.trans h.le)

/-- The index of a well-formed trace file is exact. The intervals of all processes
    partition the lines, and are the maximal runs of records with the same process
    number; those of a process make a chain of right links, in increasing order,
    between its first and its last lines; and from the offset of an interval, the
    simulator reads its records in order. The processes are queued in the order
    in which they appear, which is that of their positions. -/
theorem firstPass_indexes (tr : Trace) (slot : ℕ → ℕ) :
    ∃ ps, firstPass slot tr.text = .ok ps ∧
      (∀ k, 1 ≤ k → k ≤ tr.length → ∃! i : ProcId × Interval, i.1 ∈ ps.pq .RUNNABLE ∧
        i.2 ∈ (ps.procs i.1).lineIntervals.intervals ∧ i.2.low ≤ k ∧ k ≤ i.2.high) ∧
      (∀ p ∈ ps.pq .RUNNABLE,
        (ps.procs p).lineIntervals ≠ .null ∧ (ps.procs p).lineIntervals.RightOnly ∧
        (ps.procs p).lineIntervals.intervals.Pairwise (fun i j => i.high < j.low) ∧
        (∀ i ∈ (ps.procs p).lineIntervals.intervals.head?, (ps.procs p).firstline = i.low) ∧
        (∀ i ∈ (ps.procs p).lineIntervals.intervals.getLast?, (ps.procs p).lastline = i.high) ∧
        ∀ i ∈ (ps.procs p).lineIntervals.intervals,
          MaximalRun tr.pid i.low i.high ∧ i.high ≤ tr.length ∧
          pidKey (tr.pid i.low) = pidKey (ps.procs p).pid ∧
          readRecords tr.text i.fposStart (i.high + 1 - i.low) =
            i.lines.map fun k => (tr.pid k, tr.vpn k)) ∧
      (ps.pq .RUNNABLE).Nodup ∧
      (ps.pq .RUNNABLE).Pairwise (fun p q => (ps.procs p).firstline < (ps.procs q).firstline ∧
        (ps.procs p).currentPos < (ps.procs q).currentPos) ∧
      ps.pq .BLOCKED = [] ∧ ps.pq .FINISHED = [] := by
  obtain ⟨ps, hok, hi⟩ := tr.exists_firstPass slot
  have hlt {p : ProcId} : p ∈ ps.pq .RUNNABLE ↔ p < ps.nextProc := by
    rw [hi.runnable, List.mem_range]
  refine ⟨ps, hok, fun k h1 hk => ?_, fun p hp => ?_, hi.runnable ▸ List.nodup_range, ?_,
    hi.blocked, hi.finished⟩
  · -- Every line is in one interval of one process.
    obtain ⟨p, hp, i, hip, hik⟩ := hi.cover h1 hk
    refine ⟨(p, i), ⟨hlt.2 hp, hip, hik⟩, fun ⟨q, j⟩ ⟨hq, hjq, hjk⟩ => ?_⟩
    obtain ⟨rfl, rfl⟩ := hi.unique hp (hlt.1 hq) hip hjq hik hjk
    rfl
  · have hp := hlt.1 hp
    have hf := hi.fresh hp
    refine ⟨hf.ne_null, hf.chain.rightOnly, hf.chain.increasing, fun i hhead => ?_, hf.lastline,
      fun i him => ?_⟩
    · rw [IntervalNode.intervals_eq hf.ne_null, List.head?_cons] at hhead
      rw [hf.firstline, ← Option.some.inj hhead]
    · -- The offset of an interval is that of its first line, from which reading goes on.
      have hat := (hi.indexes hp i him).at_low
      obtain ⟨hrun, hle, -, hkey⟩ := hi.indexes hp i him
      have hlh := hrun.le
      exact ⟨hrun, hle, hkey, hat.readRecords hrun.one_le (by omega)⟩
  · -- Processes are numbered in the order of their first lines, and start there.
    rw [hi.runnable]
    refine List.pairwise_lt_range.imp_of_mem fun {p q} _ hq hpq => ?_
    have hq := List.mem_range.1 hq
    have hp := hpq.trans hq
    have hfirst := hi.order hpq hq
    have hone := (hi.firstline_le hp).1
    have hle := (hi.firstline_le hq).2
    refine ⟨hfirst, ?_⟩
    rw [hi.currentPos_eq hp, hi.currentPos_eq hq]
    exact Trace.lineStart_lt (by omega) (by omega)

end Pfsim
