import Pfsim.Process.WellFormed
import Pfsim.TraceParser

/-!
# The index of a trace file

What the first pass makes of a trace file, whatever its text: the processes
index the lines of the file (`Indexed`). The intervals of all processes are the
maximal runs of consecutive lines with the same process number, and every line
is in one of them, in the process with the key of its number.

* `MaximalRun.eq_of_mem`: maximal runs which meet are the same;
* `Indexed.record`: the effect of closing a run;
* `firstPass_indexed`: the first pass, if it ends, indexes the lines it counted.
-/

namespace Pfsim

/-! ## Maximal runs -/

/-- From `low` to `high`, the function `f` is constant, and not further. -/
structure MaximalRun {α : Type*} (f : ℕ → α) (low high : ℕ) : Prop where
  one_le : 1 ≤ low
  le : low ≤ high
  same : ∀ k, low ≤ k → k ≤ high → f k = f low
  left : f (low - 1) ≠ f low
  right : f (high + 1) ≠ f high

namespace MaximalRun

variable {α : Type*} {f : ℕ → α} {low high low' high' k : ℕ}

theorem low_le (h : MaximalRun f low high) (h' : MaximalRun f low' high') (hk : low ≤ k)
    (hk' : low' ≤ k) (hkh : k ≤ high) (hkh' : k ≤ high') : low' ≤ low := by
  by_contra hlt
  have h1 := h.one_le
  -- Else the line before `low'` would be in the first run.
  exact h'.left ((h.same _ (by omega) (by omega)).trans
    ((h.same k hk hkh).symm.trans (h'.same k hk' hkh')))

theorem high_le (h : MaximalRun f low high) (h' : MaximalRun f low' high') (hk : low ≤ k)
    (hk' : low' ≤ k) (hkh : k ≤ high) (hkh' : k ≤ high') : high ≤ high' := by
  by_contra hlt
  have hle := h'.le
  refine h'.right (((h.same _ (by omega) (by omega)).trans
    ((h.same k hk hkh).symm.trans (h'.same k hk' hkh'))).trans ?_)
  exact (h'.same _ hle le_rfl).symm

/-- Maximal runs which meet are the same. -/
theorem eq_of_mem (h : MaximalRun f low high) (h' : MaximalRun f low' high') (hk : low ≤ k)
    (hk' : low' ≤ k) (hkh : k ≤ high) (hkh' : k ≤ high') : low = low' ∧ high = high' :=
  ⟨le_antisymm (h'.low_le h hk' hk hkh' hkh) (h.low_le h' hk hk' hkh hkh'),
    le_antisymm (h.high_le h' hk hk' hkh hkh') (h'.high_le h hk' hk hkh' hkh)⟩

end MaximalRun

/-! ## Processes before the simulation -/

/-- A process which has not run yet, and is to start at the first of its
    intervals. -/
structure Process.Fresh (p : Process) : Prop where
  status : p.status = .RUNNABLE
  waitTime : p.waitTime = 0
  waitingOnPage : p.waitingOnPage = none
  pageTable : p.pageTable = []
  chain : p.lineIntervals.Chain
  ne_null : p.lineIntervals ≠ .null
  currInterval : p.currInterval = p.lineIntervals
  currentline : p.currentline = p.firstline
  firstline : p.firstline = p.lineIntervals.low
  lastline : ∀ i ∈ p.lineIntervals.intervals.getLast?, p.lastline = i.high
  currentPos : p.currentPos = p.lineIntervals.getFpos

theorem Process.Fresh.placed {p : Process} (h : p.Fresh) : p.Placed where
  chain := h.currInterval ▸ h.chain
  ne_null := h.currInterval ▸ h.ne_null
  low_le := by rw [h.currInterval, h.currentline, h.firstline]
  le_high := by
    rw [h.currInterval, h.currentline, h.firstline]
    exact h.chain.low_le_high h.ne_null
  lastline := h.currInterval ▸ h.lastline
  suffix := h.currInterval ▸ List.suffix_rfl

/-- It has all its lines left to run. -/
theorem Process.Fresh.linesLeft {p : Process} (h : p.Fresh) :
    p.linesLeft = p.lineIntervals.lines := by
  rw [Process.linesLeft, h.currInterval, h.currentline, h.firstline,
    IntervalNode.lines_eq h.ne_null]

/-- An interval of a process: a maximal run of lines up to `n`, with the offset
    it starts at, in the process of its key. -/
structure Process.Indexes (pid start : ℕ → ℕ) (n : ℕ) (p : Process) (i : Interval) : Prop where
  run : MaximalRun pid i.low i.high
  le : i.high ≤ n
  fposStart : i.fposStart = start (i.low - 1)
  key : pidKey (pid i.low) = pidKey p.pid

/-- It stays so when more lines are read. -/
theorem Process.Indexes.mono {pid start : ℕ → ℕ} {n m : ℕ} {p p' : Process} {i : Interval}
    (h : p.Indexes pid start n i) (hle : n ≤ m) (hpid : p'.pid = p.pid) :
    p'.Indexes pid start m i :=
  ⟨h.run, h.le.trans hle, h.fposStart, by rw [hpid]; exact h.key⟩

/-- The process with the run `i` merged with its previous ones. -/
def Process.merged (p : Process) (i : Interval) : Process :=
  { p with
    lastline := if p.lastline < i.high then i.high else p.lastline
    lineIntervals := p.lineIntervals.insert (.ofInterval i)
    currInterval := p.lineIntervals.insert (.ofInterval i) }

/-- The processes index the lines up to `n`, the line `k` being of the process
    number `pid k` and read at the offset `start (k - 1)`. -/
structure Indexed (pid start : ℕ → ℕ) (n : ℕ) (ps : Processes) : Prop where
  runnable : ps.pq .RUNNABLE = List.range ps.nextProc
  blocked : ps.pq .BLOCKED = []
  finished : ps.pq .FINISHED = []
  live : ∀ p, ps.live p = decide (p < ps.nextProc)
  fresh : ∀ {p}, p < ps.nextProc → (ps.procs p).Fresh
  indexes : ∀ {p}, p < ps.nextProc → ∀ i ∈ (ps.procs p).lineIntervals.intervals,
    (ps.procs p).Indexes pid start n i
  cover : ∀ {k}, 1 ≤ k → k ≤ n → ∃ p < ps.nextProc,
    ∃ i ∈ (ps.procs p).lineIntervals.intervals, i.low ≤ k ∧ k ≤ i.high
  key_inj : ∀ {p q}, p < ps.nextProc → q < ps.nextProc →
    pidKey (ps.procs p).pid = pidKey (ps.procs q).pid → p = q
  pid_eq : ∀ {p}, p < ps.nextProc → (ps.procs p).pid = pid (ps.procs p).firstline
  order : ∀ {p q}, p < q → q < ps.nextProc → (ps.procs p).firstline < (ps.procs q).firstline

namespace Indexed

variable {pid start : ℕ → ℕ} {n : ℕ} {ps : Processes} {p : ProcId}

theorem init (pid start : ℕ → ℕ) : Indexed pid start 0 .init where
  runnable := rfl
  blocked := rfl
  finished := rfl
  live p := rfl
  fresh h := nomatch h
  indexes h := nomatch h
  cover h h' := by omega
  key_inj h := nomatch h
  pid_eq h := nomatch h
  order _ h := nomatch h

/-- The first interval of a process. -/
theorem first_mem (h : Indexed pid start n ps) (hp : p < ps.nextProc) :
    ⟨(ps.procs p).firstline, (ps.procs p).lineIntervals.high, (ps.procs p).currentPos⟩ ∈
      (ps.procs p).lineIntervals.intervals := by
  have hf := h.fresh hp
  rw [hf.firstline, hf.currentPos, IntervalNode.intervals_eq hf.ne_null]
  exact List.mem_cons_self

theorem firstline_le (h : Indexed pid start n ps) (hp : p < ps.nextProc) :
    1 ≤ (ps.procs p).firstline ∧ (ps.procs p).firstline ≤ n := by
  have hi := h.indexes hp _ (h.first_mem hp)
  exact ⟨hi.run.one_le, hi.run.le.trans hi.le⟩

theorem currentPos_eq (h : Indexed pid start n ps) (hp : p < ps.nextProc) :
    (ps.procs p).currentPos = start ((ps.procs p).firstline - 1) :=
  (h.indexes hp _ (h.first_mem hp)).fposStart

/-- Every line is in one interval of one process only. -/
theorem unique (h : Indexed pid start n ps) {q : ProcId} (hp : p < ps.nextProc)
    (hq : q < ps.nextProc) {i j : Interval} (hi : i ∈ (ps.procs p).lineIntervals.intervals)
    (hj : j ∈ (ps.procs q).lineIntervals.intervals) {k : ℕ} (hik : i.low ≤ k ∧ k ≤ i.high)
    (hjk : j.low ≤ k ∧ k ≤ j.high) : p = q ∧ i = j := by
  have hpi := h.indexes hp i hi
  have hqj := h.indexes hq j hj
  obtain ⟨hlow, hhigh⟩ := hpi.run.eq_of_mem hqj.run hik.1 hjk.1 hik.2 hjk.2
  refine ⟨h.key_inj hp hq ?_, ?_⟩
  · rw [← hpi.key, ← hqj.key, hlow]
  · obtain ⟨ilow, ihigh, ifpos⟩ := i
    obtain ⟨jlow, jhigh, jfpos⟩ := j
    obtain rfl : ilow = jlow := hlow
    obtain rfl : ihigh = jhigh := hhigh
    obtain rfl : ifpos = jfpos := hpi.fposStart.trans hqj.fposStart.symm
    rfl

/-- The first process is that of the first line. -/
theorem firstline_zero (h : Indexed pid start n ps) (h0 : 0 < ps.nextProc) :
    (ps.procs 0).firstline = 1 := by
  have hle := h.firstline_le h0
  obtain ⟨q, hq, i, hi, hlow, -⟩ := h.cover le_rfl (hle.1.trans hle.2)
  have hf := h.fresh hq
  -- The first interval of a process is the lowest one.
  have hfirst : (ps.procs q).firstline ≤ i.low := by
    have hchain := hf.chain
    have hinc := hchain.increasing
    rw [IntervalNode.intervals_eq hf.ne_null] at hi hinc
    rw [hf.firstline]
    rcases List.mem_cons.1 hi with rfl | hi
    · exact le_rfl
    · exact ((hchain.low_le_high hf.ne_null).trans_lt ((List.pairwise_cons.1 hinc).1 i hi)).le
  rcases Nat.eq_zero_or_pos q with rfl | hpos
  · omega
  · have := h.order hpos hq
    omega

/-- The lines of a process are those of its key, in order. -/
theorem lines_eq (h : Indexed pid start n ps) (hp : p < ps.nextProc) :
    (ps.procs p).lineIntervals.lines =
      (List.range' 1 n).filter fun k => pidKey (pid k) = pidKey (ps.procs p).pid := by
  have hrange : (List.range' 1 n).Pairwise (· < ·) := List.pairwise_lt_range'
  refine (h.fresh hp).chain.lines_increasing.eq_of_mem_iff (hrange.filter _) fun {k} => ?_
  rw [IntervalNode.mem_lines, List.mem_filter, List.mem_range'_1, decide_eq_true_eq]
  constructor
  · rintro ⟨i, hi, hlow, hhigh⟩
    obtain ⟨hrun, hle, -, hkey⟩ := h.indexes hp i hi
    have := hrun.one_le
    exact ⟨by omega, by rw [hrun.same k hlow hhigh, hkey]⟩
  · rintro ⟨hk, hkey⟩
    obtain ⟨q, hq, j, hj, hjk⟩ := h.cover hk.1 (by omega)
    obtain ⟨hrun, -, -, hkey'⟩ := h.indexes hq j hj
    obtain rfl : q = p := h.key_inj hq hp (by rw [← hkey', ← hkey, hrun.same k hjk.1 hjk.2])
    exact ⟨j, hj, hjk⟩

/-- All processes together have the lines up to `n`, each once. -/
theorem sum_length_lines (h : Indexed pid start n ps) :
    ∑ p ∈ Finset.range ps.nextProc, (ps.procs p).lineIntervals.lines.length = n := by
  have hcard : ∀ p ∈ Finset.range ps.nextProc, (ps.procs p).lineIntervals.lines.length =
      ((ps.procs p).lineIntervals.lines.toFinset).card := fun p hp => by
    have hchain := (h.fresh (Finset.mem_range.1 hp)).chain
    rw [List.toFinset_card_of_nodup (hchain.lines_increasing.imp fun h => h.ne)]
  have hunion : (Finset.range ps.nextProc).biUnion
      (fun p => (ps.procs p).lineIntervals.lines.toFinset) = Finset.Icc 1 n := by
    ext k
    simp only [Finset.mem_biUnion, Finset.mem_range, List.mem_toFinset, Finset.mem_Icc,
      IntervalNode.mem_lines]
    constructor
    · rintro ⟨p, hp, i, hi, hlow, hhigh⟩
      have hip := h.indexes hp i hi
      exact ⟨hip.run.one_le.trans hlow, hhigh.trans hip.le⟩
    · rintro ⟨h1, hk⟩
      exact h.cover h1 hk
  rw [Finset.sum_congr rfl hcard, ← Finset.card_biUnion, hunion, Nat.card_Icc, Nat.add_sub_cancel]
  refine fun p hp q hq hpq => Finset.disjoint_left.2 fun k hk hk' => hpq ?_
  rw [List.mem_toFinset, IntervalNode.mem_lines] at hk hk'
  obtain ⟨i, hi, hik⟩ := hk
  obtain ⟨j, hj, hjk⟩ := hk'
  exact (h.unique (Finset.mem_range.1 hp) (Finset.mem_range.1 hq) hi hj hik hjk).1

/-! ### Closing a run -/

section Close

variable {i : Interval}

/-- The lines of the intervals have been read before those of the run `i`. -/
theorem high_lt (h : Indexed pid start n ps) (hp : p < ps.nextProc) (hlow : i.low = n + 1)
    {j : Interval} (hj : j ∈ (ps.procs p).lineIntervals.intervals) : j.high < i.low := by
  rw [hlow]
  exact Nat.lt_succ_of_le (h.indexes hp j hj).le

/-- The interval `i` added to the process `p`, which was fresh. -/
theorem fresh_merged {p : Process} (h : p.Fresh) (hle : i.low ≤ i.high)
    (hi : ∀ j ∈ p.lineIntervals.intervals, j.high < i.low) : (p.merged i).Fresh := by
  obtain ⟨hchain, hint⟩ := h.chain.insert hle hi
  have hold := IntervalNode.intervals_eq h.ne_null
  have hne : p.lineIntervals.insert (.ofInterval i) ≠ .null := fun e => by
    simp [e, IntervalNode.intervals] at hint
  -- The first interval is the same.
  have hhead := IntervalNode.intervals_eq hne
  rw [hint, hold, List.cons_append] at hhead
  obtain ⟨hlow, -, hfpos⟩ := Interval.mk.inj (List.cons.inj hhead).1
  refine ⟨h.status, h.waitTime, h.waitingOnPage, h.pageTable, hchain, hne, rfl, h.currentline,
    h.firstline.trans hlow, ?_, h.currentPos.trans hfpos⟩
  intro j hj
  obtain rfl : i = j := by simpa [Process.merged, hint] using hj
  obtain ⟨j, hj⟩ := Option.ne_none_iff_exists'.1 (mt List.getLast?_eq_none_iff.1
    (mt IntervalNode.intervals_eq_nil_iff.1 h.ne_null))
  have := hi j (List.mem_of_getLast? hj)
  rw [← h.lastline j hj] at this
  exact if_pos (this.trans_le hle)

/-- A line up to the end of the interval `i` is in an interval there was, or else in `i`. -/
theorem cover_succ (h : Indexed pid start n ps) (ps' : Processes) (hlow : i.low = n + 1)
    (hold : ∀ q < ps.nextProc, q < ps'.nextProc ∧ ∀ j ∈ (ps.procs q).lineIntervals.intervals,
      j ∈ (ps'.procs q).lineIntervals.intervals)
    (hp : p < ps'.nextProc) (hi : i ∈ (ps'.procs p).lineIntervals.intervals) {k : ℕ} (h1 : 1 ≤ k)
    (hk : k ≤ i.high) : ∃ q < ps'.nextProc, ∃ j ∈ (ps'.procs q).lineIntervals.intervals,
      j.low ≤ k ∧ k ≤ j.high := by
  by_cases hkn : k ≤ n
  · obtain ⟨q, hq, j, hj, hjk⟩ := h.cover h1 hkn
    obtain ⟨hq', hsub⟩ := hold q hq
    exact ⟨q, hq', j, hsub j hj, hjk⟩
  · exact ⟨p, hp, i, hi, by omega, hk⟩

/-! Merging changes the intervals of a process, and nothing else that matters here. -/

theorem modify_merged_pid (p q : ProcId) :
    ((ps.modify p (·.merged i)).procs q).pid = (ps.procs q).pid := by
  rw [Processes.modify_procs]
  split
  · next e => rw [e]; rfl
  · rfl

theorem modify_merged_firstline (p q : ProcId) :
    ((ps.modify p (·.merged i)).procs q).firstline = (ps.procs q).firstline := by
  rw [Processes.modify_procs]
  split
  · next e => rw [e]; rfl
  · rfl

theorem mem_modify_merged (h : Indexed pid start n ps) (hp : p < ps.nextProc)
    (hlow : i.low = n + 1) (hle : i.low ≤ i.high) {q : ProcId} {j : Interval} :
    j ∈ ((ps.modify p (·.merged i)).procs q).lineIntervals.intervals ↔
      j ∈ (ps.procs q).lineIntervals.intervals ∨ q = p ∧ j = i := by
  have hint := ((h.fresh hp).chain.insert hle fun j hj => (h.high_lt hp hlow hj)).2
  rw [Processes.modify_procs]
  split
  · next e => simp [Process.merged, hint, e]
  · next e => simp [e]

/-- A run of a process there already is merged with its previous ones. -/
theorem merge (h : Indexed pid start n ps) (hp : p < ps.nextProc) (hlow : i.low = n + 1)
    (hi : (ps.procs p).Indexes pid start i.high i) :
    Indexed pid start i.high (ps.modify p (·.merged i)) := by
  have hle := hi.run.le
  have hn : n ≤ i.high := by omega
  refine ⟨h.runnable, h.blocked, h.finished, h.live, fun {q} hq => ?_, fun {q} hq j hj => ?_,
    fun h1 hk => ?_, fun {q r} hq hr => ?_, fun {q} hq => ?_, fun {q r} hqr hr => ?_⟩
  · rw [Processes.modify_procs]
    split
    · exact fresh_merged (h.fresh hp) hle fun j hj => h.high_lt hp hlow hj
    · exact h.fresh hq
  · rcases (h.mem_modify_merged hp hlow hle).1 hj with hj | ⟨rfl, rfl⟩
    · exact (h.indexes hq j hj).mono hn (modify_merged_pid p q)
    · exact hi.mono le_rfl (modify_merged_pid q q)
  · exact h.cover_succ (ps.modify p (·.merged i)) hlow
      (fun q hq => ⟨hq, fun j hj => (h.mem_modify_merged hp hlow hle).2 (.inl hj)⟩) hp
      ((h.mem_modify_merged hp hlow hle).2 (.inr ⟨rfl, rfl⟩)) h1 hk
  · rw [modify_merged_pid, modify_merged_pid]
    exact h.key_inj hq hr
  · rw [modify_merged_pid, modify_merged_firstline]
    exact h.pid_eq hq
  · rw [modify_merged_firstline, modify_merged_firstline]
    exact h.order hqr hr

/-! A new process leaves the others alone. -/

section New

variable {m first last : ℕ} {t : IntervalNode} {q r : ProcId}

theorem lt_initProcess : q < (ps.initProcess m first last t).1.nextProc ↔
    q < ps.nextProc ∨ q = ps.nextProc := Nat.lt_succ_iff_lt_or_eq

theorem initProcess_of_lt (hq : q < ps.nextProc) :
    (ps.initProcess m first last t).1.procs q = ps.procs q := Function.update_of_ne hq.ne _ _

theorem initProcess_self : (ps.initProcess m first last t).1.procs ps.nextProc =
    { pid := m, status := .RUNNABLE, firstline := first, currentline := first, lastline := last
      currentPos := t.getFpos, currInterval := t, lineIntervals := t
      waitTime := 0, waitingOnPage := none, pageTable := [] } := Function.update_self ..

/-- The new process does not have the key of another one. -/
theorem key_inj_initProcess (h : Indexed pid start n ps)
    (hnew : ∀ p < ps.nextProc, pidKey (ps.procs p).pid ≠ pidKey m)
    (hq : q < (ps.initProcess m first last t).1.nextProc)
    (hr : r < (ps.initProcess m first last t).1.nextProc)
    (he : pidKey ((ps.initProcess m first last t).1.procs q).pid =
      pidKey ((ps.initProcess m first last t).1.procs r).pid) : q = r := by
  rcases lt_initProcess.1 hq with hq | rfl <;> rcases lt_initProcess.1 hr with hr | rfl
  · rw [initProcess_of_lt hq, initProcess_of_lt hr] at he
    exact h.key_inj hq hr he
  · rw [initProcess_of_lt hq, initProcess_self] at he
    exact absurd he (hnew q hq)
  · rw [initProcess_of_lt hr, initProcess_self] at he
    exact absurd he.symm (hnew r hr)
  · rfl

/-- Its first line is after theirs, which have all been read. -/
theorem order_initProcess (h : Indexed pid start n ps) (hfirst : n < first) (hqr : q < r)
    (hr : r < (ps.initProcess m first last t).1.nextProc) :
    ((ps.initProcess m first last t).1.procs q).firstline <
      ((ps.initProcess m first last t).1.procs r).firstline := by
  have hq : q < ps.nextProc := hqr.trans_le (Nat.le_of_lt_succ hr)
  rcases lt_initProcess.1 hr with hr | rfl
  · rw [initProcess_of_lt hq, initProcess_of_lt hr]
    exact h.order hqr hr
  · rw [initProcess_of_lt hq, initProcess_self]
    exact (h.firstline_le hq).2.trans_lt hfirst

theorem live_initProcess (h : Indexed pid start n ps) (q : ProcId) :
    (ps.initProcess m first last t).1.live q =
      decide (q < (ps.initProcess m first last t).1.nextProc) := by
  rw [show decide (q < (ps.initProcess m first last t).1.nextProc) =
    decide (q < ps.nextProc ∨ q = ps.nextProc) from decide_eq_decide.2 lt_initProcess]
  by_cases hq : q = ps.nextProc <;> simp [Processes.initProcess, hq, h.live]

end New

/-- A run of a process met for the first time. -/
theorem initProcess (h : Indexed pid start n ps) (hlow : i.low = n + 1)
    (hrun : MaximalRun pid i.low i.high) (hpos : i.fposStart = start (i.low - 1))
    (hnew : ∀ p < ps.nextProc, pidKey (ps.procs p).pid ≠ pidKey (pid i.low)) :
    Indexed pid start i.high (ps.initProcess (pid i.low) i.low i.high (.ofInterval i)).1 := by
  have hle := hrun.le
  have hn : n ≤ i.high := by omega
  refine ⟨?_, h.blocked, h.finished, h.live_initProcess, fun {q} hq => ?_, fun {q} hq j hj => ?_,
    fun h1 hk => ?_, h.key_inj_initProcess hnew, fun {q} hq => ?_,
    h.order_initProcess (by omega)⟩
  -- It comes last in the queue.
  · have hrange : List.range (ps.nextProc + 1) = ps.pq .RUNNABLE ++ [ps.nextProc] := by
      rw [List.range_succ, ← h.runnable]
    exact hrange.symm
  · rcases lt_initProcess.1 hq with hq | rfl
    · exact initProcess_of_lt hq ▸ h.fresh hq
    · rw [initProcess_self]
      have hchain := IntervalNode.chain_ofInterval hle
      exact ⟨rfl, rfl, rfl, rfl, hchain, nofun, rfl, rfl, rfl, by simp, rfl⟩
  · rcases lt_initProcess.1 hq with hq | rfl
    · rw [initProcess_of_lt hq] at hj ⊢
      exact (h.indexes hq j hj).mono hn rfl
    · rw [initProcess_self] at hj ⊢
      obtain rfl : j = i := by simpa using hj
      exact ⟨hrun, le_rfl, hpos, rfl⟩
  -- The lines up to the end of the run are those up to its beginning, and its own.
  · refine h.cover_succ _ hlow (fun q hq => ⟨lt_initProcess.2 (.inl hq), fun j hj => ?_⟩)
      (lt_initProcess.2 (.inr rfl)) (by simp [initProcess_self]) h1 hk
    rwa [initProcess_of_lt hq]
  · rcases lt_initProcess.1 hq with hq | rfl
    · rw [initProcess_of_lt hq]
      exact h.pid_eq hq
    · rw [initProcess_self]

end Close

/-- What the simulation starts with is well formed. -/
theorem wellFormed (h : Indexed pid start n ps) (hpid : ∀ k, 1 ≤ k → k ≤ n → pid k ≠ 0)
    (hstart : ∀ j k, j ≤ k → k ≤ n → start j ≤ start k) : ps.WellFormed where
  mem_pq {p st} := by
    have hst : p < ps.nextProc → (ps.procs p).status = .RUNNABLE := fun hp => (h.fresh hp).status
    cases st with
    | RUNNABLE =>
      rw [h.runnable, List.mem_range]
      exact ⟨fun hp => ⟨hp, hst hp⟩, And.left⟩
    | BLOCKED =>
      rw [h.blocked]
      exact ⟨nofun, fun ⟨hp, e⟩ => by simp [hst hp] at e⟩
    | FINISHED =>
      rw [h.finished]
      exact ⟨nofun, fun ⟨hp, e⟩ => by simp [hst hp] at e⟩
  nodup st := by
    cases st with
    | RUNNABLE => exact h.runnable ▸ List.nodup_range
    | BLOCKED => exact h.blocked ▸ List.nodup_nil
    | FINISHED => exact h.finished ▸ List.nodup_nil
  sorted := by
    -- Each process is at its first line, and the processes are in the order of these.
    rw [h.runnable]
    refine List.pairwise_lt_range.imp_of_mem fun {p q} _ hq hpq => ?_
    have hq := List.mem_range.1 hq
    have hp := hpq.trans hq
    rw [h.currentPos_eq hp, h.currentPos_eq hq]
    have hlt := h.order hpq hq
    have := (h.firstline_le hq).2
    exact hstart _ _ (by omega) (by omega)
  pid_ne_zero hp := by
    rw [h.pid_eq hp]
    exact hpid _ (h.firstline_le hp).1 (h.firstline_le hp).2
  pid_inj hp hq e := h.key_inj hp hq (congrArg pidKey e)
  placed hp := (h.fresh hp).placed

end Indexed

/-! ## The first pass -/

section Scan

variable {text : List Char} {slot : ℕ → ℕ} {k n : ℕ}

variable (text) in
/-- The offset at which the first pass reads the line `k + 1`. -/
def lineStart : ℕ → ℕ
  | 0 => 0
  | k + 1 => text.length - (fscanf firstPassFormat (text.drop (lineStart k))).rest.length

variable (text) in
/-- What the first pass reads at the line `k + 1`. -/
def scanLine (k : ℕ) : Scanned := fscanf firstPassFormat (text.drop (lineStart text k))

variable (text) in
/-- The process number at the line `k`, or `0` if there is none. -/
def linePid : ℕ → ℕ
  | 0 => 0
  | k + 1 => (scanLine text k).values.headD 0

/-- The result of `fscanf` is the number of values assigned, if there is any. -/
theorem fscanfFrom_result (f : List Directive) (cs : List Char) (vs : List ℕ) :
    (fscanfFrom f cs vs).result = (fscanfFrom f cs vs).values.length ∨
      (fscanfFrom f cs vs).result = EOF ∧ (fscanfFrom f cs vs).values = [] := by
  induction f generalizing cs vs with
  | nil => exact .inl rfl
  | cons d f ih =>
    cases d with
    | space => exact ih _ vs
    | lu =>
      rw [fscanfFrom]
      split
      · exact ih _ _
      · exact .inl rfl
      · by_cases hvs : vs = []
        · exact .inr (by simp [hvs])
        · exact .inl (by simp [hvs])

/-- No value is assigned if and only if the result is not positive. -/
theorem fscanf_values_eq_nil_iff {f : List Directive} {cs : List Char} :
    (fscanf f cs).values = [] ↔ (fscanf f cs).result ≤ 0 := by
  rcases fscanfFrom_result f cs [] with h | ⟨h, hv⟩
  · rw [fscanf, h]
    simp [List.length_eq_zero_iff]
  · rw [fscanf, h, hv]
    simp [EOF]

theorem scanLine_of_pos (h : 0 < (scanLine text k).result) (d : ℕ) :
    (scanLine text k).values.headD d = linePid text (k + 1) := by
  have hne : (scanLine text k).values ≠ [] := mt fscanf_values_eq_nil_iff.1 (not_le.2 h)
  obtain ⟨v, vs, hv⟩ := List.exists_cons_of_ne_nil hne
  rw [linePid, hv]
  rfl

theorem scanLine_of_nonpos (h : (scanLine text k).result ≤ 0) (d : ℕ) :
    (scanLine text k).values.headD d = d := by
  have hnil : (scanLine text k).values = [] := fscanf_values_eq_nil_iff.2 h
  rw [hnil]
  rfl

theorem linePid_of_nonpos (h : (scanLine text k).result ≤ 0) : linePid text (k + 1) = 0 :=
  scanLine_of_nonpos h 0

variable (text) in
theorem lineStart_le (k : ℕ) : lineStart text k ≤ text.length := by
  cases k with
  | zero => exact Nat.zero_le _
  | succ k => exact Nat.sub_le ..

theorem lineStart_le_succ (k : ℕ) : lineStart text k ≤ lineStart text (k + 1) := by
  have hs := (fscanf_suffix firstPassFormat (text.drop (lineStart text k))).length_le
  rw [List.length_drop] at hs
  have := lineStart_le text k
  rw [lineStart]
  omega

/-- Every record is past the one before it. -/
theorem lineStart_lt_succ (h : 0 < (scanLine text k).result) :
    lineStart text k < lineStart text (k + 1) := by
  have hs := fscanf_length_lt h
  rw [List.length_drop] at hs
  have := lineStart_le text k
  rw [lineStart, show fscanf firstPassFormat (text.drop (lineStart text k)) =
    fscanf (.lu :: [.space, .lu]) (text.drop (lineStart text k)) from rfl]
  omega

theorem lineStart_mono {j k : ℕ} (h : j ≤ k) : lineStart text j ≤ lineStart text k :=
  monotone_nat_of_le_succ lineStart_le_succ h

/-- The first pass has read the lines up to `n`, all of them records, and
    closed the runs before the one it is in. -/
structure FirstPass.Scanned (text : List Char) (n : ℕ) (f : FirstPass) : Prop where
  cursor : f.cursor = lineStart text n
  currLineNumber : f.currLineNumber = n + 1
  pid : f.pid = linePid text n
  records : ∀ k, 1 ≤ k → k ≤ n → linePid text k ≠ 0 ∧ 0 < (scanLine text (k - 1)).result
  one_le : 1 ≤ f.startLineNumber
  le : f.startLineNumber ≤ max n 1
  startFpos : f.startFpos = lineStart text (f.startLineNumber - 1)
  same : ∀ k, f.startLineNumber ≤ k → k ≤ n → linePid text k = linePid text f.startLineNumber
  left : 1 ≤ n → linePid text (f.startLineNumber - 1) ≠ linePid text f.startLineNumber
  index : Indexed (linePid text) (lineStart text) (f.startLineNumber - 1) f.ps
  tree : ∀ key p, f.searchTree.lookup key = some p ↔
    p < f.ps.nextProc ∧ pidKey (f.ps.procs p).pid = key

@[simp] theorem FirstPass.record_cursor {f : FirstPass} : f.record.cursor = f.cursor := by
  rw [FirstPass.record]
  split <;> rfl

@[simp] theorem FirstPass.record_currLineNumber {f : FirstPass} :
    f.record.currLineNumber = f.currLineNumber := by
  rw [FirstPass.record]
  split <;> rfl

namespace FirstPass.Scanned

variable {f f' : FirstPass} {result : ℤ}

theorem start (text : List Char) : Scanned text 0 .start where
  cursor := rfl
  currLineNumber := rfl
  pid := rfl
  records k h h' := by omega
  one_le := le_rfl
  le := le_rfl
  startFpos := rfl
  same k h h' := by simp [FirstPass.start] at h; omega
  left h := by omega
  index := .init _ _
  tree key p := by simp [FirstPass.start, Processes.init]

/-- The run just ended. -/
theorem run (h : f.Scanned text n) (hn : 1 ≤ n) (hright : linePid text (n + 1) ≠ linePid text n) :
    MaximalRun (linePid text) f.startLineNumber n ∧ f.pid = linePid text f.startLineNumber := by
  have hle : f.startLineNumber ≤ n := h.le.trans (by omega)
  exact ⟨⟨h.one_le, hle, h.same, h.left hn, hright⟩, h.pid.trans (h.same n hle le_rfl)⟩

/-- A new process in the search tree. -/
theorem lookup_concat_iff (h : f.Scanned text n) {first last : ℕ} {t : IntervalNode}
    (hk : f.searchTree.lookup (pidKey f.pid) = none) (key : ℤ) (p : ProcId) :
    (f.searchTree ++ [(pidKey f.pid, f.ps.nextProc)]).lookup key = some p ↔
      p < (f.ps.initProcess f.pid first last t).1.nextProc ∧
        pidKey ((f.ps.initProcess f.pid first last t).1.procs p).pid = key := by
  have hprocs : p < (f.ps.initProcess f.pid first last t).1.nextProc ∧
      pidKey ((f.ps.initProcess f.pid first last t).1.procs p).pid = key ↔
        f.searchTree.lookup key = some p ∨ p = f.ps.nextProc ∧ pidKey f.pid = key := by
    rw [h.tree key p, Indexed.lt_initProcess]
    by_cases hp : p = f.ps.nextProc
    · simp [hp, Indexed.initProcess_self]
    · simp +contextual [hp, Indexed.initProcess_of_lt]
  rw [hprocs, List.lookup_append]
  by_cases hkey : key = pidKey f.pid
  · simp [hkey, hk, eq_comm]
  · have hb : (key == pidKey f.pid) = false := by simpa using hkey
    rw [List.lookup_cons, hb]
    simp [Ne.symm hkey]

/-- A run closed, wherever the cursor is. -/
theorem record (h : f.Scanned text n) (hn : 1 ≤ n) (hright : linePid text (n + 1) ≠ linePid text n)
    (cursor : ℕ) :
    let f' := { f with cursor := cursor }.record
    Indexed (linePid text) (lineStart text) n f'.ps ∧
      ∀ key p, f'.searchTree.lookup key = some p ↔
        p < f'.ps.nextProc ∧ pidKey (f'.ps.procs p).pid = key := by
  obtain ⟨hrun, hpid⟩ := h.run hn hright
  have hlast : f.currLineNumber - 1 = n := by rw [h.currLineNumber, Nat.add_sub_cancel]
  set i : Interval := ⟨f.startLineNumber, n, f.startFpos⟩
  have hlow : i.low = f.startLineNumber - 1 + 1 := (Nat.sub_add_cancel h.one_le).symm
  have hnode :
      (IntervalNode.initnode f.startLineNumber (f.currLineNumber - 1)).setFpos f.startFpos =
        .ofInterval i := by rw [hlast]; rfl
  rw [FirstPass.record]
  dsimp only
  rw [hnode, hlast, compare, tfind_threeWay]
  -- The search tree tells whether the run is the first one of its key.
  cases hk : f.searchTree.lookup (pidKey f.pid) with
  | some owner =>
    obtain ⟨hlt, hkey⟩ := (h.tree _ _).1 hk
    refine ⟨h.index.merge (i := i) hlt hlow ⟨hrun, le_rfl, h.startFpos, ?_⟩, fun key p => ?_⟩
    · rw [hkey, hpid]
    · rw [h.tree key p]
      exact and_congr_right fun _ => by rw [← Indexed.modify_merged_pid (i := i) owner p]; rfl
  | none =>
    have hnew : ∀ p < f.ps.nextProc, pidKey (f.ps.procs p).pid ≠ pidKey (linePid text i.low) :=
      fun p hp e => by
        rw [← hpid] at e
        cases hk.symm.trans ((h.tree _ p).2 ⟨hp, e⟩)
    refine ⟨?_, h.lookup_concat_iff hk⟩
    have hindex := h.index.initProcess (i := i) hlow hrun h.startFpos hnew
    rwa [← hpid] at hindex

/-! ### An iteration -/

/-- A run is closed if and only if it ends at the last line read. -/
theorem closes_iff (h : f.Scanned text n) (d : ℕ) :
    f.pid ≠ 0 ∧ ((scanLine text n).values.headD d ≠ f.pid ∨ (scanLine text n).result ≤ 0) ↔
      1 ≤ n ∧ linePid text (n + 1) ≠ linePid text n := by
  have hfpid : f.pid ≠ 0 ↔ 1 ≤ n := by
    rw [h.pid]
    refine ⟨fun hne => Nat.one_le_iff_ne_zero.2 ?_, fun hn => (h.records n hn le_rfl).1⟩
    rintro rfl
    exact hne rfl
  rw [hfpid, h.pid]
  refine and_congr_right fun hn => ?_
  rcases lt_or_ge 0 (scanLine text n).result with hr | hr
  · rw [scanLine_of_pos hr, or_iff_left (not_le.2 hr)]
  · rw [linePid_of_nonpos hr]
    exact iff_of_true (.inr hr) (h.records n hn le_rfl).1.symm

theorem records_succ (h : f.Scanned text n) (hr : 0 < (scanLine text n).result)
    (hpid : linePid text (n + 1) ≠ 0) :
    ∀ k, 1 ≤ k → k ≤ n + 1 → linePid text k ≠ 0 ∧ 0 < (scanLine text (k - 1)).result := by
  intro k h1 hk
  rcases Nat.le_succ_iff.1 hk with hk | rfl
  · exact h.records k h1 hk
  · exact ⟨hpid, hr⟩

/-- The record just read starts a run. -/
theorem opened (h : f.Scanned text n) (hr : 0 < (scanLine text n).result)
    (hpid : linePid text (n + 1) ≠ 0) (hn : 1 ≤ n)
    (hright : linePid text (n + 1) ≠ linePid text n) :
    ({ { f with cursor := lineStart text (n + 1) }.record with
        startFpos := f.cursor
        startLineNumber := f.currLineNumber
        pid := linePid text (n + 1)
        currLineNumber := { f with cursor := lineStart text (n + 1) }.record.currLineNumber + 1 } :
      FirstPass).Scanned text (n + 1) := by
  obtain ⟨hindex, htree⟩ := h.record hn hright (lineStart text (n + 1))
  have hline := h.currLineNumber
  have hcursor := h.cursor
  obtain ⟨_, _, _, _, line, _, _⟩ := f
  obtain rfl : line = n + 1 := hline
  exact
    { cursor := FirstPass.record_cursor
      currLineNumber := congrArg (· + 1) FirstPass.record_currLineNumber
      pid := rfl
      records := h.records_succ hr hpid
      one_le := Nat.succ_pos n
      le := le_max_left _ _
      startFpos := hcursor
      same := fun k hk hk' => by rw [le_antisymm hk' hk]
      left := fun _ => hright.symm
      index := hindex
      tree := htree }

/-- The record just read goes on with the run, which is the first one if nothing was
    read before. -/
theorem extended (h : f.Scanned text n) (hr : 0 < (scanLine text n).result)
    (hpid : linePid text (n + 1) ≠ 0) (hsame : 1 ≤ n → linePid text (n + 1) = linePid text n) :
    ({ f with
        cursor := lineStart text (n + 1)
        pid := linePid text (n + 1)
        currLineNumber := f.currLineNumber + 1 } : FirstPass).Scanned text (n + 1) where
  cursor := rfl
  currLineNumber := congrArg (· + 1) h.currLineNumber
  pid := rfl
  records := h.records_succ hr hpid
  one_le := h.one_le
  le := h.le.trans (max_le_max_right 1 n.le_succ)
  startFpos := h.startFpos
  same k hk hk' := by
    have h1 := h.one_le
    have hle := h.le
    dsimp only at hk ⊢
    rcases Nat.le_succ_iff.1 hk' with hk' | rfl
    · exact h.same k hk hk'
    · by_cases hn : 1 ≤ n
      · rw [hsame hn]
        exact h.same n (by omega) le_rfl
      · rw [show f.startLineNumber = n + 1 by omega]
  left _ := by
    have h1 := h.one_le
    have hle := h.le
    dsimp only
    -- Before the first line there is no process number.
    by_cases hn : 1 ≤ n
    · exact h.left hn
    · rw [show f.startLineNumber = n + 1 by omega, show n + 1 - 1 = 0 by omega]
      exact hpid.symm
  index := h.index
  tree := h.tree

/-- An iteration of the loop reads a line, and closes a run if it has to. -/
theorem iteration (h : f.Scanned text n) (hok : f.iteration slot text = .ok (result, f')) :
    result = (scanLine text n).result ∧ (0 < result → f'.Scanned text (n + 1)) ∧
      (result ≤ 0 → Indexed (linePid text) (lineStart text) n f'.ps) := by
  have hscan : fscanf firstPassFormat (text.drop f.cursor) = scanLine text n := by
    rw [h.cursor]
    rfl
  rw [FirstPass.iteration, hscan] at hok
  dsimp only at hok
  split at hok
  · cases hok
  · next hgood =>
    obtain ⟨rfl, rfl⟩ := Prod.mk.inj (Except.ok.inj hok)
    have hcloses := h.closes_iff (slot f.currLineNumber)
    refine ⟨rfl, fun hr => ?_, fun hr => ?_⟩
    · -- The record read starts a run, or goes on with the one before.
      rw [scanLine_of_pos hr] at hgood hcloses ⊢
      have hpid : linePid text (n + 1) ≠ 0 := fun hz => hgood ⟨hz, hr.le⟩
      by_cases hc : 1 ≤ n ∧ linePid text (n + 1) ≠ linePid text n
      · rw [if_pos (hcloses.2 hc)]
        exact h.opened hr hpid hc.1 hc.2
      · rw [if_neg (mt hcloses.1 hc)]
        exact h.extended hr hpid fun hn => not_not.1 fun hne => hc ⟨hn, hne⟩
    · -- Nothing more is read: the last run is closed, if a line was read at all.
      by_cases hc : 1 ≤ n ∧ linePid text (n + 1) ≠ linePid text n
      · rw [if_pos (hcloses.2 hc)]
        exact (h.record hc.1 hc.2 _).1
      · rw [if_neg (mt hcloses.1 hc)]
        have hn : n = 0 := by
          by_contra hn
          refine hc ⟨Nat.one_le_iff_ne_zero.2 hn, ?_⟩
          rw [linePid_of_nonpos hr]
          exact (h.records n (Nat.one_le_iff_ne_zero.2 hn) le_rfl).1.symm
        have h1 := h.one_le
        have hle := h.le
        have hindex := h.index
        rwa [show f.startLineNumber - 1 = n by omega] at hindex

/-- The loop, from any iteration. -/
theorem loop {fuel : ℕ} (h : f.Scanned text n) (hok : f.loop slot text fuel = .ok f') :
    ∃ N, (∀ k, 1 ≤ k → k ≤ N → linePid text k ≠ 0 ∧ 0 < (scanLine text (k - 1)).result) ∧
      (scanLine text N).result ≤ 0 ∧ Indexed (linePid text) (lineStart text) N f'.ps := by
  induction fuel generalizing f n with
  | zero => cases hok
  | succ fuel ih =>
    rw [FirstPass.loop] at hok
    cases hi : f.iteration slot text with
    | error e =>
      rw [hi] at hok
      cases hok
    | ok p =>
      obtain ⟨result, f₁⟩ := p
      rw [hi, ok_bind] at hok
      obtain ⟨rfl, hpos, hneg⟩ := h.iteration hi
      dsimp only at hok
      split at hok
      · next hr => exact ih (hpos hr) hok
      · next hr =>
        obtain rfl := Except.ok.inj hok
        exact ⟨n, h.records, not_lt.1 hr, hneg (not_lt.1 hr)⟩

end FirstPass.Scanned

/-- The first pass, if it ends, indexes the lines it counted: those before the
    first one that is not a record. -/
theorem firstPass_indexed {ps : Processes} (h : firstPass slot text = .ok ps) :
    ∃ N, (∀ k, 1 ≤ k → k ≤ N → linePid text k ≠ 0 ∧ 0 < (scanLine text (k - 1)).result) ∧
      (scanLine text N).result ≤ 0 ∧ Indexed (linePid text) (lineStart text) N ps := by
  rw [firstPass] at h
  cases hl : FirstPass.start.loop slot text (text.length + 1) with
  | error e =>
    rw [hl] at h
    cases h
  | ok f =>
    rw [hl, ok_bind] at h
    obtain rfl := Except.ok.inj h
    exact (FirstPass.Scanned.start text).loop hl

end Scan

end Pfsim
