import Pfsim.Process

/-!
# Well-formed processes

Every process is in one queue, the one of its status, once, and the runnable
ones are in the order of their positions in the file. Every process has its
place in its chain of intervals (`Process.Placed`), thus lines left to run
(`Process.linesLeft`), of which the current one is the first.

* `Processes.switchStatus_eq`: what moving a process from a queue to another
  does (`Processes.moved`);
* `Processes.WellFormed.moved`: the processes remain well formed then.
-/

namespace Pfsim

namespace Process

/-- The place of a process: a line of the first interval of what is left of its
    chain. -/
structure Placed (p : Process) : Prop where
  chain : p.currInterval.Chain
  ne_null : p.currInterval ≠ .null
  low_le : p.currInterval.low ≤ p.currentline
  le_high : p.currentline ≤ p.currInterval.high
  lastline : ∀ i ∈ p.currInterval.intervals.getLast?, p.lastline = i.high
  suffix : p.currInterval.intervals <:+ p.lineIntervals.intervals

/-- The lines a process has left to run, the current one first. -/
def linesLeft (p : Process) : List ℕ :=
  List.range' p.currentline (p.currInterval.high + 1 - p.currentline) ++ p.currInterval.right.lines

/-- The process on its next line. -/
def nextLine (p : Process) : Process := { p with currentline := p.currentline + 1 }

variable {p : Process}

/-- The current interval is one of the process. -/
theorem Placed.first_mem (h : p.Placed) :
    ⟨p.currInterval.low, p.currInterval.high, p.currInterval.getFpos⟩ ∈
      p.lineIntervals.intervals := by
  refine h.suffix.subset ?_
  rw [IntervalNode.intervals_eq h.ne_null]
  exact List.mem_cons_self

/-- A process is on the last line of its interval, or before it. -/
theorem Placed.onLastLine_iff (h : p.Placed) :
    p.onLastLineInInterval = true ↔ p.hasLinesRemainingInInterval = false := by
  have := h.le_high
  simp only [onLastLineInInterval, hasLinesRemainingInInterval, beq_iff_eq,
    decide_eq_false_iff_not]
  omega

/-- It can go on to the next line, unless it is on the last one. -/
theorem Placed.nextLine (h : p.Placed) (hl : p.hasLinesRemainingInInterval = true) :
    p.nextLine.Placed := by
  have hlt : p.currentline < p.currInterval.high := by
    simpa [hasLinesRemainingInInterval] using hl
  exact { h with
    low_le := h.low_le.trans (Nat.le_succ _)
    le_high := hlt }

/-- It leaves a line behind. -/
theorem linesLeft_nextLine (hl : p.hasLinesRemainingInInterval = true) :
    p.linesLeft = p.currentline :: p.nextLine.linesLeft := by
  have hlt : p.currentline < p.currInterval.high := by
    simpa [hasLinesRemainingInInterval] using hl
  have hn : p.currInterval.high + 1 - p.currentline =
    p.currInterval.high + 1 - (p.currentline + 1) + 1 := by omega
  rw [linesLeft, hn, List.range'_succ, List.cons_append]
  rfl

/-- It can go on to the next interval, if there is one. -/
theorem Placed.jumpToNextInterval (h : p.Placed) (hi : p.hasIntervalsRemaining = true) :
    p.jumpToNextInterval.Placed := by
  have hr : p.currInterval.right ≠ .null := by simpa [hasIntervalsRemaining] using hi
  have he := IntervalNode.intervals_eq h.ne_null
  refine ⟨h.chain.right, hr, le_rfl, h.chain.right.low_le_high hr, fun i hi => h.lastline i ?_, ?_⟩
  · have hne : p.currInterval.right.intervals ≠ [] := mt IntervalNode.intervals_eq_nil_iff.1 hr
    rw [he, List.getLast?_cons_of_ne_nil hne]
    exact hi
  · refine List.IsSuffix.trans ?_ h.suffix
    rw [he]
    exact List.suffix_cons _ _

/-- It leaves the last line of its interval behind. -/
theorem linesLeft_jumpToNextInterval (hl : p.onLastLineInInterval = true)
    (hi : p.hasIntervalsRemaining = true) :
    p.linesLeft = p.currentline :: p.jumpToNextInterval.linesLeft := by
  have hlast : p.currInterval.high = p.currentline := by simpa [onLastLineInInterval] using hl
  have hr : p.currInterval.right ≠ .null := by simpa [hasIntervalsRemaining] using hi
  rw [linesLeft, hlast, IntervalNode.lines_eq hr,
    show p.currentline + 1 - p.currentline = 1 by omega]
  rfl

/-- The last line of the last interval is the only one left. -/
theorem linesLeft_last (hl : p.onLastLineInInterval = true)
    (hi : p.hasIntervalsRemaining = false) : p.linesLeft = [p.currentline] := by
  have hlast : p.currInterval.high = p.currentline := by simpa [onLastLineInInterval] using hl
  have hr : p.currInterval.right = .null := by simpa [hasIntervalsRemaining] using hi
  rw [linesLeft, hlast, hr, show p.currentline + 1 - p.currentline = 1 by omega]
  rfl

/-- On its last line, a process has no line left in the file. -/
theorem Placed.finished (h : p.Placed) (hl : p.onLastLineInInterval = true)
    (hi : p.hasIntervalsRemaining = false) : p.hasLinesRemainingInFile = false := by
  have hlast : p.currInterval.high = p.currentline := by simpa [onLastLineInInterval] using hl
  have hr : p.currInterval.right = .null := by simpa [hasIntervalsRemaining] using hi
  have hline : p.lastline = p.currInterval.high :=
    h.lastline ⟨_, _, _⟩ (by rw [IntervalNode.intervals_eq h.ne_null, hr]; rfl)
  simp [hasLinesRemainingInFile, hline, hlast]

end Process

namespace Processes

/-- The head of the queue `s1` taken off. -/
def dequeued (ps : Processes) (s1 : ProcessStatus) : Processes :=
  { ps with pq := Function.update ps.pq s1 (ps.pq s1).tail }

/-- The process `p` put in the queue `s2`. -/
def enqueued (ps : Processes) (p : ProcId) (s2 : ProcessStatus) : Processes :=
  { ps with
    pq := Function.update ps.pq s2
      (if s2 = .RUNNABLE then (ps.pq s2).orderedInsert ps.Before p else ps.pq s2 ++ [p]) }

/-- The process `p` moved from the head of the queue `s1` to the queue `s2`. -/
def moved (ps : Processes) (p : ProcId) (s1 s2 : ProcessStatus) : Processes :=
  ((ps.dequeued s1).modify p fun p => { p with status := s2 }).enqueued p s2

variable {ps : Processes} {p q : ProcId} {s1 s2 st : ProcessStatus} {ndebug : Bool}

section Fields

variable (f : Process → Process)

@[simp] theorem modify_pq : (ps.modify p f).pq = ps.pq := rfl

@[simp] theorem modify_nextProc : (ps.modify p f).nextProc = ps.nextProc := rfl

@[simp] theorem modify_self : (ps.modify p f).procs p = f (ps.procs p) :=
  Function.update_self ..

theorem modify_procs : (ps.modify p f).procs q = if q = p then f (ps.procs p) else ps.procs q :=
  Function.update_apply ..

@[simp] theorem moved_nextProc : (ps.moved p s1 s2).nextProc = ps.nextProc := rfl

@[simp] theorem free_pq : (ps.free p).pq = ps.pq := rfl

/-- A process moved has the status of its new queue. -/
theorem moved_procs : (ps.moved p s1 s2).procs q =
    if q = p then { ps.procs p with status := s2 } else ps.procs q :=
  Function.update_apply ..

end Fields

theorem moved_pq_src (hs : s1 ≠ s2) : (ps.moved p s1 s2).pq s1 = (ps.pq s1).tail := by
  simp [moved, enqueued, dequeued, hs]

theorem moved_pq_other (h1 : st ≠ s1) (h2 : st ≠ s2) : (ps.moved p s1 s2).pq st = ps.pq st := by
  simp [moved, enqueued, dequeued, h1, h2]

/-- It is at the tail of its new queue, unless this is that of the runnable processes. -/
theorem moved_pq_tail (hs : s1 ≠ s2) (h2 : s2 ≠ .RUNNABLE) :
    (ps.moved p s1 s2).pq s2 = ps.pq s2 ++ [p] := by
  simp [moved, enqueued, dequeued, hs.symm, h2]

/-- A process resumed is put in its place among the runnable ones. -/
theorem moved_pq_runnable (hs : s1 ≠ .RUNNABLE) : (ps.moved p s1 .RUNNABLE).pq .RUNNABLE =
    (ps.pq .RUNNABLE).orderedInsert (ps.moved p s1 .RUNNABLE).Before p := by
  simp only [moved, enqueued, dequeued, Function.update_self, if_true, modify_pq,
    Function.update_of_ne hs.symm]
  rfl

theorem dequeued_sublist : ((ps.dequeued s1).pq st).Sublist (ps.pq st) := by
  by_cases hs : st = s1
  · subst hs
    simpa [dequeued] using List.tail_sublist _
  · simp [dequeued, hs]

theorem moved_modify_procs {f : Process → Process} : ((ps.modify p f).moved p s1 s2).procs q =
    if q = p then { f (ps.procs p) with status := s2 } else ps.procs q := by
  rw [moved_procs, modify_self, modify_procs]
  split <;> rfl

/-- The process is put back among those left in the queues. -/
theorem moved_pq_perm {f : Process → Process} : (((ps.modify p f).moved p s1 s2).pq st).Perm
    (if st = s2 then p :: (ps.dequeued s1).pq st else (ps.dequeued s1).pq st) := by
  by_cases hs : st = s2
  · subst hs
    simp only [moved, enqueued, Function.update_self, if_true]
    split
    · exact List.perm_orderedInsert _ _ _
    · exact List.perm_append_singleton _ _
  · simp only [moved, enqueued, Function.update_of_ne hs, if_neg hs]
    exact .refl _

theorem before_iff : ps.Before p q ↔ (ps.procs p).currentPos < (ps.procs q).currentPos := .rfl

/-- The insertion in the queue is that of sorted lists, with no error if no
    process there has the same `pid`. -/
theorem enqueuePriority_eq {queue : List ProcId}
    (h : ∀ r ∈ queue, (ps.procs r).pid ≠ (ps.procs p).pid) :
    ps.enqueuePriority ndebug p queue = .ok (queue.orderedInsert ps.Before p) := by
  induction queue with
  | nil => rfl
  | cons curr queue ih =>
    rw [enqueuePriority, assert_ok (h curr (by simp)), ok_bind, List.orderedInsert_cons]
    by_cases hb : ps.Before p curr
    · rw [if_pos hb, if_pos (before_iff.1 hb)]
    · rw [if_neg hb, if_neg (mt before_iff.2 hb), ih fun r hr => h r (by simp [hr]), ok_bind]

/-- A process goes in the queue where its position in the file tells. -/
theorem sorted_orderedInsert {queue : List ProcId}
    (hs : queue.Pairwise fun p q => (ps.procs p).currentPos ≤ (ps.procs q).currentPos) :
    (queue.orderedInsert ps.Before p).Pairwise fun p q =>
      (ps.procs p).currentPos ≤ (ps.procs q).currentPos := by
  induction queue with
  | nil => simp
  | cons curr queue ih =>
    obtain ⟨hcurr, hs⟩ := List.pairwise_cons.1 hs
    rw [List.orderedInsert_cons]
    split
    · next hb =>
      have hlt := before_iff.1 hb
      refine .cons (fun r hr => ?_) (.cons hcurr hs)
      rcases List.mem_cons.1 hr with rfl | hr
      exacts [hlt.le, hlt.le.trans (hcurr r hr)]
    · next hb =>
      refine .cons (fun r hr => ?_) (ih hs)
      rcases (List.mem_orderedInsert _).1 hr with rfl | hr
      exacts [not_lt.1 (mt before_iff.2 hb), hcurr r hr]

variable (s2 ndebug) in
/-- The head of a queue goes to another one, unless an assertion fails. -/
theorem switchStatus_eq {queue : List ProcId} (hq : ps.pq s1 = p :: queue)
    (h : ∀ r ∈ (ps.dequeued s1).pq .RUNNABLE, r ≠ p ∧ (ps.procs r).pid ≠ (ps.procs p).pid) :
    ps.switchStatus ndebug s1 s2 = .ok (some p, ps.moved p s1 s2) := by
  have hd : { ps with pq := Function.update ps.pq s1 queue } = ps.dequeued s1 := by
    rw [dequeued, hq, List.tail_cons]
  rw [switchStatus, hq]
  simp only [hd, enqueue]
  split
  · next hs =>
    rw [enqueuePriority_eq, ok_bind, ok_bind, moved, enqueued, if_pos hs]
    intro r hr
    rw [modify_pq, hs] at hr
    obtain ⟨hrp, hpid⟩ := h r hr
    rw [modify_self, modify_procs, if_neg hrp]
    exact hpid
  · next hs => rw [ok_bind, moved, enqueued, if_neg hs]

/-! ## Well-formedness -/

/-- The queues hold every process once, according to its status, the runnable
    ones in the order of the file; and every process has its own `pid`, and its
    place. -/
structure WellFormed (ps : Processes) : Prop where
  mem_pq : ∀ {p st}, p ∈ ps.pq st ↔ p < ps.nextProc ∧ (ps.procs p).status = st
  nodup : ∀ st, (ps.pq st).Nodup
  sorted : (ps.pq .RUNNABLE).Pairwise fun p q =>
    (ps.procs p).currentPos ≤ (ps.procs q).currentPos
  pid_ne_zero : ∀ {p}, p < ps.nextProc → (ps.procs p).pid ≠ 0
  pid_inj : ∀ {p q}, p < ps.nextProc → q < ps.nextProc → (ps.procs p).pid = (ps.procs q).pid →
    p = q
  placed : ∀ {p}, p < ps.nextProc → (ps.procs p).Placed

namespace WellFormed

variable {queue : List ProcId}

/-- Only processes which have been made are in the queues. -/
theorem lt (h : ps.WellFormed) (hq : p ∈ ps.pq st) : p < ps.nextProc := (h.mem_pq.1 hq).1

/-- They are in the queue of their status. -/
theorem status (h : ps.WellFormed) (hq : p ∈ ps.pq st) : (ps.procs p).status = st :=
  (h.mem_pq.1 hq).2

/-- A process is in one queue only. -/
theorem disjoint (h : ps.WellFormed) (hs : s1 ≠ s2) (hq : p ∈ ps.pq s1) : p ∉ ps.pq s2 :=
  fun hq' => hs ((h.status hq).symm.trans (h.status hq'))

theorem mem_dequeued (h : ps.WellFormed) (hq : ps.pq s1 = p :: queue) :
    q ∈ (ps.dequeued s1).pq st ↔ q ∈ ps.pq st ∧ q ≠ p := by
  have hnd := h.nodup s1
  rw [hq, List.nodup_cons] at hnd
  by_cases hs : st = s1
  · subst hs
    simp only [dequeued, Function.update_self, hq, List.tail_cons, List.mem_cons]
    refine ⟨fun hm => ⟨.inr hm, fun e => hnd.1 (e ▸ hm)⟩, fun ⟨hm, hne⟩ => hm.resolve_left hne⟩
  · simp only [dequeued, Function.update_of_ne hs]
    refine ⟨fun hm => ⟨hm, fun e => ?_⟩, And.left⟩
    exact h.disjoint hs hm (e ▸ hq ▸ List.mem_cons_self)

/-- The processes of another queue have other `pid`s. -/
theorem dequeued_pid_ne (h : ps.WellFormed) (hq : ps.pq s1 = p :: queue)
    (hr : q ∈ (ps.dequeued s1).pq st) : q ≠ p ∧ (ps.procs q).pid ≠ (ps.procs p).pid := by
  obtain ⟨hm, hne⟩ := (h.mem_dequeued hq).1 hr
  exact ⟨hne, fun e => hne (h.pid_inj (h.lt hm) (h.lt (hq ▸ List.mem_cons_self)) e)⟩

variable (s2 ndebug) in
/-- A process written to is moved without error. -/
theorem switchStatus_eq (h : ps.WellFormed) (hq : ps.pq s1 = p :: queue) {f : Process → Process}
    (hpid : (f (ps.procs p)).pid = (ps.procs p).pid) :
    (ps.modify p f).switchStatus ndebug s1 s2 = .ok (some p, (ps.modify p f).moved p s1 s2) := by
  refine Processes.switchStatus_eq s2 ndebug hq fun r hr => ?_
  obtain ⟨hne, hr⟩ := h.dequeued_pid_ne hq hr
  rw [modify_procs, if_neg hne, modify_self, hpid]
  exact ⟨hne, hr⟩

/-- Writing to a process without moving it. -/
theorem modify (h : ps.WellFormed) {f : Process → Process}
    (hpid : (f (ps.procs p)).pid = (ps.procs p).pid)
    (hstatus : (f (ps.procs p)).status = (ps.procs p).status)
    (hpos : (f (ps.procs p)).currentPos = (ps.procs p).currentPos)
    (hplaced : (ps.procs p).Placed → (f (ps.procs p)).Placed) : (ps.modify p f).WellFormed := by
  have hp (q : ProcId) : ((ps.modify p f).procs q).pid = (ps.procs q).pid := by
    rw [modify_procs]; split <;> simp_all
  have hs (q : ProcId) : ((ps.modify p f).procs q).status = (ps.procs q).status := by
    rw [modify_procs]; split <;> simp_all
  have hc (q : ProcId) : ((ps.modify p f).procs q).currentPos = (ps.procs q).currentPos := by
    rw [modify_procs]; split <;> simp_all
  refine ⟨fun {q st} => ?_, h.nodup, ?_, fun {q} => ?_, fun {q r} => ?_, fun {q} hq => ?_⟩
  · rw [hs]; exact h.mem_pq
  · simpa only [modify_pq, hc] using h.sorted
  · rw [hp]; exact h.pid_ne_zero
  · rw [hp, hp]; exact h.pid_inj
  · rw [modify_procs]
    split
    · next e => exact hplaced (h.placed (e ▸ hq))
    · exact h.placed hq

/-- The queues are those of the statuses again. -/
theorem mem_moved (h : ps.WellFormed) (hq : ps.pq s1 = p :: queue) {f : Process → Process} :
    q ∈ ((ps.modify p f).moved p s1 s2).pq st ↔
      q < ps.nextProc ∧ (((ps.modify p f).moved p s1 s2).procs q).status = st := by
  have hleft : q ∈ (ps.dequeued s1).pq st ↔
      (q < ps.nextProc ∧ (ps.procs q).status = st) ∧ q ≠ p := by
    rw [h.mem_dequeued hq, h.mem_pq]
  rw [moved_pq_perm.mem_iff, moved_modify_procs]
  by_cases hqp : q = p
  · subst hqp
    have hnot : q ∉ (ps.dequeued s1).pq st := fun hm => (hleft.1 hm).2 rfl
    rw [if_pos rfl, and_iff_right (h.lt (hq ▸ List.mem_cons_self))]
    split
    · next hs => exact iff_of_true List.mem_cons_self hs.symm
    · next hs => exact iff_of_false hnot (Ne.symm hs)
  · rw [if_neg hqp]
    split
    · rw [List.mem_cons, or_iff_right hqp, hleft, and_iff_left hqp]
    · rw [hleft, and_iff_left hqp]

theorem nodup_moved (h : ps.WellFormed) (hq : ps.pq s1 = p :: queue) {f : Process → Process} :
    (((ps.modify p f).moved p s1 s2).pq st).Nodup := by
  have hnd : ((ps.dequeued s1).pq st).Nodup := (h.nodup st).sublist dequeued_sublist
  rw [moved_pq_perm.nodup_iff]
  split
  · exact List.nodup_cons.2 ⟨fun hm => ((h.mem_dequeued hq).1 hm).2 rfl, hnd⟩
  · exact hnd

theorem sorted_moved (h : ps.WellFormed) (hq : ps.pq s1 = p :: queue) {f : Process → Process} :
    (((ps.modify p f).moved p s1 s2).pq .RUNNABLE).Pairwise fun q r =>
      (((ps.modify p f).moved p s1 s2).procs q).currentPos ≤
        (((ps.modify p f).moved p s1 s2).procs r).currentPos := by
  set ps' := (ps.modify p f).moved p s1 s2 with hps
  -- The processes left in the queue are where they were in the file.
  have hpos : ∀ q ∈ (ps.dequeued s1).pq .RUNNABLE,
      (ps'.procs q).currentPos = (ps.procs q).currentPos := fun q hm => by
    rw [hps, moved_modify_procs, if_neg ((h.mem_dequeued hq).1 hm).2]
  have hsorted : ((ps.dequeued s1).pq .RUNNABLE).Pairwise fun q r =>
      (ps'.procs q).currentPos ≤ (ps'.procs r).currentPos :=
    (h.sorted.sublist dequeued_sublist).imp_of_mem fun hq hr hle => by
      rwa [hpos _ hq, hpos _ hr]
  by_cases hs : ProcessStatus.RUNNABLE = s2
  · have hpq : ps'.pq .RUNNABLE = ((ps.dequeued s1).pq .RUNNABLE).orderedInsert ps'.Before p := by
      simp only [hps, Processes.moved, enqueued, ← hs, Function.update_self, if_true]
      rfl
    exact hpq ▸ sorted_orderedInsert hsorted
  · have hpq : ps'.pq .RUNNABLE = (ps.dequeued s1).pq .RUNNABLE := by
      simp only [hps, Processes.moved, enqueued, Function.update_of_ne hs]
      rfl
    exact hpq ▸ hsorted

/-- Moving a process, after writing to it: its position in the file may have
    changed. -/
theorem moved (h : ps.WellFormed) (hq : ps.pq s1 = p :: queue) {f : Process → Process}
    (hpid : (f (ps.procs p)).pid = (ps.procs p).pid)
    (hplaced : (ps.procs p).Placed → (f (ps.procs p)).Placed) :
    ((ps.modify p f).moved p s1 s2).WellFormed := by
  have hlt : p < ps.nextProc := h.lt (hq ▸ List.mem_cons_self)
  have hpids (q : ProcId) : (((ps.modify p f).moved p s1 s2).procs q).pid = (ps.procs q).pid := by
    rw [moved_modify_procs]
    split
    · next e => rw [e, ← hpid]
    · rfl
  refine ⟨h.mem_moved hq, fun st => h.nodup_moved hq, h.sorted_moved hq, fun {q} hq' => ?_,
    fun {q r} hq' hr => ?_, fun {q} hq' => ?_⟩
  · rw [hpids]
    exact h.pid_ne_zero hq'
  · rw [hpids, hpids]
    exact h.pid_inj hq' hr
  · rw [moved_modify_procs]
    split
    · exact { hplaced (h.placed hlt) with }
    · exact h.placed hq'

end WellFormed

end Processes

end Pfsim
