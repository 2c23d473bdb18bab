import Pfsim.Simulator.Move

/-!
# The effects of the moves

An iteration is about one process at most (`Event.proc`). It leaves the others as
they are, but for their page tables and timers (`Sim.Move.spared`). What it does
to its process, to the queues and to the lines left to run (`Sim.remaining`) is
stated here, for each event:

* `Sim.Move.hit_blocked`, `Sim.Move.miss_blocked`, `Sim.Move.completion_blocked`,
  `Sim.Move.idle_blocked`: the blocked processes;
* `Sim.Move.blocks`, `Sim.Move.loads`: what a fault and the end of an I/O are;
* `Sim.Move.remaining_hit`, `Sim.Move.remaining_eq`: a hit takes the first of the
  lines its process has left, and nothing else takes any.
-/

namespace Pfsim

/-- The counters, after an iteration. -/
def Event.counted (e : Event) (st : Stat) : Stat :=
  match e with
  | hit _ => st.hit
  | miss _ => st.miss
  | _ => st

/-- The process an iteration is about. -/
def Event.proc : Event → Option ProcId
  | completion p _ _ _ => some p
  | idle => none
  | hit r | miss r => some r.p

namespace Sim

variable {R : ReplaceModule} {c : Setup} {s s' u : Sim R} {e : Event} {r : Reference} {q : ProcId}

/-! ## The other processes -/

/-- Nothing happens to the process `q` but for its page table, and its timer,
    now at `w`. -/
def Spared (q : ProcId) (w : ℕ) (s s' : Sim R) : Prop :=
  ∃ pt, s'.ps.procs q = { s.ps.procs q with waitTime := w, pageTable := pt }

namespace Spared

variable {w : ℕ} (h : Spared q w s s')
include h

theorem waitTime : (s'.ps.procs q).waitTime = w := by
  obtain ⟨pt, h⟩ := h
  rw [h]

theorem pid : (s'.ps.procs q).pid = (s.ps.procs q).pid := by
  obtain ⟨pt, h⟩ := h
  rw [h]

theorem status : (s'.ps.procs q).status = (s.ps.procs q).status := by
  obtain ⟨pt, h⟩ := h
  rw [h]

theorem waitingOnPage : (s'.ps.procs q).waitingOnPage = (s.ps.procs q).waitingOnPage := by
  obtain ⟨pt, h⟩ := h
  rw [h]

theorem currentPos : (s'.ps.procs q).currentPos = (s.ps.procs q).currentPos := by
  obtain ⟨pt, h⟩ := h
  rw [h]

theorem currentline : (s'.ps.procs q).currentline = (s.ps.procs q).currentline := by
  obtain ⟨pt, h⟩ := h
  rw [h]

theorem linesLeft : (s'.ps.procs q).linesLeft = (s.ps.procs q).linesLeft := by
  obtain ⟨pt, h⟩ := h
  rw [h]
  rfl

end Spared

/-- The timer of `q` after an iteration which is not about it. -/
def timer (s : Sim R) (e : Event) (q : ProcId) : ℕ :=
  if e = .idle ∧ s.ps.peek .BLOCKED = some q then 1 else s.tickedTime q

theorem timer_eq (h : e ≠ .idle) : s.timer e q = s.tickedTime q := if_neg fun h' => h h'.1

theorem tickedTime_head {bs : List ProcId} (hq : s.ps.pq .BLOCKED = q :: bs) :
    s.tickedTime q = (s.ps.procs q).waitTime - 1 := by
  rw [tickedTime, Processes.peek, hq, List.head?_cons, if_pos rfl]
  rfl

/-- Only the first blocked process counts down. -/
theorem tickedTime_eq (h : s.ps.peek .BLOCKED ≠ some q) :
    s.tickedTime q = (s.ps.procs q).waitTime := if_neg h

theorem peek_ne_of_mem {b : ProcId} {bs : List ProcId} (hq : s.ps.pq .BLOCKED = q :: bs)
    (hnd : (s.ps.pq .BLOCKED).Nodup) (hb : b ∈ bs) : s.ps.peek .BLOCKED ≠ some b := by
  rw [hq, List.nodup_cons] at hnd
  have hne : q ≠ b := fun e => hnd.1 (e ▸ hb)
  rw [Processes.peek, hq, List.head?_cons]
  simpa using hne

/-- An iteration is about one process at most. -/
theorem Move.spared (h : s.Move c e s') (hq : e.proc ≠ some q) :
    Spared q (s.timer e q) s s' := by
  cases h with
  | @completion p bs v ppn victim pg rep hp hw hv hf hl =>
    have hne : q ≠ p := fun e => hq (congrArg some e.symm)
    rw [timer_eq (by simp)]
    exact ⟨_, completed_procs.trans ((if_neg hne).trans tick_procs)⟩
  | @idle b bs hr hb hw =>
    have hpeek : s.ps.peek .BLOCKED = some b := by rw [Processes.peek, hb, List.head?_cons]
    -- The first blocked process has its timer set, even though it is not served.
    refine ⟨(s.ps.procs q).pageTable, skipped_procs.trans ?_⟩
    by_cases hqb : q = b
    · subst hqb
      rw [if_pos rfl, tick_procs, timer, if_pos ⟨rfl, hpeek⟩]
    · rw [if_neg hqb, tick_procs, timer, if_neg (by simpa [hpeek] using Ne.symm hqb)]
  | @jump r u rep h hm ha hl hi =>
    have hne : q ≠ r.p := fun e => hq (congrArg some e.symm)
    obtain ⟨pt, he⟩ := h.procs q
    rw [timer_eq (by simp)]
    exact ⟨pt, (jumped_procs (s := u.accessed rep)).trans ((if_neg hne).trans he)⟩
  | @next r u rep h hm ha hl =>
    have hne : q ≠ r.p := fun e => hq (congrArg some e.symm)
    obtain ⟨pt, he⟩ := h.procs q
    rw [timer_eq (by simp)]
    exact ⟨pt, (Processes.modify_procs _).trans ((if_neg hne).trans he)⟩
  | @finish r u rep pg h hm ha hl hi hf =>
    have hne : q ≠ r.p := fun e => hq (congrArg some e.symm)
    obtain ⟨pt, he⟩ := h.procs q
    rw [timer_eq (by simp)]
    exact ⟨pt, (finished_procs (s := u.accessed rep)).trans ((if_neg hne).trans he)⟩
  | @miss r u h hm =>
    have hne : q ≠ r.p := fun e => hq (congrArg some e.symm)
    obtain ⟨pt, he⟩ := h.procs q
    rw [timer_eq (by simp)]
    exact ⟨pt, (blocked_procs (s := u)).trans ((if_neg hne).trans he)⟩

/-! ## The blocked processes -/

/-- A hit leaves them blocked. -/
theorem Move.hit_blocked (h : s.Move c (.hit r) s') :
    s'.ps.pq .BLOCKED = s.ps.pq .BLOCKED := by
  cases h with
  | jump h => exact (jumped_pq_other (by simp)).trans (congrFun h.pq _)
  | next h => exact congrFun h.pq _
  | finish h => exact finished_pq_blocked.trans (congrFun h.pq _)

/-- A miss adds a process to them. -/
theorem Move.miss_blocked (h : s.Move c (.miss r) s') :
    s'.ps.pq .BLOCKED = s.ps.pq .BLOCKED ++ [r.p] ∧
      (s'.ps.procs r.p).waitTime = c.diskPenalty ∧
      (s'.ps.procs r.p).waitingOnPage = some r.v ∧ (s'.ps.procs r.p).currentPos = r.fpos := by
  cases h with
  | @miss r u h hm =>
    have hp : (u.blocked c r.p r.v r.fpos).ps.procs r.p = _ := blocked_procs.trans (if_pos rfl)
    exact ⟨blocked_pq_blocked.trans (by rw [h.pq]), by rw [hp], by rw [hp], by rw [hp]⟩

/-- The end of an I/O takes the first of them. -/
theorem Move.completion_blocked {v : PageId} {ppn : ℕ} {victim : Option PageId}
    (h : s.Move c (.completion q v ppn victim) s') :
    ∃ bs, s.ps.pq .BLOCKED = q :: bs ∧ s.tick.ioDue = true ∧
      (s.ps.procs q).waitingOnPage = some v ∧ s'.ps.pq .BLOCKED = bs := by
  cases h with
  | completion hq hw hv hf hl =>
    exact ⟨_, hq, hw, hv, by rw [completed_pq_blocked, tick_pq, hq, List.tail_cons]⟩

/-- Idle time leaves them blocked, all of them. -/
theorem Move.idle_blocked (h : s.Move c .idle s') :
    ∃ b bs, s.ps.pq .BLOCKED = b :: bs ∧ s.tick.ioDue = false ∧ s.ps.pq .RUNNABLE = [] ∧
      s'.ps.pq = s.ps.pq := by
  cases h with
  | idle hr hb hw => exact ⟨_, _, hb, hw, hr, tick_pq⟩

/-- The process of a reference is the first runnable one. -/
theorem Move.runnable_of_hit (h : s.Move c (.hit r) s') :
    ∃ hs, s.ps.pq .RUNNABLE = r.p :: hs := by
  cases h with
  | jump h | next h | finish h => exact h.head

theorem Move.runnable_of_miss (h : s.Move c (.miss r) s') :
    ∃ hs, s.ps.pq .RUNNABLE = r.p :: hs ∧ s'.ps.pq .RUNNABLE = hs := by
  cases h with
  | miss h hm =>
    obtain ⟨hs, hq⟩ := h.head
    exact ⟨hs, hq, blocked_pq_runnable.trans (by rw [h.pq, hq, List.tail_cons])⟩

/-- A process which is blocked and remains so is not the one of the iteration. -/
theorem Move.proc_ne [R.Lawful] (h : s.Move c e s') (hs : s.WellFormed c)
    (hq : q ∈ s.ps.pq .BLOCKED) (hq' : q ∈ s'.ps.pq .BLOCKED) : e.proc ≠ some q := by
  intro he
  cases e with
  | completion p v ppn victim =>
    obtain ⟨bs, hb, -, -, hb'⟩ := h.completion_blocked
    obtain rfl : p = q := Option.some.inj he
    have hnd := hs.ps.nodup .BLOCKED
    rw [hb, List.nodup_cons] at hnd
    exact hnd.1 (hb' ▸ hq')
  | idle => cases he
  | hit r =>
    obtain ⟨queue, hr⟩ := h.runnable_of_hit
    exact hs.ps.disjoint (by simp) hq (Option.some.inj he ▸ hr ▸ List.mem_cons_self)
  | miss r =>
    obtain ⟨queue, hr, -⟩ := h.runnable_of_miss
    exact hs.ps.disjoint (by simp) hq (Option.some.inj he ▸ hr ▸ List.mem_cons_self)

/-- What becomes of the process whose I/O is over. -/
theorem Move.completion_proc {v : PageId} {ppn : ℕ} {victim : Option PageId}
    (h : s.Move c (.completion q v ppn victim) s') :
    s'.ps.procs q = { s.ps.procs q with
      waitTime := s.tickedTime q, waitingOnPage := none, status := .RUNNABLE } ∧
      s'.ps.pq .RUNNABLE = (s.ps.pq .RUNNABLE).orderedInsert s'.ps.Before q ∧
      s'.cursor = (s.ps.procs q).currentPos ∧ s'.p = s.p := by
  cases h with
  | @completion q bs v ppn victim pg rep hq hw hv hf hl =>
    have hp : (s.tick.completed q ⟨pg.mem.loaded v ppn, rep⟩).ps.procs q = _ :=
      completed_procs.trans (if_pos rfl)
    have hc : (s.tick.completed q ⟨pg.mem.loaded v ppn, rep⟩).cursor =
      (s.tick.ps.procs q).currentPos := rfl
    rw [tick_procs] at hp hc
    exact ⟨hp, completed_pq_runnable.trans (by rw [tick_pq]), hc, tick_p⟩

/-! ## Time -/

/-- An iteration takes a tick. -/
theorem Move.time (h : s.Move c e s') (he : e ≠ .idle) : s'.time = s.time + 1 := by
  cases h with
  | completion => exact tick_time
  | idle => exact absurd rfl he
  | jump h | next h | finish h | miss h => exact h.time

/-- Over idle time, it takes what is left to wait, but for a tick. -/
theorem Move.time_idle (h : s.Move c .idle s') {b : ProcId} {bs : List ProcId}
    (hb : s.ps.pq .BLOCKED = b :: bs) :
    s'.time = s.time + ((s.ps.procs b).waitTime - 1) ∧ (s'.ps.procs b).waitTime = 1 := by
  cases h with
  | @idle b' bs' hr hb' hw =>
    obtain ⟨rfl, rfl⟩ := List.cons.inj (hb.symm.trans hb')
    have hne := mt (ioDue_tick_iff hb).2 (by simp [hw])
    refine ⟨?_, by rw [skipped_procs, if_pos rfl]⟩
    have ht : (s.tick.skipped b).time = s.tick.time + ((s.tick.ps.procs b).waitTime - 1) := rfl
    rw [ht, tick_time, tick_procs]
    simp only [tickedTime_head hb]
    omega

/-- The statistics: those of the tick, and the counters. -/
theorem Move.stat (h : s.Move c e s') (he : e ≠ .idle) : s'.stat = e.counted s.tick.stat := by
  cases h with
  | completion => rfl
  | idle => exact absurd rfl he
  | jump h | next h | finish h => exact congrArg Stat.hit h.stat
  | miss h => exact congrArg Stat.miss h.stat

/-- Idle time does not count as time with a runnable process. -/
theorem Move.stat_idle (h : s.Move c .idle s') :
    s'.stat.trp = s.stat.trp ∧ s'.stat.tmr = s.stat.tmr ∧ s'.stat.tpi = s.stat.tpi := by
  cases h with
  | @idle b bs hr hb hw =>
    have hrun : s.ps.existsWithStatus .RUNNABLE = false := by simp [Processes.existsWithStatus, hr]
    have hrun' : s.tick.ps.existsWithStatus .RUNNABLE = false := by
      simp [Processes.existsWithStatus, hr]
    simp [skipped, modify, pass, Stat.default, hrun, hrun']

/-! ## Faults and I/Os -/

/-- The fault of `p` on its page `v`: it waits for it. -/
structure Blocks (s s' : Sim R) (p : ProcId) (v : PageId) : Prop where
  runnable : (s.ps.procs p).status = .RUNNABLE
  blocked : (s'.ps.procs p).status = .BLOCKED ∧ (s'.ps.procs p).waitingOnPage = some v
  others : ∀ q ≠ p, (s'.ps.procs q).status = (s.ps.procs q).status

/-- The end of the I/O of `p`: its page `v` is loaded in the frame `ppn`, in the
    place of `victim`, and it resumes. -/
structure Loads (s s' : Sim R) (p : ProcId) (v : PageId) (ppn : ℕ) (victim : Option PageId) :
    Prop where
  blocked : (s.ps.procs p).status = .BLOCKED ∧ (s.ps.procs p).waitingOnPage = some v
  runnable : (s'.ps.procs p).status = .RUNNABLE ∧ (s'.ps.procs p).waitingOnPage = none
  others : ∀ q ≠ p, (s'.ps.procs q).status = (s.ps.procs q).status
  frame : s'.pager.mem.memory ppn = some v
  resident : ∀ u, s'.pager.mem.Resident u ↔ u = v ∨ s.pager.mem.Resident u ∧ victim ≠ some u

theorem Move.blocks [R.Lawful] (h : s.Move c (.miss r) s') (hs : s.WellFormed c) :
    s.Blocks s' r.p r.v := by
  obtain ⟨queue, hr, -⟩ := h.runnable_of_miss
  obtain ⟨hb, -, hpage, -⟩ := h.miss_blocked
  have hs' := h.wellFormed hs
  refine ⟨hs.ps.status (hr ▸ List.mem_cons_self), ⟨hs'.ps.status ?_, hpage⟩, fun q hq => ?_⟩
  · rw [hb]
    exact List.mem_append_right _ (List.mem_singleton_self _)
  · exact (h.spared fun e => hq (Option.some.inj e).symm).status

theorem Move.loads [R.Lawful] {p : ProcId} {v : PageId} {ppn : ℕ} {victim : Option PageId}
    (h : s.Move c (.completion p v ppn victim) s') (hs : s.WellFormed c) :
    s.Loads s' p v ppn victim := by
  obtain ⟨hp, -⟩ := h.completion_proc
  refine ⟨?_, ?_, fun q hq => (h.spared fun e => hq (Option.some.inj e).symm).status, ?_, ?_⟩
  all_goals
    cases h with
    | @completion _ bs _ _ _ pg rep hq hw hv hf hl => ?_
  · exact ⟨hs.ps.status (hq ▸ List.mem_cons_self), hv⟩
  · rw [hp]
    exact ⟨rfl, rfl⟩
  · exact Function.update_self ..
  · intro u
    have hlive := (hs.awaited (hq ▸ List.mem_cons_self) hv).1
    have hfr := findFrame_ok hs hf
    have hload : (pg.mem.loaded v ppn).Resident u ↔ pg.mem.Resident u ∨ u = v :=
      Memory.resident_loaded ((hfr.keeps v).live.trans hlive)
    have hmem : (s.tick.completed p ⟨pg.mem.loaded v ppn, rep⟩).pager.mem =
        pg.mem.loaded v ppn := rfl
    rw [hmem, hload, or_comm]
    rcases hfr.cases with ⟨-, rfl, rfl⟩ | ⟨-, w, rfl, -, he⟩
    · simp
    · rw [he, Memory.resident_evicted]
      simp [eq_comm]

/-- What becomes of the process of a hit, but for its timer and its page table: it
    jumps to its next interval, and the cursor with it, goes on to the next line,
    or finishes. -/
theorem Move.hit_proc (h : s.Move c (.hit r) s') : ∃ w pt,
    ((s.ps.procs r.p).hasIntervalsRemaining = true ∧ s'.p = some r.p ∧
      s'.cursor = (s.ps.procs r.p).jumpToNextInterval.currentPos ∧
      s'.ps.procs r.p = { (s.ps.procs r.p).jumpToNextInterval with
        waitTime := w, pageTable := pt, status := .RUNNABLE }) ∨
    ((s.ps.procs r.p).hasLinesRemainingInInterval = true ∧ s'.p = some r.p ∧
      s'.ps.pq = s.ps.pq ∧ (∃ u, s.Reads c r u ∧ s'.cursor = u.cursor) ∧
      s'.ps.procs r.p = { (s.ps.procs r.p).nextLine with waitTime := w, pageTable := pt }) ∨
    ((s.ps.procs r.p).onLastLineInInterval = true ∧
      (s.ps.procs r.p).hasIntervalsRemaining = false ∧ s'.p = none ∧
      s'.ps.procs r.p = { s.ps.procs r.p with
        waitTime := w, pageTable := pt, currentPos := 0, status := .FINISHED }) := by
  cases h with
  | @jump r u rep h hm ha hl hi =>
    -- The page may be new to the page table `pt`; the process is otherwise as it was.
    obtain ⟨pt, he⟩ := h.procs r.p
    have hp : (u.accessed rep).ps.procs r.p = _ := he
    refine ⟨s.tickedTime r.p, pt, .inl ⟨?_, h.p_eq, ?_, ?_⟩⟩
    · rw [he] at hi
      exact hi
    · rw [jumped, hp]
      rfl
    · rw [jumped_procs, if_pos rfl, hp]
      rfl
  | @next r u rep h hm ha hl =>
    obtain ⟨pt, he⟩ := h.procs r.p
    have hp : (u.accessed rep).ps.procs r.p = _ := he
    refine ⟨s.tickedTime r.p, pt, .inr (.inl ⟨?_, h.p_eq, h.pq, ⟨u, h, rfl⟩, ?_⟩)⟩
    · rw [he] at hl
      exact hl
    · rw [modify, Processes.modify_self, hp]
      rfl
  | @finish r u rep pg h hm ha hl hi hf =>
    obtain ⟨pt, he⟩ := h.procs r.p
    have hp : (u.accessed rep).ps.procs r.p = _ := he
    refine ⟨s.tickedTime r.p, pt, .inr (.inr ⟨?_, ?_, rfl, ?_⟩)⟩
    · rw [he] at hl
      exact hl
    · rw [he] at hi
      exact hi
    · rw [finished_procs, if_pos rfl, hp]

/-- What becomes of the process of a miss. -/
theorem Move.miss_proc (h : s.Move c (.miss r) s') : ∃ pt,
    s'.ps.procs r.p = { s.ps.procs r.p with
      waitTime := c.diskPenalty, waitingOnPage := some r.v, currentPos := r.fpos,
      pageTable := pt, status := .BLOCKED } := by
  cases h with
  | @miss r u h =>
    obtain ⟨pt, he⟩ := h.procs r.p
    exact ⟨pt, by rw [blocked_procs, if_pos rfl, he]⟩

/-- The intervals of a process and its number are for good. -/
theorem Move.index_eq (h : s.Move c e s') (q : ProcId) :
    (s'.ps.procs q).lineIntervals = (s.ps.procs q).lineIntervals ∧
      (s'.ps.procs q).pid = (s.ps.procs q).pid := by
  by_cases hq : e.proc = some q
  · cases e with
    | idle => cases hq
    | completion =>
      obtain rfl := Option.some.inj hq
      rw [h.completion_proc.1]
      exact ⟨rfl, rfl⟩
    | hit r =>
      obtain rfl := Option.some.inj hq
      obtain ⟨w, pt, ⟨-, -, -, he⟩ | ⟨-, -, -, -, he⟩ | ⟨-, -, -, he⟩⟩ := h.hit_proc
      all_goals rw [he]; exact ⟨rfl, rfl⟩
    | miss r =>
      obtain rfl := Option.some.inj hq
      obtain ⟨pt, he⟩ := h.miss_proc
      rw [he]
      exact ⟨rfl, rfl⟩
  · obtain ⟨pt, he⟩ := h.spared hq
    rw [he]
    exact ⟨rfl, rfl⟩

/-! ## The lines left -/

/-- The lines the process `q` has left to run. -/
def remaining (s : Sim R) (q : ProcId) : List ℕ :=
  if (s.ps.procs q).status = .FINISHED then [] else (s.ps.procs q).linesLeft

theorem Spared.remaining {w : ℕ} (h : Spared q w s s') : s'.remaining q = s.remaining q := by
  rw [Sim.remaining, Sim.remaining, h.status, h.linesLeft]

theorem remaining_of_mem [R.Lawful] {st : ProcessStatus} (hs : s.WellFormed c)
    (hq : q ∈ s.ps.pq st) (hst : st ≠ .FINISHED) : s.remaining q = (s.ps.procs q).linesLeft :=
  if_neg ((hs.ps.status hq).trans_ne hst)

/-- A hit takes the first line its process has left. -/
theorem Move.remaining_hit [R.Lawful] (hs : s.WellFormed c) (h : s.Move c (.hit r) s') :
    s.remaining r.p = r.line :: s'.remaining r.p := by
  obtain ⟨queue, hq⟩ := h.runnable_of_hit
  rw [remaining_of_mem hs (hq ▸ List.mem_cons_self) (by simp), remaining]
  cases h with
  | @jump r u rep h hm ha hl hi =>
    obtain ⟨pt, he⟩ := h.procs r.p
    have hp : ((u.accessed rep).jumped r.p).ps.procs r.p = _ := jumped_procs.trans (if_pos rfl)
    rw [he] at hl hi
    rw [h.line, Process.linesLeft_jumpToNextInterval (p := s.ps.procs r.p) hl hi, hp,
      if_neg (by simp), show (u.accessed rep).ps.procs r.p = u.ps.procs r.p from rfl, he]
    rfl
  | @next r u rep h hm ha hl =>
    obtain ⟨pt, he⟩ := h.procs r.p
    have hp : ((u.accessed rep).modify r.p Process.nextLine).ps.procs r.p = _ :=
      Processes.modify_self _
    have hst : (s.ps.procs r.p).status ≠ .FINISHED := by
      simp [hs.ps.status (hq ▸ List.mem_cons_self)]
    rw [he] at hl
    rw [h.line, Process.linesLeft_nextLine (p := s.ps.procs r.p) hl, hp,
      show (u.accessed rep).ps.procs r.p = u.ps.procs r.p from rfl, he]
    exact congrArg _ (if_neg hst).symm
  | @finish r u rep pg h hm ha hl hi hf =>
    obtain ⟨pt, he⟩ := h.procs r.p
    have hp : ((u.accessed rep).finished r.p pg).ps.procs r.p = _ :=
      finished_procs.trans (if_pos rfl)
    rw [he] at hl hi
    rw [h.line, Process.linesLeft_last (p := s.ps.procs r.p) hl hi, hp, if_pos rfl]

/-- Nothing else takes any. -/
theorem Move.remaining_eq [R.Lawful] (hs : s.WellFormed c) (h : s.Move c e s')
    (hr : ∀ r, e = .hit r → q ≠ r.p) : s'.remaining q = s.remaining q := by
  by_cases hq : e.proc = some q
  · cases h with
    | @completion q' bs v ppn victim pg rep hb hw hv hf hl =>
      obtain rfl : q' = q := Option.some.inj hq
      have hp : (s.tick.completed q' ⟨pg.mem.loaded v ppn, rep⟩).ps.procs q' = _ :=
        completed_procs.trans (if_pos rfl)
      rw [remaining, hp, if_neg (by simp), remaining_of_mem hs (hb ▸ List.mem_cons_self) (by simp),
        tick_procs]
      rfl
    | idle => cases hq
    | jump h | next h | finish h => exact absurd (Option.some.inj hq).symm (hr _ rfl)
    | @miss r' u h hm =>
      obtain rfl : r'.p = q := Option.some.inj hq
      obtain ⟨queue, hq⟩ := h.head
      obtain ⟨pt, he⟩ := h.procs r'.p
      have hp : (u.blocked c r'.p r'.v r'.fpos).ps.procs r'.p = _ :=
        blocked_procs.trans (if_pos rfl)
      rw [remaining, hp, if_neg (by simp), remaining_of_mem hs (hq ▸ List.mem_cons_self) (by simp),
        he]
      rfl
  · exact (h.spared hq).remaining

theorem Move.nextProc (h : s.Move c e s') : s'.ps.nextProc = s.ps.nextProc := by
  cases h with
  | completion => exact tick_nextProc
  | idle => exact tick_nextProc
  | jump h | next h | finish h | miss h => exact h.nextProc

/-- The number of lines all processes have left to run. -/
def linesLeft (s : Sim R) : ℕ := ∑ q ∈ Finset.range s.ps.nextProc, (s.remaining q).length

theorem Move.linesLeft_hit [R.Lawful] (hs : s.WellFormed c) (h : s.Move c (.hit r) s') :
    s.linesLeft = s'.linesLeft + 1 := by
  obtain ⟨queue, hq⟩ := h.runnable_of_hit
  have hlt : r.p ∈ Finset.range s.ps.nextProc :=
    Finset.mem_range.2 (hs.ps.lt (hq ▸ List.mem_cons_self))
  rw [linesLeft, linesLeft, h.nextProc, ← Finset.add_sum_erase _ _ hlt,
    ← Finset.add_sum_erase (Finset.range _) (fun q => (s'.remaining q).length) hlt,
    h.remaining_hit hs, List.length_cons]
  have hrest : ∀ q ∈ (Finset.range s.ps.nextProc).erase r.p,
      (s.remaining q).length = (s'.remaining q).length := fun q hq => by
    rw [h.remaining_eq hs fun r' e => by cases e; exact Finset.ne_of_mem_erase hq]
  rw [Finset.sum_congr rfl hrest]
  omega

theorem Move.linesLeft_eq [R.Lawful] (hs : s.WellFormed c) (h : s.Move c e s')
    (he : ∀ r, e ≠ .hit r) : s'.linesLeft = s.linesLeft := by
  rw [linesLeft, linesLeft, h.nextProc]
  exact Finset.sum_congr rfl fun q _ => by rw [h.remaining_eq hs fun r e => absurd e (he r)]

end Sim

end Pfsim
