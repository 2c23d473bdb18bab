import Pfsim.Simulator.WellFormed

/-!
# The operations of the simulator

What the operations of the simulator do to a well-formed state, each of them as
the state it leaves: the assertions hold, the queues are not corrupted, and
nothing undefined happens.

* `Sim.completion_eq`: the end of an I/O, once a frame is found
  (`Sim.findFrame_cases`);
* `Sim.skipIdle_eq`: the jump over idle time;
* `Sim.contextSwitch_eq`, `Sim.virtualPage_eq`: before a line is run;
* `Sim.hit_jump`, `Sim.hit_next`, `Sim.hit_finish`, `Sim.miss_eq`: what running a
  line comes to.
-/

namespace Pfsim.Sim

variable {R : ReplaceModule} {c : Setup} {s : Sim R} {p q : ProcId}

/-! ## What `malloc` left -/

/-- The page `vpn` of the process `p` can be looked for, and made: what `malloc` left is
    `NULL` where it is used. -/
structure Searchable (c : Setup) (s : Sim R) (p : ProcId) (vpn : ℕ) : Prop where
  root : (s.ps.procs p).pageTable = [] → c.root p = 0
  overhead : (s.ps.procs p).getVirtualPage vpn = none →
    R.assertOverhead c.ndebug (c.overhead s.pager.mem.nextPage) = .ok ()

/-- A search only uses the processes and the pages. -/
theorem Searchable.congr {s' : Sim R} {vpn : ℕ} (h : s.Searchable c p vpn)
    (hps : s'.ps = s.ps) (hpager : s'.pager = s.pager) : s'.Searchable c p vpn where
  root := by rw [hps]; exact h.root
  overhead := by rw [hps, hpager]; exact h.overhead

/-- What is undefined if it cannot: the root is used first. -/
inductive Misread (c : Setup) (s : Sim R) (p : ProcId) (vpn : ℕ) : Stop → Prop
  | root : (s.ps.procs p).pageTable = [] → c.root p ≠ 0 →
      Misread c s p vpn (.undefined "*p->pageTable is not written")
  | overhead {stop : Stop} : ((s.ps.procs p).pageTable = [] → c.root p = 0) →
      (s.ps.procs p).getVirtualPage vpn = none →
      R.assertOverhead c.ndebug (c.overhead s.pager.mem.nextPage) = .error stop →
      Misread c s p vpn stop

/-- If it cannot, there is an error. -/
theorem exists_misread {vpn : ℕ} (hn : ¬s.Searchable c p vpn) :
    ∃ stop, s.Misread c p vpn stop := by
  by_cases hroot : (s.ps.procs p).pageTable = [] → c.root p = 0
  · have hover : ¬((s.ps.procs p).getVirtualPage vpn = none →
        R.assertOverhead c.ndebug (c.overhead s.pager.mem.nextPage) = .ok ()) :=
      fun h => hn ⟨hroot, h⟩
    obtain ⟨hv, hne⟩ := Classical.not_imp.1 hover
    cases ho : R.assertOverhead c.ndebug (c.overhead s.pager.mem.nextPage) with
    | ok => exact absurd ho hne
    | error stop => exact ⟨stop, .overhead hroot hv ho⟩
  · obtain ⟨hnil, hne⟩ := Classical.not_imp.1 hroot
    exact ⟨_, .root hnil hne⟩

/-- It is the same error as long as the processes and the pages are. -/
theorem Misread.congr {s' : Sim R} {vpn : ℕ} {stop : Stop} (h : s.Misread c p vpn stop)
    (hps : s'.ps = s.ps) (hpager : s'.pager = s.pager) : s'.Misread c p vpn stop := by
  cases h with
  | root hnil hne => exact .root (by rwa [hps]) hne
  | overhead hroot hv ho => exact .overhead (by rwa [hps]) (by rwa [hps]) (by rwa [hpager])

/-- An assertion on an overhead which is not written is no better than its use. -/
theorem Misread.eq_undefined [R.Lawful] {vpn : ℕ} {stop : Stop} (h : s.Misread c p vpn stop) :
    ∃ what, stop = .undefined what := by
  cases h with
  | root => exact ⟨_, rfl⟩
  | overhead _ _ ho =>
    have hne : R.assertOverhead c.ndebug (c.overhead s.pager.mem.nextPage) ≠ .ok () := by
      rw [ho]
      exact nofun
    obtain ⟨what, hwhat⟩ := ReplaceModule.Lawful.assertOverhead_error hne
    exact ⟨what, Except.error.inj (ho.symm.trans hwhat)⟩

/-! ## Time -/

/-- What is left for `q` to wait, after a tick. -/
def tickedTime (s : Sim R) (q : ProcId) : ℕ :=
  if s.ps.peek .BLOCKED = some q then (s.ps.procs q).waitTime - CLOCK_TICK
  else (s.ps.procs q).waitTime

/-- The state after a tick, before anything else happens. -/
def tick (s : Sim R) : Sim R := (s.pass CLOCK_TICK).countDown

section Tick

/-- A tick adds to the time and the statistics, and only the timer changes otherwise. -/
theorem tick_eq : s.tick = { s.pass CLOCK_TICK with ps := s.tick.ps } := by
  rw [tick, countDown]
  split <;> rfl

@[simp] theorem tick_time : s.tick.time = s.time + 1 := by rw [tick_eq]; rfl

@[simp] theorem tick_p : s.tick.p = s.p := by rw [tick_eq]; rfl

@[simp] theorem tick_cursor : s.tick.cursor = s.cursor := by rw [tick_eq]; rfl

@[simp] theorem tick_pager : s.tick.pager = s.pager := by rw [tick_eq]; rfl

@[simp] theorem tick_stderr : s.tick.stderr = s.stderr := by rw [tick_eq]; rfl

/-- The tick is accounted for before the timer counts down. -/
@[simp] theorem tick_stat : s.tick.stat =
    s.stat.default 1 s.pager.mem.howManyAllocPages (s.ps.existsWithStatus .RUNNABLE) := by
  rw [tick_eq]; rfl

@[simp] theorem tick_pq : s.tick.ps.pq = s.ps.pq := by
  rw [tick, countDown]
  split <;> rfl

@[simp] theorem tick_nextProc : s.tick.ps.nextProc = s.ps.nextProc := by
  rw [tick, countDown]
  split <;> rfl

@[simp] theorem tick_live : s.tick.ps.live = s.ps.live := by
  rw [tick, countDown]
  split <;> rfl

/-- Of the processes, only the timer of the first blocked one changes. -/
@[simp] theorem tick_procs :
    s.tick.ps.procs q = { s.ps.procs q with waitTime := s.tickedTime q } := by
  rw [tick, countDown, tickedTime]
  have hp : (s.pass CLOCK_TICK).ps = s.ps := rfl
  rw [hp]
  split
  · next hb => rw [hb, hp]; rfl
  · next b hb =>
    rw [hb]
    by_cases hq : q = b
    · subst hq
      simp [modify, hp]
    · simp [modify, hp, Processes.modify_procs, hq, Ne.symm hq]

/-- A tick leaves alone what a search uses. -/
theorem searchable_tick {vpn : ℕ} : s.tick.Searchable c p vpn ↔ s.Searchable c p vpn := by
  constructor <;> intro h
  · exact ⟨by simpa using h.root, by simpa [Process.getVirtualPage] using h.overhead⟩
  · exact ⟨by simpa using h.root, by simpa [Process.getVirtualPage] using h.overhead⟩

/-- The disk timer is over if the first blocked process has no more than this tick to wait. -/
theorem ioDue_tick_iff {bs : List ProcId} (hq : s.ps.pq .BLOCKED = q :: bs) :
    s.tick.ioDue = true ↔ (s.ps.procs q).waitTime - 1 = 0 := by
  simp [ioDue, Processes.peek, hq, tickedTime, CLOCK_TICK]

/-- Then there is a blocked process. -/
theorem exists_blocked_of_ioDue (h : s.tick.ioDue = true) :
    ∃ q bs, s.ps.pq .BLOCKED = q :: bs := by
  cases hb : s.ps.pq .BLOCKED with
  | nil => simp [ioDue, Processes.peek, hb] at h
  | cons q bs => exact ⟨q, bs, rfl⟩

end Tick

/-- The jump over idle time, `b` being the process to wait for. -/
def skipped (s : Sim R) (b : ProcId) : Sim R :=
  (s.pass ((s.ps.procs b).waitTime - 1)).modify b fun p => { p with waitTime := 1 }

/-! ## The states left by the operations -/

/-- The I/O of the process `q` is over, and memory is left as `pg`. -/
def completed (s : Sim R) (q : ProcId) (pg : Pager R) : Sim R :=
  { s with
    cursor := (s.ps.procs q).currentPos
    pager := pg
    ps := (s.ps.modify q fun p => { p with waitingOnPage := none }).moved q .BLOCKED .RUNNABLE }

/-- Where the next line of the process `h` is read. -/
def position (s : Sim R) (h : ProcId) : ℕ :=
  if s.p = some h then s.cursor else (s.ps.procs h).currentPos

/-- A record has been read on behalf of `h`, with the process number `pid`, the
    input left being `rest`. -/
def reading (s : Sim R) (c : Setup) (h : ProcId) (pid : ℕ) (rest : List Char) : Sim R :=
  { s with
    p := some h
    cursor := c.text.length - rest.length
    stderr := if pid ≠ (s.ps.procs h).pid then
      s.stderr ++ ["ERROR: Wrong line in tracefile recieved.\n"] else s.stderr }

/-- The process `p` has a page `vpn`, made if there was none. -/
def paged (s : Sim R) (p : ProcId) (vpn : ℕ) : Sim R :=
  match (s.ps.procs p).getVirtualPage vpn with
  | some _ => s
  | none => { s with
      pager := (s.pager.newVPage (s.ps.procs p).pid vpn).1
      ps := s.ps.modify p fun p =>
        { p with pageTable := p.pageTable.add vpn s.pager.mem.nextPage } }

/-- A hit has been counted, and the replacement module, told of it, is at `rep`. -/
def accessed (s : Sim R) (rep : R.State) : Sim R :=
  { s with stat := s.stat.hit, pager := ⟨s.pager.mem, rep⟩ }

/-- The process `p` has jumped to its next interval. -/
def jumped (s : Sim R) (p : ProcId) : Sim R :=
  { s with
    cursor := (s.ps.procs p).jumpToNextInterval.currentPos
    ps := (s.ps.modify p Process.jumpToNextInterval).moved p .RUNNABLE .RUNNABLE }

/-- The process `p` has finished, and memory is left as `pg`. -/
def finished (s : Sim R) (p : ProcId) (pg : Pager R) : Sim R :=
  { s with
    p := none
    pager := pg
    ps := ((s.ps.modify p fun p => { p with currentPos := 0 }).moved p .RUNNABLE .FINISHED).free p }

/-- The process `p` waits for its page `v`, and will be back at `fpos`. -/
def blocked (s : Sim R) (c : Setup) (p : ProcId) (v : PageId) (fpos : ℕ) : Sim R :=
  { s with
    stat := s.stat.miss
    ps := (s.ps.modify p fun p =>
      { p with waitTime := c.diskPenalty, waitingOnPage := some v, currentPos := fpos }).moved
        p .RUNNABLE .BLOCKED }

section Paged

variable {vpn : ℕ}

/-- Making a page takes no time. -/
@[simp] theorem paged_time : (s.paged p vpn).time = s.time := by rw [paged]; split <;> rfl

@[simp] theorem paged_p : (s.paged p vpn).p = s.p := by rw [paged]; split <;> rfl

@[simp] theorem paged_cursor : (s.paged p vpn).cursor = s.cursor := by rw [paged]; split <;> rfl

/-- It is not accounted for. -/
@[simp] theorem paged_stat : (s.paged p vpn).stat = s.stat := by rw [paged]; split <;> rfl

@[simp] theorem paged_stderr : (s.paged p vpn).stderr = s.stderr := by rw [paged]; split <;> rfl

/-- It leaves the queues as they are. -/
@[simp] theorem paged_pq : (s.paged p vpn).ps.pq = s.ps.pq := by rw [paged]; split <;> rfl

@[simp] theorem paged_nextProc : (s.paged p vpn).ps.nextProc = s.ps.nextProc := by
  rw [paged]; split <;> rfl

@[simp] theorem paged_live : (s.paged p vpn).ps.live = s.ps.live := by rw [paged]; split <;> rfl

variable (s p vpn) in
/-- Only the page table changes. -/
theorem exists_paged_procs (q : ProcId) :
    ∃ pt, (s.paged p vpn).ps.procs q = { s.ps.procs q with pageTable := pt } := by
  rw [paged]
  split
  · exact ⟨_, rfl⟩
  · by_cases hq : q = p
    · subst hq
      exact ⟨(s.ps.procs q).pageTable.add vpn s.pager.mem.nextPage, Function.update_self ..⟩
    · exact ⟨(s.ps.procs q).pageTable, by rw [Processes.modify_procs, if_neg hq]⟩

end Paged

/-! ### Their processes -/

section Fields

variable {v : PageId} {fpos : ℕ} {pg : Pager R} {r : ProcId} {st : ProcessStatus}

/-- The process waited for is a tick from its end, and the others have not changed. -/
theorem skipped_procs : (s.skipped q).ps.procs r =
    if r = q then { s.ps.procs q with waitTime := 1 } else s.ps.procs r := by
  simp only [skipped, modify, Processes.modify_procs]
  rfl

/-- The process which resumes waits for nothing any more. -/
theorem completed_procs : (s.completed q pg).ps.procs r =
    if r = q then { s.ps.procs q with waitingOnPage := none, status := .RUNNABLE }
    else s.ps.procs r := by
  simp only [completed, Processes.moved_procs, Processes.modify_procs]
  split <;> simp_all

/-- The process is at the start of its next interval. -/
theorem jumped_procs : (s.jumped p).ps.procs r =
    if r = p then { (s.ps.procs p).jumpToNextInterval with status := .RUNNABLE }
    else s.ps.procs r := by
  simp only [jumped, Processes.moved_procs, Processes.modify_procs]
  split <;> simp_all

/-- The position of a process which finishes is that given to `safelySwitchStatus`. -/
theorem finished_procs : (s.finished p pg).ps.procs r =
    if r = p then { s.ps.procs p with currentPos := 0, status := .FINISHED }
    else s.ps.procs r := by
  simp only [finished, Processes.free, Processes.moved_procs, Processes.modify_procs]
  split <;> simp_all

/-- The process which has missed will read its line again, a disk penalty later. -/
theorem blocked_procs : (s.blocked c p v fpos).ps.procs r =
    if r = p then { s.ps.procs p with
      waitTime := c.diskPenalty, waitingOnPage := some v, currentPos := fpos, status := .BLOCKED }
    else s.ps.procs r := by
  simp only [blocked, Processes.moved_procs, Processes.modify_procs]
  split <;> simp_all

/-- The process which resumes was the first blocked one. -/
@[simp] theorem completed_pq_blocked :
    (s.completed q pg).ps.pq .BLOCKED = (s.ps.pq .BLOCKED).tail :=
  Processes.moved_pq_src (by simp)

@[simp] theorem completed_pq_finished :
    (s.completed q pg).ps.pq .FINISHED = s.ps.pq .FINISHED :=
  Processes.moved_pq_other (by simp) (by simp)

/-- It takes its place among the runnable ones, in the order of their positions. -/
theorem completed_pq_runnable : (s.completed q pg).ps.pq .RUNNABLE =
    (s.ps.pq .RUNNABLE).orderedInsert (s.completed q pg).ps.Before q :=
  Processes.moved_pq_runnable (by simp)

/-- A jump does not take a process out of the runnable ones. -/
theorem jumped_pq_other (h : st ≠ .RUNNABLE) : (s.jumped p).ps.pq st = s.ps.pq st :=
  Processes.moved_pq_other h h

/-- The process which finishes was the first runnable one. -/
@[simp] theorem finished_pq_runnable :
    (s.finished p pg).ps.pq .RUNNABLE = (s.ps.pq .RUNNABLE).tail := by
  simp only [finished, Processes.free_pq]
  exact Processes.moved_pq_src (by simp)

@[simp] theorem finished_pq_blocked :
    (s.finished p pg).ps.pq .BLOCKED = s.ps.pq .BLOCKED := by
  simp only [finished, Processes.free_pq]
  exact Processes.moved_pq_other (by simp) (by simp)

/-- It is queued, although it is freed. -/
@[simp] theorem finished_pq_finished :
    (s.finished p pg).ps.pq .FINISHED = s.ps.pq .FINISHED ++ [p] := by
  simp only [finished, Processes.free_pq]
  exact Processes.moved_pq_tail (by simp) (by simp)

/-- The process which misses was the first runnable one. -/
@[simp] theorem blocked_pq_runnable :
    (s.blocked c p v fpos).ps.pq .RUNNABLE = (s.ps.pq .RUNNABLE).tail :=
  Processes.moved_pq_src (by simp)

/-- It is served after those blocked before it. -/
@[simp] theorem blocked_pq_blocked :
    (s.blocked c p v fpos).ps.pq .BLOCKED = s.ps.pq .BLOCKED ++ [p] :=
  Processes.moved_pq_tail (by simp) (by simp)

@[simp] theorem blocked_pq_finished :
    (s.blocked c p v fpos).ps.pq .FINISHED = s.ps.pq .FINISHED :=
  Processes.moved_pq_other (by simp) (by simp)

end Fields

/-! ## Without memory -/

section Scheduling

variable {queue : List ProcId} {v : PageId} {fpos : ℕ} {pg : Pager R} {rep : R.State}

/-- A blocked process whose timer is over resumes, and the cursor goes to its position. -/
theorem safelySwitchStatus_resume (fpos : ℕ) (h : s.ps.WellFormed)
    (hq : s.ps.pq .BLOCKED = q :: queue)
    (hw : (s.ps.procs q).waitTime = 0) :
    s.safelySwitchStatus c q .RUNNABLE fpos = .ok { s with
      cursor := (s.ps.procs q).currentPos
      ps := s.ps.moved q .BLOCKED .RUNNABLE } := by
  have hst : (s.ps.procs q).status = .BLOCKED := h.status (hq ▸ List.mem_cons_self)
  have hpeek : s.ps.peek .BLOCKED = some q := by rw [Processes.peek, hq, List.head?_cons]
  have hsw := Processes.switchStatus_eq .RUNNABLE c.ndebug hq fun r hr => h.dequeued_pid_ne hq hr
  rw [safelySwitchStatus, hst, leaveStatus, assert_ok hpeek, ok_bind]
  simp only [assert_ok hw, ok_bind, hsw, ne_eq, not_true_eq_false, if_false, enterStatus,
    seekSavedLine]
  rw [assert_ok (by simp [Processes.moved_procs]), ok_bind, Processes.moved_procs, if_pos rfl]

/-- The first part of a switch from the runnable processes. -/
theorem leaveStatus_runnable (hq : s.ps.pq .RUNNABLE = p :: queue) :
    s.leaveStatus c p .RUNNABLE fpos = .ok (s.modify p fun p => { p with currentPos := fpos }) := by
  have hpeek : s.ps.peek .RUNNABLE = some p := by rw [Processes.peek, hq, List.head?_cons]
  rw [leaveStatus, assert_ok hpeek, ok_bind]
  simp only [hpeek]

/-- The first runnable process is blocked, with its position saved. -/
theorem safelySwitchStatus_block (fpos : ℕ) (h : s.ps.WellFormed)
    (hq : s.ps.pq .RUNNABLE = p :: queue)
    (hw : (s.ps.procs p).waitTime = c.diskPenalty) :
    s.safelySwitchStatus c p .BLOCKED fpos = .ok { s with
      ps := (s.ps.modify p fun p => { p with currentPos := fpos }).moved p .RUNNABLE
        .BLOCKED } := by
  have hst : (s.ps.procs p).status = .RUNNABLE := h.status (hq ▸ List.mem_cons_self)
  have hsw := h.switchStatus_eq (f := fun p => { p with currentPos := fpos }) .BLOCKED c.ndebug hq
    rfl
  rw [safelySwitchStatus, hst, leaveStatus_runnable hq, ok_bind]
  simp only [modify, hsw, ok_bind, ne_eq, not_true_eq_false, if_false, enterStatus]
  rw [assert_ok (by simpa [Processes.moved_procs] using hw), ok_bind]

/-- The root of a page table which has an entry has been written. -/
theorem pageTable_eq (h : (s.ps.procs p).pageTable = [] → c.root p = 0) :
    s.pageTable c p = .ok (s.ps.procs p).pageTable :=
  if_neg fun hn => hn.2 (h hn.1)

/-- The first runnable process finishes, and its pages are freed. -/
theorem safelySwitchStatus_finish (fpos : ℕ) (h : s.ps.WellFormed)
    (hq : s.ps.pq .RUNNABLE = p :: queue)
    (hl : (s.ps.procs p).hasLinesRemainingInFile = false)
    (hne : (s.ps.procs p).pageTable ≠ [])
    (hf : s.pager.freeAll c.ndebug ((c.tdestroy (s.ps.procs p).pageTable).map Prod.snd) = .ok pg) :
    s.safelySwitchStatus c p .FINISHED fpos = .ok { s with
      pager := pg
      ps := ((s.ps.modify p fun p => { p with currentPos := fpos }).moved
        p .RUNNABLE .FINISHED).free p } := by
  have hst : (s.ps.procs p).status = .RUNNABLE := h.status (hq ▸ List.mem_cons_self)
  have hsw := h.switchStatus_eq (f := fun p => { p with currentPos := fpos }) .FINISHED c.ndebug hq
    rfl
  rw [safelySwitchStatus, hst, leaveStatus_runnable hq, ok_bind]
  simp only [modify, hsw, ok_bind, ne_eq, not_true_eq_false, if_false, enterStatus]
  rw [assert_ok (by simpa [Processes.moved_procs, Process.hasLinesRemainingInFile] using hl),
    ok_bind, quit, pageTable_eq fun he => absurd he (by simpa [Processes.moved_procs] using hne)]
  simp only [Processes.moved_procs, if_true, Processes.modify_self, hf, ok_bind]

/-- The cursor is at the position of the process to run. -/
theorem contextSwitch_eq (h : s.ps.WellFormed) (hq : s.ps.pq .RUNNABLE = p :: queue) :
    s.contextSwitch c p = .ok { s with p := some p, cursor := s.position p } := by
  have hst : (s.ps.procs p).status = .RUNNABLE := h.status (hq ▸ List.mem_cons_self)
  rw [contextSwitch, position]
  by_cases hp : s.p = some p
  · rw [if_neg (not_not.2 hp), if_pos hp, ← hp]
  · rw [if_pos hp, if_neg hp]
    simp only [seekSavedLine]
    split
    · rw [assert_ok (by simp [hst]), ok_bind]
    · next hc => rw [not_not.1 hc]

/-- The page `vpn` of `p` is found, or made. -/
theorem virtualPage_eq {vpn : ℕ} (hpid : (s.ps.procs p).pid ≠ 0) (hn : s.Searchable c p vpn) :
    ∃ v, s.virtualPage c p vpn = .ok (v, s.paged p vpn) ∧
      ((s.paged p vpn).ps.procs p).getVirtualPage vpn = some v := by
  rw [virtualPage, paged, pageTable_eq hn.root, ok_bind]
  cases hv : (s.ps.procs p).getVirtualPage vpn with
  | some v => exact ⟨v, rfl, hv⟩
  | none =>
    have hget : ((s.ps.procs p).pageTable.add vpn s.pager.mem.nextPage).get vpn =
        some s.pager.mem.nextPage := PageTable.get_add hv
    rcases hi : s.pager.newVPage (s.ps.procs p).pid vpn with ⟨pager, v⟩
    obtain rfl : s.pager.mem.nextPage = v := congrArg Prod.snd hi
    refine ⟨s.pager.mem.nextPage, ?_, by simpa [Process.getVirtualPage] using hget⟩
    dsimp only
    rw [Pager.initVPage_eq hpid, hn.overhead hv, ok_bind, ok_bind, hi]
    dsimp only
    rw [assert_ok (by simpa [modify, Process.getVirtualPage] using hget), ok_bind]
    rfl

/-- Otherwise, what `malloc` left is used. -/
theorem virtualPage_misread {vpn : ℕ} {stop : Stop} (hpid : (s.ps.procs p).pid ≠ 0)
    (h : s.Misread c p vpn stop) : s.virtualPage c p vpn = .error stop := by
  cases h with
  | root hnil hne => rw [virtualPage, pageTable, if_pos ⟨hnil, hne⟩, error_bind]
  | overhead hroot hv ho =>
    rw [virtualPage, pageTable_eq hroot, ok_bind, hv]
    dsimp only
    rw [Pager.initVPage_eq hpid, ho, error_bind, error_bind]

/-- The jump over idle time, when the first blocked process still has to wait. -/
theorem skipIdle_eq (hq : s.ps.pq .BLOCKED = q :: queue) (hw : (s.ps.procs q).waitTime ≠ 0) :
    s.skipIdle c = .ok (.idle, s.skipped q) := by
  have hpeek : s.ps.peek .BLOCKED = some q := by rw [Processes.peek, hq, List.head?_cons]
  have hone : (s.ps.procs q).waitTime - ((s.ps.procs q).waitTime - 1) = 1 := by omega
  have hmod : (s.pass ((s.ps.procs q).waitTime - 1)).modify q (fun p =>
      { p with waitTime := p.waitTime - ((s.ps.procs q).waitTime - 1) }) = s.skipped q := by
    simp [skipped, modify, pass, Processes.modify, hone]
  rw [skipIdle, hpeek]
  simp only [assert_ok hw, ok_bind, CLOCK_TICK, one_mul, hmod]
  rw [assert_ok (by simp [skipped, modify]), ok_bind]

/-- The running of a line, once its record is read. -/
theorem runLine_eq (hp : s.p = some p) (hne : (s.ps.procs p).currInterval ≠ .null) {pid vpn : ℕ}
    {rest : List Char}
    (hscan : fscanf simulatorFormat (c.text.drop s.cursor) = ⟨2, [pid, vpn], rest⟩)
    (hpid : (s.ps.procs p).pid ≠ 0) (hn : s.Searchable c p vpn) :
    ∃ v, (((s.reading c p pid rest).paged p vpn).ps.procs p).getVirtualPage vpn = some v ∧
      s.runLine c p =
        (let u := (s.reading c p pid rest).paged p vpn
        let r : Reference := ⟨p, (s.ps.procs p).currentline, s.cursor, pid, vpn, v⟩
        if (u.pager.mem.vpages v).inMemory then do
          let s ← u.hit c p v
          .ok (.hit r, s)
        else do
          let s ← u.miss c p v s.cursor
          .ok (.miss r, s)) := by
  obtain ⟨v, hv, hget⟩ := virtualPage_eq (s := s.reading c p pid rest) (c := c) (p := p) hpid
    ⟨hn.root, hn.overhead⟩
  have hread : s.reading c p pid rest = { s with
      cursor := c.text.length - rest.length
      stderr := if pid ≠ (s.ps.procs p).pid then
        s.stderr ++ ["ERROR: Wrong line in tracefile recieved.\n"] else s.stderr } := by
    rw [reading, ← hp]
  obtain ⟨pt, hpt⟩ := (s.reading c p pid rest).exists_paged_procs p vpn p
  have hps : (s.reading c p pid rest).ps = s.ps := rfl
  refine ⟨v, hget, ?_⟩
  rw [runLine, assert_ok hne, ok_bind]
  simp only [hscan, ← hread, hv, ok_bind, Process.virtualPageInMemory]
  rw [Process.getVirtualPage] at hget
  simp only [hget]
  rw [hpt, hps, if_neg hne]

/-- Where what `malloc` left is used, and is not `NULL`. -/
theorem runLine_misread (hp : s.p = some p) (hne : (s.ps.procs p).currInterval ≠ .null)
    {pid vpn : ℕ} {rest : List Char} {stop : Stop}
    (hscan : fscanf simulatorFormat (c.text.drop s.cursor) = ⟨2, [pid, vpn], rest⟩)
    (hpid : (s.ps.procs p).pid ≠ 0) (h : s.Misread c p vpn stop) :
    s.runLine c p = .error stop := by
  have hv := virtualPage_misread (s := s.reading c p pid rest) hpid (h.congr rfl rfl)
  have hread : s.reading c p pid rest = { s with
      cursor := c.text.length - rest.length
      stderr := if pid ≠ (s.ps.procs p).pid then
        s.stderr ++ ["ERROR: Wrong line in tracefile recieved.\n"] else s.stderr } := by
    rw [reading, ← hp]
  rw [runLine, assert_ok hne, ok_bind]
  simp only [hscan, ← hread, hv, error_bind]

/-- Without a record, the program exits. -/
theorem runLine_eq_error (hne : (s.ps.procs p).currInterval ≠ .null)
    (hscan : ∀ pid vpn rest, fscanf simulatorFormat (c.text.drop s.cursor) ≠
      ⟨2, [pid, vpn], rest⟩) :
    s.runLine c p = .error (.exitFailure "Error reading from trace file.") := by
  rw [runLine, assert_ok hne, ok_bind]
  dsimp only
  split
  · next pid vpn hr hv =>
    refine absurd ?_ (hscan pid vpn (fscanf simulatorFormat (c.text.drop s.cursor)).rest)
    rw [← hr, ← hv]
  · rfl

/-! ### Hits and misses -/

section Hit

variable (ha : R.notifyPageAccess c.ndebug s.pager.mem s.pager.rep
  (s.pager.mem.vpages v).overhead = .ok rep)
include ha

/-- After the last line of an interval, the process jumps to the next one, if there is one. -/
theorem hit_jump (h : s.ps.WellFormed) (hq : s.ps.pq .RUNNABLE = p :: queue)
    (hl : (s.ps.procs p).onLastLineInInterval = true)
    (hi : (s.ps.procs p).hasIntervalsRemaining = true) :
    s.hit c p v = .ok ((s.accessed rep).jumped p) := by
  have hst : (s.ps.procs p).status = .RUNNABLE := h.status (hq ▸ List.mem_cons_self)
  have hst' : (s.ps.procs p).jumpToNextInterval.status ≠ .FINISHED := by
    simp [Process.jumpToNextInterval, hst]
  have hsw := h.switchStatus_eq (f := Process.jumpToNextInterval) .RUNNABLE c.ndebug hq rfl
  rw [hit, ha, ok_bind]
  dsimp only
  rw [if_pos ⟨hl, hi⟩]
  simp only [modify, seekSavedLine, Processes.modify_self]
  rw [assert_ok hst', ok_bind, ok_bind, hsw, ok_bind]
  rfl

/-- Within an interval, it goes on to the next line. -/
theorem hit_next (hl : (s.ps.procs p).onLastLineInInterval = false)
    (hn : (s.ps.procs p).hasLinesRemainingInInterval = true) :
    s.hit c p v = .ok ((s.accessed rep).modify p Process.nextLine) := by
  rw [hit, ha, ok_bind]
  dsimp only
  rw [if_neg (by simp [hl]), if_pos hn]
  rfl

/-- After its last line, it finishes. -/
theorem hit_finish (h : s.ps.WellFormed) (hq : s.ps.pq .RUNNABLE = p :: queue)
    (hl : (s.ps.procs p).onLastLineInInterval = true)
    (hi : (s.ps.procs p).hasIntervalsRemaining = false)
    (hne : (s.ps.procs p).pageTable ≠ [])
    (hf : (s.accessed rep).pager.freeAll c.ndebug
      ((c.tdestroy (s.ps.procs p).pageTable).map Prod.snd) = .ok pg) :
    s.hit c p v = .ok ((s.accessed rep).finished p pg) := by
  have hplaced := h.placed (h.lt (hq ▸ List.mem_cons_self))
  have hsw : (s.accessed rep).safelySwitchStatus c p .FINISHED 0 = _ :=
    safelySwitchStatus_finish 0 h hq (hplaced.finished hl hi) hne hf
  rw [hit, ha, ok_bind]
  dsimp only
  rw [if_neg (by simp [hi]), if_neg (by simp [hplaced.onLastLine_iff.1 hl])]
  exact (congrArg (· >>= _) hsw).trans rfl

end Hit

/-- A miss blocks the process. -/
theorem miss_eq (fpos : ℕ) (h : s.ps.WellFormed) (hq : s.ps.pq .RUNNABLE = p :: queue) :
    s.miss c p v fpos = .ok (s.blocked c p v fpos) := by
  set s₁ : Sim R := ({ s with stat := s.stat.miss } : Sim R).modify p fun p =>
    { p with waitTime := c.diskPenalty, waitingOnPage := some v } with hs₁
  have hps : s₁.ps.WellFormed :=
    h.modify (f := fun p => { p with waitTime := c.diskPenalty, waitingOnPage := some v })
      rfl rfl rfl fun hp => { hp with }
  have hsw := safelySwitchStatus_block (c := c) fpos hps (p := p) hq (by simp [hs₁, modify])
  exact hsw.trans (by simp [hs₁, blocked, modify, Processes.modify])

end Scheduling

/-! ## With memory -/

section Loading

variable [R.Lawful] {queue : List ProcId} {v : PageId} {ppn : ℕ} {victim : Option PageId}
  {pg : Pager R} {rep : R.State}

/-- A frame has been found for a page to load, in the place of `victim` if
    memory was full. -/
structure Frees (s : Sim R) (ppn : ℕ) (victim : Option PageId) (pg : Pager R) : Prop where
  wellFormed : pg.WellFormed
  lt : ppn < pg.mem.tracked
  empty : pg.mem.memory ppn = none
  cases : (s.pager.mem.hasFreePage = true ∧ victim = none ∧ pg = s.pager) ∨
    (s.pager.mem.hasFreePage = false ∧ ∃ u, victim = some u ∧ s.pager.mem.memory ppn = some u ∧
      pg.mem = s.pager.mem.evicted ppn u)

/-- A frame is found for the page, unless one is free of which there is no bit. -/
theorem findFrame_cases (h : s.WellFormed c) :
    (s.pager.mem.tracked ≤ s.pager.mem.allocated ∧ s.pager.mem.hasFreePage = true ∧
      ∃ msg, s.findFrame c = .error (.exitFailure msg)) ∨
    ∃ ppn victim pg, s.findFrame c = .ok (ppn, victim, pg) ∧ s.Frees ppn victim pg := by
  have hm := h.pager.mem
  rw [findFrame]
  cases hfree : s.pager.mem.hasFreePage with
  | true =>
    rw [if_pos rfl]
    by_cases ha : s.pager.mem.allocated < s.pager.mem.tracked
    · obtain ⟨ppn, hget, hlt, hempty, -⟩ := Memory.getFreePage_eq_ok hm ha
      exact .inr ⟨ppn, none, s.pager, by rw [hget, ok_bind],
        h.pager, hlt, hempty, .inl ⟨hfree, rfl, rfl⟩⟩
    · obtain ⟨msg, hget⟩ := Memory.getFreePage_eq_error hm ha
      exact .inl ⟨not_lt.1 ha, rfl, msg, by rw [hget, error_bind]⟩
  | false =>
    have hpos : 0 < s.pager.mem.memSize := h.memSize ▸ c.frames_pos
    obtain ⟨ppn, u, rep, hget, hu, ht⟩ :=
      ReplaceModule.Lawful.getPageToEvict_ok c.ndebug hm h.pager.tracks hpos hfree
    refine .inr ⟨ppn, some u, ⟨s.pager.mem.evicted ppn u, rep⟩, ?_, ⟨hm.evicted hu, ht⟩,
      hm.frame_lt hu, ?_, .inr ⟨hfree, u, rfl, hu, rfl⟩⟩
    · simp only [hget, ok_bind, Memory.evictPage_eq hm hu, hu, Bool.false_eq_true, if_false]
    · simp [Memory.evicted]

/-- The frame found is free. -/
theorem findFrame_ok (h : s.WellFormed c) (hf : s.findFrame c = .ok (ppn, victim, pg)) :
    s.Frees ppn victim pg := by
  rcases findFrame_cases h with ⟨_, _, msg, he⟩ | ⟨ppn', victim', pg', he, hfr⟩
  · rw [he] at hf
    cases hf
  · rw [he] at hf
    cases hf
    exact hfr

/-- Emptying a frame keeps the pages, but for one of them leaving memory. -/
theorem Frees.keeps (hf : s.Frees ppn victim pg) (v : PageId) :
    s.pager.mem.Keeps pg.mem v := by
  rcases hf.cases with ⟨_, _, rfl⟩ | ⟨_, u, _, _, he⟩
  · exact .refl _ v
  · exact he ▸ Memory.keeps_evicted

theorem Frees.memSize (hf : s.Frees ppn victim pg) :
    pg.mem.memSize = s.pager.mem.memSize := by
  rcases hf.cases with ⟨_, _, rfl⟩ | ⟨_, u, _, _, he⟩
  · rfl
  · rw [he]
    rfl

/-- The end of an I/O, once a frame is found. -/
theorem completion_eq (h : s.WellFormed c) (hq : s.ps.pq .BLOCKED = q :: queue)
    (hw : (s.ps.procs q).waitTime = 0) (hv : (s.ps.procs q).waitingOnPage = some v)
    (hf : s.findFrame c = .ok (ppn, victim, pg))
    (hl : R.notifyPageLoad c.ndebug (pg.mem.loaded v ppn) pg.rep (pg.mem.vpages v).overhead =
      .ok rep) :
    s.completion c = .ok (.completion q v ppn victim,
      s.completed q ⟨pg.mem.loaded v ppn, rep⟩) := by
  have hst : (s.ps.procs q).status = .BLOCKED := h.ps.status (hq ▸ List.mem_cons_self)
  have hpeek : s.ps.peek .BLOCKED = some q := by rw [Processes.peek, hq, List.head?_cons]
  have hfr := findFrame_ok h hf
  have hfin : finishCurrentDiskIo c s = .ok (.completion q v ppn victim,
      ({ s with pager := ⟨pg.mem.loaded v ppn, rep⟩ } : Sim R).modify q
        fun p => { p with waitingOnPage := none }) := by
    rw [finishCurrentDiskIo, hpeek]
    simp only [assert_ok hst, assert_ok hw, ok_bind, hv, hf,
      Memory.loadPage_eq hfr.lt hfr.empty, Memory.overhead_loaded, hl]
    rw [assert_ok (by simp), ok_bind]
  set s₁ : Sim R := ({ s with pager := ⟨pg.mem.loaded v ppn, rep⟩ } : Sim R).modify q
    fun p => { p with waitingOnPage := none } with hs₁
  have hps : s₁.ps.WellFormed :=
    h.ps.modify (f := fun p => { p with waitingOnPage := none }) rfl rfl rfl fun hp => { hp with }
  have hpeek₁ : s₁.ps.peek .BLOCKED = some q := hpeek
  have hsw := safelySwitchStatus_resume (c := c) 0 hps (show s₁.ps.pq _ = _ from hq)
    (by simpa [hs₁, modify] using hw)
  rw [completion, hfin, ok_bind]
  simp only [hpeek₁, hsw, ok_bind]
  simp [completed, hs₁, modify]

/-- Without a frame, the program exits. -/
theorem completion_eq_error (h : s.WellFormed c) (hq : s.ps.pq .BLOCKED = q :: queue)
    (hw : (s.ps.procs q).waitTime = 0) {msg : String}
    (hf : s.findFrame c = .error (.exitFailure msg)) :
    s.completion c = .error (.exitFailure msg) := by
  have hmem : q ∈ s.ps.pq .BLOCKED := hq ▸ List.mem_cons_self
  have hst : (s.ps.procs q).status = .BLOCKED := h.ps.status hmem
  have hpeek : s.ps.peek .BLOCKED = some q := by rw [Processes.peek, hq, List.head?_cons]
  obtain ⟨_, vpn, _, v, _, hv, -⟩ := (h.settled (h.ps.lt hmem)).awaits hst
  rw [completion, finishCurrentDiskIo, hpeek]
  simp only [assert_ok hst, assert_ok hw, ok_bind, hv, hf]
  rw [assert_ok (by simp)]
  rfl

end Loading

end Pfsim.Sim
