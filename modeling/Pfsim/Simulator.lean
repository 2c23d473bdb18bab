import Pfsim.Machine.Run
import Pfsim.TraceParser

/-!
# The simulator

The simulation loop, as a machine (`Setup.machine`) whose steps are its
iterations. At each tick of the clock, the disk timer of the process at the
head of the blocked ones counts down:

* if it is over, the page is loaded, a victim being evicted if memory is full,
  and the process resumes;
* otherwise, if no process is runnable, the clock is moved to the last tick
  before the timer is over;
* otherwise the first runnable process runs the next line of the trace file: a
  hit if the page is in memory, after which the process goes on to its next
  line, or finishes; a miss if it is not, which blocks the process.

There is one file cursor, moved by reading and by `fseek`. It is moved to the
next line of a process when the process resumes (`safelySwitchStatus`), jumps to
its next interval (`hit`), or is found at the head of the queue in the place of
the process which ran last (`contextSwitch`).
-/

namespace Pfsim

/-- The statistics. -/
structure Stat where
  tmu : ℕ
  trp : ℕ
  tmr : ℕ
  tpi : ℕ
  deriving DecidableEq

namespace Stat

/-- `Stat_init`. -/
def init : Stat := ⟨0, 0, 0, 0⟩

/-- `Stat_default`, the number of allocated pages being `allocPages`, and
    `runnable` whether there is a runnable process. The counters do not wrap here, as those of
    64 bits do (`counters_fit` tells how large they get). -/
def default (st : Stat) (numTicks allocPages : ℕ) (runnable : Bool) : Stat :=
  { st with tmu := st.tmu + allocPages * numTicks, trp := st.trp + runnable.toNat * numTicks }

/-- `Stat_hit`. -/
def hit (st : Stat) : Stat := { st with tmr := st.tmr + 1 }

/-- `Stat_miss`. -/
def miss (st : Stat) : Stat := { st with tpi := st.tpi + 1 }

end Stat

/-- `CLOCK_TICK`, in nanoseconds. -/
def CLOCK_TICK : ℕ := 1

/-- `DISK_PENALTY`, in nanoseconds. -/
def DISK_PENALTY : ℕ := 2000000

theorem DISK_PENALTY_pos : 0 < DISK_PENALTY := by decide

/-- What a run of the program depends on, besides the replacement module: how
    it is compiled, the size of memory, the trace file, and what the language
    and its library leave open. -/
structure Setup where
  /-- Whether assertions are compiled out. -/
  ndebug : Bool
  /-- The constant `DISK_PENALTY`. -/
  diskPenalty : ℕ
  /-- The static assertion on it. (It is a multiple of `CLOCK_TICK`, which is `1`.) -/
  diskPenalty_pos : 0 < diskPenalty
  /-- The number of physical pages. -/
  frames : ℕ
  frames_pos : 0 < frames
  /-- The contents of the trace file. -/
  text : List Char
  /-- What the memory of the variable `curr_pid` of `first_pass` holds, at each
      line, until it is assigned. -/
  slot : ℕ → ℕ
  /-- What `malloc` leaves in the root of the page table of each process, which
      `PageTable_init` does not write: `0` is `NULL`, and nothing else is a tree. -/
  root : ProcId → ℕ
  /-- What `malloc` leaves in the field `overhead` of each virtual page. -/
  overhead : PageId → ℕ
  /-- The order in which `tdestroy` visits the nodes of a page table. -/
  tdestroy : PageTable → PageTable
  tdestroy_perm : ∀ pt, (tdestroy pt).Perm pt

/-- `malloc` leaves `NULL` in what is used before it is written: in the roots of the page tables,
    and, where assertions are compiled, in the overheads. -/
structure Setup.Blank (c : Setup) : Prop where
  root : ∀ p, c.root p = 0
  overhead : c.ndebug = true ∨ ∀ v, c.overhead v = 0

/-- The state of the simulator at the head of its loop. -/
structure Sim (R : ReplaceModule) where
  /-- The time in nanoseconds. -/
  time : ℕ
  /-- The variable `p`, the process which ran last. -/
  p : Option ProcId
  /-- The position in the trace file. -/
  cursor : ℕ
  ps : Processes
  pager : Pager R
  stat : Stat
  /-- The messages of the loop, besides those before an exit. -/
  stderr : List String

/-- A memory reference run: by the process `p`, on its line `line`, read at the
    offset `fpos`, where the file has `pid` and `vpn`; `v` is the virtual page
    of `p`. -/
structure Reference where
  p : ProcId
  line : ℕ
  fpos : ℕ
  pid : ℕ
  vpn : ℕ
  v : PageId
  deriving DecidableEq

/-- What an iteration of the loop comes to. -/
inductive Event
  /-- The I/O of the process `p` is over: its page `v` is loaded in the frame
      `ppn`, in the place of `victim` if memory was full. -/
  | completion (p : ProcId) (v : PageId) (ppn : ℕ) (victim : Option PageId)
  /-- All processes are waiting. -/
  | idle
  | hit (r : Reference)
  | miss (r : Reference)
  deriving DecidableEq

/-- Nothing happens but the passing of time. -/
def Event.silent : Event → Bool
  | idle => true
  | _ => false

namespace Sim

variable {R : ReplaceModule} (c : Setup) (s : Sim R)

/-- `Simulator_notDone`. -/
def notDone : Bool := s.ps.existsWithStatus .RUNNABLE || s.ps.existsWithStatus .BLOCKED

/-- The passing of time, accounted for by `Stat_default`. -/
def pass (ticks : ℕ) : Sim R :=
  { s with
    time := s.time + ticks
    stat := s.stat.default ticks s.pager.mem.howManyAllocPages (s.ps.existsWithStatus .RUNNABLE) }

/-- Writing to the fields of a process. -/
def modify (p : ProcId) (f : Process → Process) : Sim R := { s with ps := s.ps.modify p f }

/-- `Simulator_seekSavedLine`, `fseek` to an offset within the file. -/
def seekSavedLine (p : ProcId) : Except Stop (Sim R) := do
  assert c.ndebug ((s.ps.procs p).status ≠ .FINISHED) "p != NULL && p->status != FINISHED"
  .ok { s with cursor := (s.ps.procs p).currentPos }

/-- The frame for a page to load, emptied if need be, with the page it held. -/
def findFrame : Except Stop (ℕ × Option PageId × Pager R) :=
  if s.pager.mem.hasFreePage then do
    let ppn ← s.pager.mem.getFreePage
    .ok (ppn, none, s.pager)
  else do
    let (ppn, rep) ← R.getPageToEvict c.ndebug s.pager.mem s.pager.rep
    let mem ← s.pager.mem.evictPage ppn
    .ok (ppn, s.pager.mem.memory ppn, ⟨mem, rep⟩)

/-- `Simulator_finishCurrentDiskIO`, with what it has done. -/
def finishCurrentDiskIo : Except Stop (Event × Sim R) :=
  match s.ps.peek .BLOCKED with
  | none => .error (.undefined "Process_peek(BLOCKED) is NULL")
  | some p => do
    assert c.ndebug ((s.ps.procs p).status = .BLOCKED) "p != NULL && p->status == BLOCKED"
    assert c.ndebug ((s.ps.procs p).waitTime = 0) "p->waitTime == 0"
    assert c.ndebug ((s.ps.procs p).waitingOnPage ≠ none) "p->waitingOnPage != NULL"
    match (s.ps.procs p).waitingOnPage with
    | none => .error (.undefined "p->waitingOnPage is NULL")
    | some v => do
      let (ppn, victim, pager) ← s.findFrame c
      let mem ← pager.mem.loadPage c.ndebug v ppn
      let rep ← R.notifyPageLoad c.ndebug mem pager.rep (mem.vpages v).overhead
      let s := { s with pager := ⟨mem, rep⟩ }
      .ok (.completion p v ppn victim, s.modify p fun p => { p with waitingOnPage := none })

/-- `*p->pageTable`: until the process has a page, what `malloc` left there. -/
def pageTable (p : ProcId) : Except Stop PageTable :=
  if (s.ps.procs p).pageTable = [] ∧ c.root p ≠ 0 then
    .error (.undefined "*p->pageTable is not written")
  else .ok (s.ps.procs p).pageTable

/-- `Process_quit`, which ends with `Process_free`. -/
def quit (p : ProcId) : Except Stop (Sim R) := do
  let pt ← s.pageTable c p
  let pager ← s.pager.freeAll c.ndebug ((c.tdestroy pt).map Prod.snd)
  .ok { s with pager := pager, ps := s.ps.free p }

/-- The first part of `Simulator_safelySwitchStatus`: leaving the status `old`. -/
def leaveStatus (p : ProcId) (old : ProcessStatus) (fpos : ℕ) : Except Stop (Sim R) := do
  assert c.ndebug (s.ps.peek old = some p) "Process_peek(old) == p"
  match old with
  | .RUNNABLE =>
    match s.ps.peek .RUNNABLE with
    | none => .error (.undefined "Process_peek(RUNNABLE) is NULL")
    | some h => .ok (s.modify h fun p => { p with currentPos := fpos })
  | .BLOCKED => do
    assert c.ndebug ((s.ps.procs p).waitTime = 0) "p->waitTime == 0"
    .ok s
  | .FINISHED =>
    .error (.exitFailure "ERROR: Attempted to resume already-finished process.\n")

/-- The last part of `Simulator_safelySwitchStatus`: entering the status `new`. -/
def enterStatus (p : ProcId) (new : ProcessStatus) : Except Stop (Sim R) :=
  match new with
  | .RUNNABLE => s.seekSavedLine c p
  | .BLOCKED => do
    assert c.ndebug ((s.ps.procs p).waitTime = c.diskPenalty) "p->waitTime == DISK_PENALTY"
    .ok s
  | .FINISHED => do
    assert c.ndebug ((s.ps.procs p).hasLinesRemainingInFile = false)
      "!Process_hasLinesRemainingInFile(p)"
    s.quit c p

/-- `Simulator_safelySwitchStatus`. -/
def safelySwitchStatus (p : ProcId) (new : ProcessStatus) (fpos : ℕ) : Except Stop (Sim R) := do
  let old := (s.ps.procs p).status
  let s ← s.leaveStatus c p old fpos
  let (moved, ps) ← s.ps.switchStatus c.ndebug old new
  if moved ≠ some p then
    .error (.exitFailure ("ERROR: Corruption in process queue. Do not modify data " ++
      "structures concurrently with execution."))
  else
    let s := { s with ps := ps }
    s.enterStatus c p new

/-- The end of an I/O: the page is loaded, and the process resumes. -/
def completion : Except Stop (Event × Sim R) := do
  let (e, s) ← finishCurrentDiskIo c s
  match s.ps.peek .BLOCKED with
  | none => .error (.undefined "Process_peek(BLOCKED) is NULL")
  | some p => do
    let s ← s.safelySwitchStatus c p .RUNNABLE 0
    .ok (e, s)

/-- When all processes are blocked, the jump to the time where one finishes
    waiting, but for a tick. -/
def skipIdle : Except Stop (Event × Sim R) :=
  match s.ps.peek .BLOCKED with
  | none => .error (.undefined "Process_peek(BLOCKED) is NULL")
  | some b => do
    assert c.ndebug ((s.ps.procs b).waitTime ≠ 0) "(Process_peek(BLOCKED))->waitTime != 0"
    let skip := CLOCK_TICK * ((s.ps.procs b).waitTime - 1)
    let s := (s.pass skip).modify b fun p => { p with waitTime := p.waitTime - skip }
    assert c.ndebug ((s.ps.procs b).waitTime = 1) "(Process_peek(BLOCKED))->waitTime == 1"
    .ok (.idle, s)

/-- Upon a context switch to `h`, the jump to its position. -/
def contextSwitch (h : ProcId) : Except Stop (Sim R) :=
  if s.p ≠ some h then
    let s := { s with p := some h }
    if (s.ps.procs h).currentPos ≠ s.cursor then s.seekSavedLine c h else .ok s
  else .ok s

/-- The virtual page of the process `p`, made if it has none yet. -/
def virtualPage (p : ProcId) (vpn : ℕ) : Except Stop (PageId × Sim R) := do
  -- The search starts at the root.
  let _ ← s.pageTable c p
  match (s.ps.procs p).getVirtualPage vpn with
  | some v => .ok (v, s)
  | none => do
    let (pager, v) ← s.pager.initVPage c.ndebug (c.overhead s.pager.mem.nextPage)
      (s.ps.procs p).pid vpn
    let s := { s with pager := pager }
    let s := s.modify p fun p => { p with pageTable := p.pageTable.add vpn v }
    assert c.ndebug ((s.ps.procs p).getVirtualPage vpn = some v)
      "Process_getVirtualPage(p, vpn) == v"
    .ok (v, s)

/-- A hit: `p` goes on to its next interval or line, or finishes. -/
def hit (p : ProcId) (v : PageId) : Except Stop (Sim R) := do
  let rep ← R.notifyPageAccess c.ndebug s.pager.mem s.pager.rep (s.pager.mem.vpages v).overhead
  let s := { s with stat := s.stat.hit, pager := ⟨s.pager.mem, rep⟩ }
  if (s.ps.procs p).onLastLineInInterval ∧ (s.ps.procs p).hasIntervalsRemaining then do
    let s ← (s.modify p Process.jumpToNextInterval).seekSavedLine c p
    let (_, ps) ← s.ps.switchStatus c.ndebug .RUNNABLE .RUNNABLE
    .ok { s with ps := ps }
  else if (s.ps.procs p).hasLinesRemainingInInterval then
    .ok (s.modify p fun p => { p with currentline := p.currentline + 1 })
  else do
    let s ← s.safelySwitchStatus c p .FINISHED 0
    .ok { s with p := none }

/-- A miss at the offset `fpos`: `p` waits for its page `v`. -/
def miss (p : ProcId) (v : PageId) (fpos : ℕ) : Except Stop (Sim R) :=
  let s := { s with stat := s.stat.miss }
  let s := s.modify p fun p => { p with waitTime := c.diskPenalty, waitingOnPage := some v }
  s.safelySwitchStatus c p .BLOCKED fpos

/-- The next line of the process `p` is read and run. -/
def runLine (p : ProcId) : Except Stop (Event × Sim R) := do
  assert c.ndebug ((s.ps.procs p).currInterval ≠ .null) "p->currInterval != NULL"
  let fpos := s.cursor
  let scanned := fscanf simulatorFormat (c.text.drop fpos)
  match scanned.result, scanned.values with
  | 2, [pid, vpn] => do
    let s := { s with
      cursor := c.text.length - scanned.rest.length
      stderr := if pid ≠ (s.ps.procs p).pid then
        s.stderr ++ ["ERROR: Wrong line in tracefile recieved.\n"] else s.stderr }
    let (v, s) ← s.virtualPage c p vpn
    let r : Reference := ⟨p, (s.ps.procs p).currentline, fpos, pid, vpn, v⟩
    if (s.ps.procs p).virtualPageInMemory s.pager.mem vpn then do
      if (s.ps.procs p).currInterval = .null then .error (.undefined "p->currInterval is NULL")
      else do
        let s ← s.hit c p v
        .ok (.hit r, s)
    else do
      let s ← s.miss c p v fpos
      .ok (.miss r, s)
  | _, _ => .error (.exitFailure "Error reading from trace file.")

/-- The countdown of the disk timer, for a tick. -/
def countDown : Sim R :=
  match s.ps.peek .BLOCKED with
  | none => s
  | some b => s.modify b fun p => { p with waitTime := p.waitTime - CLOCK_TICK }

/-- The disk timer is over. -/
def ioDue : Bool :=
  match s.ps.peek .BLOCKED with
  | none => false
  | some b => (s.ps.procs b).waitTime == 0

/-- An iteration of the loop. Without `fast`, idle time passes tick by tick. -/
def step (fast : Bool) : Except Stop (Event × Sim R) :=
  let s := (s.pass CLOCK_TICK).countDown
  if s.ioDue then s.completion c
  else match s.ps.peek .RUNNABLE with
    | none => if fast then s.skipIdle c else .ok (.idle, s)
    | some h => do
      let s ← s.contextSwitch c h
      s.runLine c h

/-- Before the loop: the file is rewound, and `p` is the first process. -/
def init (R : ReplaceModule) (c : Setup) (ps : Processes) : Sim R where
  time := 0
  p := ps.peek .RUNNABLE
  cursor := 0
  ps := ps
  pager := .init R c.frames
  stat := .init
  stderr := []

end Sim

namespace Setup

variable (c : Setup) (R : ReplaceModule)

/-- The simulation loop of the program. -/
def machine : Machine (Sim R) Event Stop := ⟨Sim.notDone, fun s => s.step c true⟩

/-- The simulation loop where idle time passes tick by tick. -/
def plainMachine : Machine (Sim R) Event Stop := ⟨Sim.notDone, fun s => s.step c false⟩

/-- The start of the simulation: the first pass over the trace file. -/
def start : Except Stop (Sim R) := do
  let ps ← firstPass c.slot c.text
  .ok (.init R c ps)

/-- The states at the head of the simulation loop. -/
def Reachable (s : Sim R) : Prop := ∃ s₀, c.start R = .ok s₀ ∧ (c.machine R).Reachable s₀ s

end Setup

end Pfsim
