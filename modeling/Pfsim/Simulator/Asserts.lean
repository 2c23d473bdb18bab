import Pfsim.Machine.Loop
import Pfsim.Simulator.Reachable

/-!
# Assertions

The debug build keeps the assertions that the default one compiles out (`-DNDEBUG`). Each
function of it does what it does in the default build, unless an assertion fails (`Checks`),
and so does an iteration of the simulation, from any state (`Sim.step_checks`).

* `Setup.build_sameSteps`: as no assertion fails along a run, the two builds take the same
  steps, from all states reached.
-/

namespace Pfsim

/-- The first one does what the second one does, unless an assertion of it fails. -/
def Checks {α : Type} (x y : Except Stop α) : Prop :=
  x = y ∨ ∃ text, x = .error (.assertFailed text)

namespace Checks

variable {α β : Type} {x y : Except Stop α}

theorem refl (x : Except Stop α) : Checks x x := .inl rfl

/-- An assertion, compiled out. -/
theorem assert {cond : Prop} [Decidable cond] {text : String} :
    Checks (Pfsim.assert false cond text) (Pfsim.assert true cond text) := by
  by_cases h : cond
  · rw [assert_ok h, assert_ok h]
    exact .refl _
  · exact .inr ⟨text, if_neg (by simp [h])⟩

/-- Of two steps in a row, each. -/
theorem bind {f g : α → Except Stop β} (h : Checks x y) (hf : ∀ a, Checks (f a) (g a)) :
    Checks (x >>= f) (y >>= g) := by
  rcases h with rfl | ⟨text, rfl⟩
  · cases x with
    | error e => exact .refl _
    | ok a => exact hf a
  · exact .inr ⟨text, rfl⟩

/-- A branch which both take. -/
theorem ite {p : Prop} [Decidable p] {x' y' : Except Stop α} (h : p → Checks x y)
    (h' : ¬p → Checks x' y') : Checks (if p then x else x') (if p then y else y') := by
  split
  · next hp => exact h hp
  · next hp => exact h' hp

/-- Without a failed assertion, there is no difference. -/
theorem eq (h : Checks x y) (hx : ∀ text, x ≠ .error (.assertFailed text)) : x = y :=
  h.resolve_right fun ⟨text, he⟩ => hx text he

end Checks

/-! ## Replacement modules -/

namespace ReplaceModule

variable (R : ReplaceModule)

/-- The operations of a module differ in the assertions only. -/
class Guarded : Prop where
  freeOverhead (r : R.State) (o : Option PageId) :
    Checks (R.freeOverhead false r o) (R.freeOverhead true r o)
  notifyPageAccess (m : Memory) (r : R.State) (o : Option PageId) :
    Checks (R.notifyPageAccess false m r o) (R.notifyPageAccess true m r o)
  notifyPageLoad (m : Memory) (r : R.State) (o : Option PageId) :
    Checks (R.notifyPageLoad false m r o) (R.notifyPageLoad true m r o)
  getPageToEvict (m : Memory) (r : R.State) :
    Checks (R.getPageToEvict false m r) (R.getPageToEvict true m r)

end ReplaceModule

namespace PageQueue

variable (q : PageQueue) (o : Option PageId)

/-- Freeing an overhead checks that there is one, and the number of pages queued. -/
theorem freeOverhead_checks : Checks (freeOverhead false q o) (freeOverhead true q o) :=
  Checks.assert.bind fun _ => Checks.assert.bind fun _ => .refl _

/-- A page hit is checked to be queued. -/
theorem moveToTail_checks : Checks (moveToTail false q o) (moveToTail true q o) :=
  Checks.assert.bind fun _ => Checks.assert.bind fun _ => (Checks.refl _).bind fun _ =>
    (Checks.refl _).bind fun _ => Checks.assert.bind fun _ => .refl _

/-- A page loaded is checked not to be queued yet. -/
theorem notifyPageLoad_checks : Checks (notifyPageLoad false q o) (notifyPageLoad true q o) :=
  Checks.assert.bind fun _ => Checks.assert.bind fun _ => (Checks.refl _).bind fun _ =>
    (Checks.refl _).bind fun _ => Checks.assert.bind fun _ => .refl _

theorem getPageToEvict_checks (m : Memory) :
    Checks (getPageToEvict false m q) (getPageToEvict true m q) :=
  Checks.assert.bind fun _ => .refl _

end PageQueue

namespace Clock

variable (m : Memory) (k : Clock)

theorem notifyPageAccess_checks (o : Option PageId) :
    Checks (notifyPageAccess false m k o) (notifyPageAccess true m k o) :=
  (Checks.refl _).bind fun _ => Checks.assert.bind fun _ => .refl _

theorem getPageToEvict_checks : Checks (getPageToEvict false m k) (getPageToEvict true m k) :=
  Checks.assert.bind fun _ => .refl _

end Clock

/-- All builds. -/
instance (π : Policy) : π.replace.Guarded := by
  cases π with
  | lru =>
    exact ⟨PageQueue.freeOverhead_checks, fun _ => PageQueue.moveToTail_checks,
      fun _ => PageQueue.notifyPageLoad_checks, fun m q => PageQueue.getPageToEvict_checks q m⟩
  | fifo =>
    exact ⟨PageQueue.freeOverhead_checks, fun _ _ _ => .refl _,
      fun _ => PageQueue.notifyPageLoad_checks, fun m q => PageQueue.getPageToEvict_checks q m⟩
  | clock =>
    exact ⟨fun _ _ => .refl _, Clock.notifyPageAccess_checks, Clock.notifyPageAccess_checks,
      Clock.getPageToEvict_checks⟩
  | random rand =>
    exact ⟨fun _ _ => .refl _, fun _ _ _ => .refl _, fun _ _ _ => .refl _, fun _ _ => .refl _⟩

/-! ## Memory and processes -/

/-- A page is checked not to be loaded over another one. -/
theorem Memory.loadPage_checks (m : Memory) (v : PageId) (ppn : ℕ) :
    Checks (m.loadPage false v ppn) (m.loadPage true v ppn) :=
  .ite (fun _ => .refl _) fun _ => Checks.assert.bind fun _ => .refl _

namespace Pager

variable {R : ReplaceModule}

/-- A new page, if the assertion on its overhead holds. -/
theorem initVPage_checks {overhead : ℕ}
    (h : R.assertOverhead false overhead = R.assertOverhead true overhead) (pg : Pager R)
    (pid vpn : ℕ) :
    Checks (pg.initVPage false overhead pid vpn) (pg.initVPage true overhead pid vpn) :=
  .ite (fun _ => Checks.bind (.inl h) fun _ => .refl _) fun _ => .refl _

variable [R.Guarded]

/-- A page is freed with its overhead. -/
theorem freeVPage_checks (pg : Pager R) (v : PageId) :
    Checks (pg.freeVPage false v) (pg.freeVPage true v) :=
  (Checks.refl _).bind fun _ => (Checks.ite (fun _ => .refl _) fun _ =>
    ReplaceModule.Guarded.freeOverhead _ _).bind fun _ => .refl _

/-- All pages of a process are freed, in turn. -/
theorem freeAll_checks (pg : Pager R) (vs : List PageId) :
    Checks (pg.freeAll false vs) (pg.freeAll true vs) := by
  induction vs generalizing pg with
  | nil => exact .refl _
  | cons v vs ih => exact (pg.freeVPage_checks v).bind ih

end Pager

namespace Processes

variable (ps : Processes) (p : ProcId)

/-- The processes gone over are checked to have other numbers. -/
theorem enqueuePriority_checks (l : List ProcId) :
    Checks (ps.enqueuePriority false p l) (ps.enqueuePriority true p l) := by
  induction l with
  | nil => exact .refl _
  | cons curr q ih =>
    exact Checks.assert.bind fun _ => .ite (fun _ => .refl _) fun _ => ih.bind fun _ => .refl _

theorem enqueue_checks (status : ProcessStatus) :
    Checks (ps.enqueue false p status) (ps.enqueue true p status) :=
  .ite (fun _ => (ps.enqueuePriority_checks p _).bind fun _ => .refl _) fun _ => .refl _

/-- Switching queues checks what queueing does. -/
theorem switchStatus_checks (s1 s2 : ProcessStatus) :
    Checks (ps.switchStatus false s1 s2) (ps.switchStatus true s1 s2) := by
  rw [switchStatus, switchStatus]
  cases ps.pq s1 with
  | nil => exact .refl _
  | cons p q => exact (enqueue_checks _ p s2).bind fun _ => .refl _

end Processes

/-! ## The simulator -/

/-- The build without assertions, if `ndebug` is defined, or with them. -/
def Setup.build (c : Setup) (ndebug : Bool) : Setup := { c with ndebug }

namespace Sim

variable {R : ReplaceModule} (c : Setup) (s : Sim R) (p : ProcId)

/-- The cursor does not go to the position of a finished process. -/
theorem seekSavedLine_checks :
    Checks (s.seekSavedLine (c.build false) p) (s.seekSavedLine (c.build true) p) :=
  Checks.assert.bind fun _ => .refl _

/-- The process is the first one of its status, and its timer is over if it was blocked. -/
theorem leaveStatus_checks (old : ProcessStatus) (fpos : ℕ) :
    Checks (s.leaveStatus (c.build false) p old fpos)
      (s.leaveStatus (c.build true) p old fpos) := by
  refine Checks.assert.bind fun _ => ?_
  cases old with
  | RUNNABLE | FINISHED => exact .refl _
  | BLOCKED => exact Checks.assert.bind fun _ => .refl _

/-- A context switch checks what going to the saved position does. -/
theorem contextSwitch_checks :
    Checks (s.contextSwitch (c.build false) p) (s.contextSwitch (c.build true) p) :=
  .ite (fun _ => .ite (fun _ => seekSavedLine_checks c _ p) fun _ => .refl _) fun _ => .refl _

/-- The timer is checked not to be over before the jump, and to be at a tick after it. -/
theorem skipIdle_checks : Checks (s.skipIdle (c.build false)) (s.skipIdle (c.build true)) := by
  rw [skipIdle, skipIdle]
  cases s.ps.peek .BLOCKED with
  | none => exact .refl _
  | some b => exact Checks.assert.bind fun _ => Checks.assert.bind fun _ => .refl _

/-- If the assertion on the overhead of a new page holds. -/
theorem virtualPage_checks (vpn : ℕ)
    (hov : ∀ v, R.assertOverhead false (c.overhead v) = R.assertOverhead true (c.overhead v)) :
    Checks (s.virtualPage (c.build false) p vpn) (s.virtualPage (c.build true) p vpn) := by
  refine (Checks.refl _).bind fun _ => ?_
  cases (s.ps.procs p).getVirtualPage vpn with
  | some v => exact .refl _
  | none =>
    exact (Pager.initVPage_checks (hov _) _ _ _).bind fun _ => Checks.assert.bind fun _ => .refl _

variable [R.Guarded]

theorem findFrame_checks : Checks (s.findFrame (c.build false)) (s.findFrame (c.build true)) :=
  .ite (fun _ => .refl _) fun _ => (ReplaceModule.Guarded.getPageToEvict _ _).bind fun _ => .refl _

/-- The process which resumes was blocked, and the page it waited for is there to load. -/
theorem finishCurrentDiskIo_checks :
    Checks (finishCurrentDiskIo (c.build false) s) (finishCurrentDiskIo (c.build true) s) := by
  rw [finishCurrentDiskIo, finishCurrentDiskIo]
  cases s.ps.peek .BLOCKED with
  | none => exact .refl _
  | some p =>
    refine Checks.assert.bind fun _ => Checks.assert.bind fun _ => Checks.assert.bind fun _ => ?_
    cases (s.ps.procs p).waitingOnPage with
    | none => exact .refl _
    | some v =>
      exact (findFrame_checks c s).bind fun x => (x.2.2.mem.loadPage_checks v x.1).bind fun mem =>
        (ReplaceModule.Guarded.notifyPageLoad _ _ _).bind fun _ => .refl _

/-- The timer is set for a process which blocks, and one which finishes has no lines left. -/
theorem enterStatus_checks (new : ProcessStatus) :
    Checks (s.enterStatus (c.build false) p new) (s.enterStatus (c.build true) p new) := by
  cases new with
  | RUNNABLE => exact seekSavedLine_checks c s p
  | BLOCKED => exact Checks.assert.bind fun _ => .refl _
  | FINISHED =>
    exact Checks.assert.bind fun _ => (Checks.refl _).bind fun _ =>
      (Pager.freeAll_checks _ _).bind fun _ => .refl _

/-- A status is left, the queue changes, and the other status is entered. -/
theorem safelySwitchStatus_checks (new : ProcessStatus) (fpos : ℕ) :
    Checks (s.safelySwitchStatus (c.build false) p new fpos)
      (s.safelySwitchStatus (c.build true) p new fpos) :=
  (leaveStatus_checks c s p _ fpos).bind fun _ =>
    (Processes.switchStatus_checks _ _ _).bind fun _ =>
      .ite (fun _ => .refl _) fun _ => enterStatus_checks c _ p new

theorem completion_checks :
    Checks (s.completion (c.build false)) (s.completion (c.build true)) := by
  refine (finishCurrentDiskIo_checks c s).bind fun x => ?_
  dsimp only
  cases x.2.ps.peek .BLOCKED with
  | none => exact .refl _
  | some p => exact (safelySwitchStatus_checks c _ p _ 0).bind fun _ => .refl _

/-- The replacement module is told, and the process goes on, or finishes. -/
theorem hit_checks (v : PageId) :
    Checks (s.hit (c.build false) p v) (s.hit (c.build true) p v) :=
  (ReplaceModule.Guarded.notifyPageAccess _ _ _).bind fun _ => .ite
    (fun _ => (seekSavedLine_checks c _ p).bind fun _ =>
      (Processes.switchStatus_checks _ _ _).bind fun _ => .refl _)
    fun _ => .ite (fun _ => .refl _) fun _ =>
      (safelySwitchStatus_checks c _ p _ 0).bind fun _ => .refl _

section NewPages

variable (hov : ∀ v, R.assertOverhead false (c.overhead v) = R.assertOverhead true (c.overhead v))
include hov

/-- A line is run, the assertion on the overhead of a new page apart. -/
theorem runLine_checks : Checks (s.runLine (c.build false) p) (s.runLine (c.build true) p) := by
  refine Checks.assert.bind fun _ => ?_
  have htext : (c.build true).text = (c.build false).text := rfl
  dsimp only
  rw [htext]
  generalize fscanf simulatorFormat ((c.build false).text.drop s.cursor) = scanned
  split
  · exact (virtualPage_checks c _ p _ hov).bind fun x => .ite
      (fun _ => .ite (fun _ => .refl _) fun _ => (hit_checks c _ p _).bind fun _ => .refl _)
      fun _ => (safelySwitchStatus_checks c _ p _ s.cursor).bind fun _ => .refl _
  · exact .refl _

/-- An iteration of the debug build, from any state. -/
theorem step_checks (fast : Bool) :
    Checks (s.step (c.build false) fast) (s.step (c.build true) fast) := by
  rw [step, step]
  refine .ite (fun _ => completion_checks c _) fun _ => ?_
  cases ((s.pass CLOCK_TICK).countDown).ps.peek .RUNNABLE with
  | none => exact .ite (fun _ => skipIdle_checks c _) fun _ => .refl _
  | some h => exact (contextSwitch_checks c _ h).bind fun s => runLine_checks c s h hov

end NewPages

end Sim

/-! ## Runs -/

variable {R : ReplaceModule} [R.Lawful] [R.Guarded] {c : Setup} {s s₀ : Sim R}

/-- The iterations of the two builds are the same, if the assertion on the overhead of a new
    page holds. -/
theorem Setup.build_sameSteps (c : Setup)
    (hov : ∀ v, R.assertOverhead false (c.overhead v) = R.assertOverhead true (c.overhead v)) :
    Machine.SameSteps ((c.build false).machine R)
    ((c.build true).machine R) ((c.build false).Reachable R) where
  running _ := rfl
  step s hs hr := by
    exact ((s.step_checks c hov true).eq fun text he => hs.step_ne_assertFailed hr text he).symm
  keeps {s l s'} hs hr hstep := by
    obtain ⟨s₀, h₀, h⟩ := hs
    exact ⟨s₀, h₀, h.step hr hstep⟩

end Pfsim
