import Pfsim.IntervalTree
import Pfsim.Pager

/-!
# Processes

The processes, behind pointers (`ProcId`), and the three queues they are in:
the runnable ones, in order of their positions in the trace file, the blocked
ones and the finished ones, in order of arrival. A process has its place in the
file (`currInterval`, `currentline` and the offset `currentPos`), the page it
waits for while the disk fetches it, and a page table.

Queues are lists. (A process is freed once it is finished, and the queue of
finished processes keeps its address: which processes are live is a field of
its own.)
-/

namespace Pfsim

/-! ## Search trees -/

/-- The comparisons given to `tsearch` and `tfind`. -/
def threeWay {κ : Type} [LinearOrder κ] (l r : κ) : ℤ :=
  if l < r then -1 else if l > r then 1 else 0

/-- `tfind`, in a search tree given as its entries in the order of their insertion: what is found
    is the entry whose key compares equal. -/
def tfind {κ ν : Type} (compare : κ → κ → ℤ) (key : κ) (tree : List (κ × ν)) : Option ν :=
  (tree.find? fun e => compare key e.1 = 0).map Prod.snd

theorem threeWay_eq_zero_iff {κ : Type} [LinearOrder κ] {l r : κ} : threeWay l r = 0 ↔ l = r := by
  rw [threeWay]
  split_ifs with hlt hgt
  · simp [hlt.ne]
  · simp [hgt.ne']
  · simp [le_antisymm (not_lt.1 hgt) (not_lt.1 hlt)]

/-- Keys compare equal only if they are. -/
theorem tfind_threeWay {κ ν : Type} [LinearOrder κ] (key : κ) (tree : List (κ × ν)) :
    tfind threeWay key tree = tree.lookup key := by
  induction tree with
  | nil => rfl
  | cons e tree ih =>
    rw [tfind] at ih ⊢
    rw [List.find?_cons, List.lookup_cons]
    by_cases he : key = e.1
    · simp [threeWay_eq_zero_iff, he]
    · have hb : (key == e.1) = false := beq_eq_false_iff_ne.2 he
      simpa [threeWay_eq_zero_iff, he, hb] using ih

/-! ## Processes -/

/-- The status of a process, and the queue it is in. -/
inductive ProcessStatus
  | RUNNABLE
  | BLOCKED
  | FINISHED
  deriving DecidableEq

/-- A pointer to a process. -/
abbrev ProcId := ℕ

/-- A page table, a search tree of pages ordered by virtual page number: its
    entries, in the order of their insertion, with the key they are found by. -/
abbrev PageTable := List (ℕ × PageId)

/-- A process. -/
structure Process where
  pid : ℕ
  status : ProcessStatus
  firstline : ℕ
  currentline : ℕ
  lastline : ℕ
  currentPos : ℕ
  currInterval : IntervalNode
  lineIntervals : IntervalNode
  /-- The timer for a disk operation, in ticks. -/
  waitTime : ℕ
  waitingOnPage : Option PageId
  pageTable : PageTable

/-- The processes, and their queues. -/
structure Processes where
  procs : ProcId → Process
  pq : ProcessStatus → List ProcId
  /-- The pointers to processes allocated and not freed. -/
  live : ProcId → Bool
  /-- The next pointer `malloc` gives to a process. -/
  nextProc : ProcId

namespace PageTable

/-- `PageTable_compare`, of the virtual page numbers of two pages. -/
def compare : ℕ → ℕ → ℤ := threeWay

/-- `PageTable_get`. -/
def get (pt : PageTable) (vpn : ℕ) : Option PageId := tfind compare vpn pt

/-- `PageTable_add`: nothing is added if the key is there. -/
def add (pt : PageTable) (vpn : ℕ) (v : PageId) : PageTable :=
  if (pt.get vpn).isSome then pt else pt ++ [(vpn, v)]

theorem get_eq_lookup (pt : PageTable) (vpn : ℕ) : pt.get vpn = pt.lookup vpn :=
  tfind_threeWay vpn pt

theorem perm_refl (pt : PageTable) : pt.Perm pt := .refl _

end PageTable

namespace Process

variable (p : Process)

/-- `Process_hasLinesRemainingInFile`. -/
def hasLinesRemainingInFile : Bool := p.currentline < p.lastline

/-- `Process_hasLinesRemainingInInterval`. -/
def hasLinesRemainingInInterval : Bool := p.currentline < p.currInterval.high

/-- `Process_onLastLineInInterval`. -/
def onLastLineInInterval : Bool := p.currInterval.high == p.currentline

/-- `Process_hasIntervalsRemaining`. -/
def hasIntervalsRemaining : Bool := p.currInterval.right ≠ .null

/-- `Process_jumpToNextInterval`. -/
def jumpToNextInterval : Process :=
  { p with
    currInterval := p.currInterval.right
    currentline := p.currInterval.right.low
    currentPos := p.currInterval.right.getFpos }

/-- `Process_getVirtualPage`. -/
def getVirtualPage (vpn : ℕ) : Option PageId := p.pageTable.get vpn

/-- `Process_virtualPageInMemory`. -/
def virtualPageInMemory (mem : Memory) (vpn : ℕ) : Bool :=
  match p.pageTable.get vpn with
  | none => false
  | some v => (mem.vpages v).inMemory

end Process

namespace Processes

/-- `ProcessQueues_init`. -/
def init : Processes where
  procs _ := ⟨0, .RUNNABLE, 0, 0, 0, 0, .null, .null, 0, none, []⟩
  pq _ := []
  live _ := false
  nextProc := 0

variable (ps : Processes)

/-- `Process_peek`. -/
def peek (status : ProcessStatus) : Option ProcId := (ps.pq status).head?

/-- `Process_existsWithStatus`. -/
def existsWithStatus (status : ProcessStatus) : Bool := !(ps.pq status).isEmpty

/-- Writing to the fields of a process. -/
def modify (p : ProcId) (f : Process → Process) : Processes :=
  { ps with procs := Function.update ps.procs p (f (ps.procs p)) }

/-- `p` comes before `q` in the file. -/
def Before (p q : ProcId) : Prop := (ps.procs p).currentPos < (ps.procs q).currentPos

instance : DecidableRel ps.Before := fun _ _ => Nat.decLt _ _

/-- `ProcessQueue_enqueuePriority`: `p` goes in front of the first process
    that is further in the file. -/
def enqueuePriority (ndebug : Bool) (p : ProcId) : List ProcId → Except Stop (List ProcId)
  | [] => .ok [p]
  | curr :: q => do
    assert ndebug ((ps.procs curr).pid ≠ (ps.procs p).pid) "curr->pid != p->pid"
    if (ps.procs curr).currentPos > (ps.procs p).currentPos then .ok (p :: curr :: q)
    else do
      let q ← enqueuePriority ndebug p q
      .ok (curr :: q)

/-- `ProcessQueue_enqueue`, on the queue `status`. The last process of the queue of finished ones
    has been freed: `STAILQ_INSERT_TAIL` writes `p` through its link all the same, which is no
    outcome here (`linkedLive_iff` tells when there is such a process). -/
def enqueue (ndebug : Bool) (p : ProcId) (status : ProcessStatus) : Except Stop Processes :=
  if status = .RUNNABLE then do
    let q ← ps.enqueuePriority ndebug p (ps.pq status)
    .ok { ps with pq := Function.update ps.pq status q }
  else .ok { ps with pq := Function.update ps.pq status (ps.pq status ++ [p]) }

/-- `Process_switchStatus`: the head of the queue `s1` goes to the queue `s2`. -/
def switchStatus (ndebug : Bool) (s1 s2 : ProcessStatus) :
    Except Stop (Option ProcId × Processes) :=
  match ps.pq s1 with
  | [] => .ok (none, ps)
  | p :: q => do
    let ps := { ps with pq := Function.update ps.pq s1 q }
    let ps ← (ps.modify p fun p => { p with status := s2 }).enqueue ndebug p s2
    .ok (some p, ps)

/-- `Process_init`: a new process, at the tail of the runnable ones. `PageTable_init` does not
    write the root of its page table: it is what `malloc` left there (`Setup.root`), and is used
    as it is by the first search (`Sim.pageTable`). -/
def initProcess (pid firstline lastline : ℕ) (lineIntervals : IntervalNode) :
    Processes × ProcId :=
  ({ procs := Function.update ps.procs ps.nextProc
      { pid, status := .RUNNABLE, firstline, currentline := firstline, lastline
        currentPos := lineIntervals.getFpos, currInterval := lineIntervals, lineIntervals
        waitTime := 0, waitingOnPage := none, pageTable := [] }
     pq := Function.update ps.pq .RUNNABLE (ps.pq .RUNNABLE ++ [ps.nextProc])
     live := Function.update ps.live ps.nextProc true
     nextProc := ps.nextProc + 1 }, ps.nextProc)

/-- `Process_free`. -/
def free (p : ProcId) : Processes := { ps with live := Function.update ps.live p false }

end Processes

end Pfsim
