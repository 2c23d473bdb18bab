import Pfsim.Process
import Pfsim.Stdio

/-!
# The first pass

A pass over the trace file finds the runs of consecutive records of the same
process. A run is closed when the record after it has been read, or there is
none: its interval of lines is inserted in the tree of its process, which is
made if there is none yet. Processes are looked up by their `pid`, converted to
an `int`.
-/

namespace Pfsim

/-- The conversion of an `unsigned long` to `int`, the key of a `PidMap`. -/
def pidKey (pid : ℕ) : ℤ := (BitVec.ofNat 32 pid).toInt

/-- The variables of the loop of `first_pass`, and the processes. -/
structure FirstPass where
  /-- The search tree of the pids seen, with the owner of each. -/
  searchTree : List (ℤ × ProcId)
  pid : ℕ
  startLineNumber : ℕ
  startFpos : ℕ
  currLineNumber : ℕ
  /-- The position in the trace file. -/
  cursor : ℕ
  ps : Processes

namespace FirstPass

/-- `compare`, of the keys of two `PidMap`s. -/
def compare : ℤ → ℤ → ℤ := threeWay

/-- Before the loop. -/
def start : FirstPass := ⟨[], 0, 1, 0, 1, 0, .init⟩

/-- The run just ended goes to its owner: merged with its previous ones, or the
    first of a new process. -/
def record (f : FirstPass) : FirstPass :=
  let lastline := f.currLineNumber - 1
  let newIntervalNode := (IntervalNode.initnode f.startLineNumber lastline).setFpos f.startFpos
  match tfind compare (pidKey f.pid) f.searchTree with
  | some owner =>
    { f with ps := f.ps.modify owner fun p =>
        -- `currInterval` points to the root too, until the simulation starts.
        let root := p.lineIntervals.insert newIntervalNode
        { p with
          lastline := if p.lastline < lastline then lastline else p.lastline
          lineIntervals := root
          currInterval := root } }
  | none =>
    let (ps, currProc) := f.ps.initProcess f.pid f.startLineNumber lastline newIntervalNode
    { f with ps, searchTree := f.searchTree ++ [(pidKey f.pid, currProc)] }

/-- The body of the loop, with the result of `fscanf`. Until `fscanf` assigns
    it, `curr_pid` is what its memory holds at that line, `slot`. -/
def iteration (slot : ℕ → ℕ) (text : List Char) (f : FirstPass) :
    Except Stop (ℤ × FirstPass) :=
  let currFpos := f.cursor
  let scanned := fscanf firstPassFormat (text.drop f.cursor)
  let currPid := scanned.values.headD (slot f.currLineNumber)
  if currPid = 0 ∧ scanned.result ≥ 0 then
    .error (.exitFailure ("ERROR: Invalid trace file format at line " ++ toString f.currLineNumber))
  else
    let f := { f with cursor := text.length - scanned.rest.length }
    let f :=
      if f.pid ≠ 0 ∧ (currPid ≠ f.pid ∨ scanned.result ≤ 0) then
        { f.record with startFpos := currFpos, startLineNumber := f.currLineNumber }
      else f
    .ok (scanned.result, { f with pid := currPid, currLineNumber := f.currLineNumber + 1 })

/-- The loop, for at most `n` iterations. -/
def loop (slot : ℕ → ℕ) (text : List Char) : ℕ → FirstPass → Except Stop FirstPass
  | 0, _ => .error .outOfFuel
  | n + 1, f => do
    let (result, f) ← f.iteration slot text
    if result > 0 then f.loop slot text n else .ok f

end FirstPass

/-- `first_pass`: the processes of a trace file. Every iteration but the last
    moves forwards in the file. -/
def firstPass (slot : ℕ → ℕ) (text : List Char) : Except Stop Processes := do
  let f ← FirstPass.start.loop slot text (text.length + 1)
  .ok f.ps

end Pfsim
