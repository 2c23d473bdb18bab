import Pfsim.Memory.WellFormed

/-!
# Replacement modules

The four builds of the program differ in the replacement module linked, behind
the interface of `replace.h` (`ReplaceModule`): functions notified of the pages
referenced and loaded, which choose the frame to evict.

A module is *lawful* (`ReplaceModule.Lawful`) if some relation `Tracks` between
memory and its state is kept by all its operations, which then end without
error, and lets it choose an occupied frame when memory is full. Everything
proved about the simulator is proved for the lawful modules.
-/

namespace Pfsim

/-- The interface of a replacement module. An overhead pointer is `none` if
    it is `NULL`, as the module may leave it. -/
structure ReplaceModule where
  State : Type
  initReplacementModule : (numberOfPhysicalPages : ℕ) → State
  /-- What `Replace_initOverhead` asserts of the new page: of its field `overhead`, in which
      there is what `malloc` left. -/
  assertOverhead : (ndebug : Bool) → (overhead : ℕ) → Except Stop Unit
  /-- The overhead `Replace_initOverhead` makes for a new page. -/
  initOverhead : State → (vpage : PageId) → State × Option PageId
  freeOverhead : (ndebug : Bool) → State → (oPtr : Option PageId) → Except Stop State
  /-- Called after every page hit. -/
  notifyPageAccess : (ndebug : Bool) → Memory → State → (oPtr : Option PageId) →
    Except Stop State
  /-- Called after every page load. -/
  notifyPageLoad : (ndebug : Bool) → Memory → State → (oPtr : Option PageId) → Except Stop State
  /-- The frame to evict. -/
  getPageToEvict : (ndebug : Bool) → Memory → State → Except Stop (ℕ × State)

/-- Following an overhead pointer. -/
def derefOverhead : Option PageId → Except Stop PageId
  | none => .error (.undefined "the overhead is NULL")
  | some o => .ok o

@[simp] theorem derefOverhead_some (o : PageId) : derefOverhead (some o) = .ok o := rfl

namespace Memory

/-- The memory after the first statement of `VPage_free`: the page is evicted
    if it is in memory. -/
def dropped (m : Memory) (v : PageId) : Memory :=
  if (m.vpages v).inMemory then m.evicted (m.vpages v).currentPPN v else m

/-- A new page, of the process `pid`, with its overhead. -/
def newPage (m : Memory) (pid vpn : ℕ) (overhead : Option PageId) : Memory :=
  m.addPage ⟨vpn, pid, overhead, false, 0⟩

end Memory

namespace ReplaceModule

variable (R : ReplaceModule)

/-- `if (vp->overhead != NULL) Replace_freeOverhead(vp->overhead)`. -/
def releaseOverhead (ndebug : Bool) (r : R.State) (oPtr : Option PageId) : Except Stop R.State :=
  if oPtr = none then .ok r else R.freeOverhead ndebug r oPtr

/-- The operations of a lawful module keep the relation `Tracks`, and end
    without error. -/
class Lawful where
  Tracks : Memory → R.State → Prop
  assertOverhead_ok {ndebug : Bool} {overhead : ℕ} : ndebug = true ∨ overhead = 0 →
    R.assertOverhead ndebug overhead = .ok ()
  assertOverhead_error {ndebug : Bool} {overhead : ℕ} :
    R.assertOverhead ndebug overhead ≠ .ok () →
    ∃ what, R.assertOverhead ndebug overhead = .error (.undefined what)
  tracks_init (n : ℕ) : 0 < n → Tracks (.init n) (R.initReplacementModule n)
  tracks_new {m : Memory} {r : R.State} (pid vpn : ℕ) : m.WellFormed → Tracks m r →
    Tracks (m.newPage pid vpn (R.initOverhead r m.nextPage).2) (R.initOverhead r m.nextPage).1
  notifyPageAccess_ok {m : Memory} {r : R.State} {v : PageId} (ndebug : Bool) :
    m.WellFormed → Tracks m r → m.Resident v →
    ∃ r', R.notifyPageAccess ndebug m r (m.vpages v).overhead = .ok r' ∧ Tracks m r'
  notifyPageLoad_ok {m : Memory} {r : R.State} {v : PageId} {ppn : ℕ} (ndebug : Bool) :
    m.WellFormed → Tracks m r → m.live v = true → ¬m.Resident v → ppn < m.tracked →
    m.memory ppn = none →
    ∃ r', R.notifyPageLoad ndebug (m.loaded v ppn) r (m.vpages v).overhead = .ok r' ∧
      Tracks (m.loaded v ppn) r'
  getPageToEvict_ok {m : Memory} {r : R.State} (ndebug : Bool) : m.WellFormed → Tracks m r →
    0 < m.memSize → m.hasFreePage = false →
    ∃ ppn v r', R.getPageToEvict ndebug m r = .ok (ppn, r') ∧ m.memory ppn = some v ∧
      Tracks (m.evicted ppn v) r'
  releaseOverhead_ok {m : Memory} {r : R.State} {v : PageId} (ndebug : Bool) :
    m.WellFormed → Tracks m r → m.live v = true →
    ∃ r', R.releaseOverhead ndebug r (m.vpages v).overhead = .ok r' ∧
      Tracks ((m.dropped v).freePage v) r'

end ReplaceModule

namespace Memory

variable {m : Memory} {u v : PageId}

/-- Making a page keeps memory well formed. -/
theorem WellFormed.newPage (h : m.WellFormed) (pid vpn : ℕ) (overhead : Option PageId) :
    (m.newPage pid vpn overhead).WellFormed :=
  h.addPage rfl

/-- A new page is not in memory. -/
theorem resident_newPage (h : m.WellFormed) {pid vpn : ℕ} {overhead : Option PageId} :
    (m.newPage pid vpn overhead).Resident u ↔ m.Resident u :=
  resident_addPage h rfl

/-- A page dropped has left memory. -/
theorem resident_dropped :
    (m.dropped v).Resident u ↔ m.Resident u ∧ u ≠ v := by
  rw [dropped]
  split
  · exact resident_evicted
  · next hm =>
    refine ⟨fun h => ⟨h, fun e => hm ?_⟩, And.left⟩
    exact e ▸ h.2

/-- Dropping a page keeps memory well formed. -/
theorem WellFormed.dropped (h : m.WellFormed) (hv : m.live v = true) :
    (m.dropped v).WellFormed := by
  rw [Memory.dropped]
  split
  · next hm => exact h.evicted (h.memory_currentPPN ⟨hv, hm⟩)
  · exact h

/-- Freeing a page: what is in memory without it. -/
theorem resident_freed :
    ((m.dropped v).freePage v).Resident u ↔ m.Resident u ∧ u ≠ v := by
  rw [resident_freePage, resident_dropped, and_assoc, and_self]

/-- So does freeing it. -/
theorem WellFormed.freed (h : m.WellFormed) (hv : m.live v = true) :
    ((m.dropped v).freePage v).WellFormed :=
  (h.dropped hv).freePage fun hr => (resident_dropped.1 hr).2 rfl

@[simp] theorem live_dropped : (m.dropped v).live = m.live := by
  rw [dropped]
  split <;> rfl

theorem overhead_dropped : ((m.dropped v).vpages u).overhead = (m.vpages u).overhead := by
  rw [dropped]
  split
  · by_cases hu : u = v <;> simp [evicted, hu]
  · rfl

end Memory

end Pfsim
