import Pfsim.Process.WellFormed

/-!
# Twin processes

The processes of two simulations are *twins* if they only differ in the offsets they
keep, which correspond (`At`), and in the keys of their page tables, which are renamed
(`f`). As long as the offsets which correspond are in the same order, the operations on
the processes and their queues keep them so.
-/

namespace Pfsim

/-- Offsets of two files which correspond: they are in the same order, and the first
    ones correspond. -/
structure Aligned (At : ℕ → ℕ → Prop) : Prop where
  zero : At 0 0
  lt_iff {x x' y y' : ℕ} : At x x' → At y y' → (x < y ↔ x' < y')

variable {At : ℕ → ℕ → Prop} {f : ℕ → ℕ}

/-! ## Interval trees -/

/-- The same tree of intervals, with offsets which correspond. -/
inductive IntervalNode.Twin (At : ℕ → ℕ → Prop) : IntervalNode → IntervalNode → Prop
  | null : Twin At null null
  | node {low high max x x' : ℕ} {left left' right right' : IntervalNode} : At x x' →
      Twin At left left' → Twin At right right' →
      Twin At (node low high max x left right) (node low high max x' left' right')

namespace IntervalNode.Twin

variable {t t' n n' : IntervalNode}

theorem low (h : t.Twin At t') : t'.low = t.low := by cases h <;> rfl

theorem high (h : t.Twin At t') : t'.high = t.high := by cases h <;> rfl

theorem right (h : t.Twin At t') : t.right.Twin At t'.right := by
  cases h with
  | null => exact .null
  | node _ _ hr => exact hr

/-- They are at the same records. -/
theorem getFpos (hat : Aligned At) (h : t.Twin At t') : At t.getFpos t'.getFpos := by
  cases h with
  | null => exact hat.zero
  | node hx => exact hx

theorem null_iff (h : t.Twin At t') : t' = .null ↔ t = .null := by cases h <;> simp

/-- They stay twins as intervals are inserted. -/
theorem insert (h : t.Twin At t') (hn : n.Twin At n') : (t.insert n).Twin At (t'.insert n') := by
  induction h with
  | null => exact hn
  | node hx hl hr ihl ihr =>
    rw [IntervalNode.insert, IntervalNode.insert, insertRecursive, insertRecursive, hn.high, hn.low]
    split
    · exact .node hx ihl hr
    · exact .node hx hl ihr

/-- Trees with the same offsets are the same. -/
theorem eq (h : t.Twin Eq t') : t' = t := by
  induction h with
  | null => rfl
  | node hx _ _ ihl ihr => rw [← hx, ihl, ihr]

theorem refl (t : IntervalNode) : t.Twin Eq t := by
  induction t with
  | null => exact .null
  | node _ _ _ _ _ _ ihl ihr => exact .node rfl ihl ihr

end IntervalNode.Twin

/-! ## Page tables -/

namespace PageTable

/-- The page table with its keys renamed. -/
def renamed (f : ℕ → ℕ) (pt : PageTable) : PageTable := pt.map (Prod.map f id)

variable {pt : PageTable} {vpn : ℕ} {v : PageId}

/-- A renamed page is looked for under its new number. -/
theorem get_renamed (hf : Function.Injective f) : (pt.renamed f).get (f vpn) = pt.get vpn := by
  rw [get_eq_lookup, get_eq_lookup]
  induction pt with
  | nil => rfl
  | cons e pt ih =>
    obtain ⟨k, u⟩ := e
    have hk : (f vpn == f k) = (vpn == k) := Bool.eq_iff_iff.2 (by simp [hf.eq_iff])
    change List.lookup (f vpn) ((f k, u) :: PageTable.renamed f pt) = List.lookup vpn ((k, u) :: pt)
    rw [List.lookup_cons, List.lookup_cons, hk]
    split
    · rfl
    · exact ih

/-- It is added under its new number. -/
theorem add_renamed (hf : Function.Injective f) :
    (pt.renamed f).add (f vpn) v = (pt.add vpn v).renamed f := by
  rw [add, add, get_renamed hf]
  split
  · rfl
  · rw [renamed, renamed, List.map_append]
    rfl

/-- The pages are the same. -/
theorem snd_renamed : (pt.renamed f).map Prod.snd = pt.map Prod.snd := by
  rw [renamed, List.map_map]
  rfl

theorem renamed_id : pt.renamed id = pt := by
  rw [renamed, Prod.map_id]
  exact List.map_id pt

end PageTable

/-! ## Processes -/

/-- The processes only differ in offsets, which correspond, and in the keys of their page
    tables, which are renamed. -/
structure Process.Twin (At : ℕ → ℕ → Prop) (f : ℕ → ℕ) (p p' : Process) : Prop where
  pid : p'.pid = p.pid
  status : p'.status = p.status
  firstline : p'.firstline = p.firstline
  currentline : p'.currentline = p.currentline
  lastline : p'.lastline = p.lastline
  currentPos : At p.currentPos p'.currentPos
  currInterval : p.currInterval.Twin At p'.currInterval
  lineIntervals : p.lineIntervals.Twin At p'.lineIntervals
  waitTime : p'.waitTime = p.waitTime
  waitingOnPage : p'.waitingOnPage = p.waitingOnPage
  pageTable : p'.pageTable = p.pageTable.renamed f

namespace Process.Twin

variable {p p' : Process}

/-- The same page is found. -/
theorem getVirtualPage (hf : Function.Injective f) (h : p.Twin At f p') (vpn : ℕ) :
    p'.getVirtualPage (f vpn) = p.getVirtualPage vpn := by
  rw [Process.getVirtualPage, h.pageTable]
  exact PageTable.get_renamed hf

theorem onLastLine (h : p.Twin At f p') : p'.onLastLineInInterval = p.onLastLineInInterval := by
  rw [onLastLineInInterval, onLastLineInInterval, h.currInterval.high, h.currentline]

theorem hasLines (h : p.Twin At f p') :
    p'.hasLinesRemainingInInterval = p.hasLinesRemainingInInterval := by
  rw [hasLinesRemainingInInterval, hasLinesRemainingInInterval, h.currInterval.high, h.currentline]

theorem hasIntervals (h : p.Twin At f p') :
    p'.hasIntervalsRemaining = p.hasIntervalsRemaining := by
  rw [hasIntervalsRemaining, hasIntervalsRemaining]
  exact decide_eq_decide.2 (not_congr h.currInterval.right.null_iff)

/-- Both go on to the next line. -/
theorem nextLine (h : p.Twin At f p') : p.nextLine.Twin At f p'.nextLine :=
  { h with currentline := congrArg (· + 1) h.currentline }

/-- Both jump to their next interval. -/
theorem jumpToNextInterval (hat : Aligned At) (h : p.Twin At f p') :
    p.jumpToNextInterval.Twin At f p'.jumpToNextInterval :=
  { h with
    currInterval := h.currInterval.right
    currentline := h.currInterval.right.low
    currentPos := h.currInterval.right.getFpos hat }

/-- A page is added to both page tables. -/
theorem add (hf : Function.Injective f) (h : p.Twin At f p') (vpn : ℕ) (v : PageId) :
    ({ p with pageTable := p.pageTable.add vpn v } : Process).Twin At f
      { p' with pageTable := p'.pageTable.add (f vpn) v } :=
  { h with pageTable := by rw [h.pageTable]; exact PageTable.add_renamed hf }

/-- An interval is added to both, in the first pass. -/
theorem insert (h : p.Twin At f p') {n n' : IntervalNode} (hn : n.Twin At n') (lastline : ℕ) :
    ({ p with
      lastline := if p.lastline < lastline then lastline else p.lastline
      lineIntervals := p.lineIntervals.insert n
      currInterval := p.lineIntervals.insert n } : Process).Twin At f
      { p' with
        lastline := if p'.lastline < lastline then lastline else p'.lastline
        lineIntervals := p'.lineIntervals.insert n'
        currInterval := p'.lineIntervals.insert n' } :=
  { h with
    lastline := by rw [h.lastline]
    lineIntervals := h.lineIntervals.insert hn
    currInterval := h.lineIntervals.insert hn }

/-- With the same offsets and keys, the processes are the same. -/
theorem eq (h : p.Twin Eq id p') : p' = p := by
  have hcurr := h.currInterval.eq
  have hline := h.lineIntervals.eq
  have htable := h.pageTable
  rw [PageTable.renamed_id] at htable
  obtain ⟨h₁, h₂, h₃, h₄, h₅, h₆, -, -, h₉, h₁₀, -⟩ := h
  cases p'
  cases p
  simp_all

theorem refl (p : Process) : p.Twin Eq id p :=
  ⟨rfl, rfl, rfl, rfl, rfl, rfl, .refl _, .refl _, rfl, rfl, PageTable.renamed_id.symm⟩

end Process.Twin

/-- The processes are twins, and their queues are the same. -/
structure Processes.Twin (At : ℕ → ℕ → Prop) (f : ℕ → ℕ) (ps ps' : Processes) : Prop where
  procs : ∀ p, (ps.procs p).Twin At f (ps'.procs p)
  pq : ps'.pq = ps.pq
  live : ps'.live = ps.live
  nextProc : ps'.nextProc = ps.nextProc

namespace Processes.Twin

variable {ps ps' : Processes} {p : ProcId}

/-- The same process is at the head. -/
theorem peek (h : ps.Twin At f ps') (st : ProcessStatus) : ps'.peek st = ps.peek st := by
  rw [Processes.peek, h.pq, Processes.peek]

theorem existsWithStatus (h : ps.Twin At f ps') (st : ProcessStatus) :
    ps'.existsWithStatus st = ps.existsWithStatus st := by
  rw [Processes.existsWithStatus, h.pq, Processes.existsWithStatus]

theorem modify {g g' : Process → Process} (h : ps.Twin At f ps')
    (hg : (g (ps.procs p)).Twin At f (g' (ps'.procs p))) :
    (ps.modify p g).Twin At f (ps'.modify p g') where
  procs q := by
    rw [modify_procs, modify_procs]
    split
    · exact hg
    · exact h.procs q
  pq := h.pq
  live := h.live
  nextProc := h.nextProc

/-- The queue of runnable processes goes by the order of their offsets. -/
theorem orderedInsert (hat : Aligned At) (h : ps.Twin At f ps') (queue : List ProcId) :
    queue.orderedInsert ps'.Before p = queue.orderedInsert ps.Before p := by
  induction queue with
  | nil => rfl
  | cons q queue ih =>
    have hb : ps'.Before p q ↔ ps.Before p q :=
      (hat.lt_iff (h.procs p).currentPos (h.procs q).currentPos).symm
    rw [List.orderedInsert_cons, List.orderedInsert_cons, ih]
    exact if_congr hb rfl rfl

/-- The same process is moved, and goes to the same place. -/
theorem moved (hat : Aligned At) (h : ps.Twin At f ps') (s1 s2 : ProcessStatus) :
    (ps.moved p s1 s2).Twin At f (ps'.moved p s1 s2) := by
  have hd : (ps.dequeued s1).Twin At f (ps'.dequeued s1) :=
    ⟨h.procs, by rw [dequeued, dequeued, h.pq], h.live, h.nextProc⟩
  have hm : ((ps.dequeued s1).modify p fun p => { p with status := s2 }).Twin At f
      ((ps'.dequeued s1).modify p fun p => { p with status := s2 }) :=
    hd.modify { hd.procs p with status := rfl }
  refine ⟨hm.procs, ?_, hm.live, hm.nextProc⟩
  rw [Processes.moved, Processes.moved, enqueued, enqueued]
  dsimp only
  rw [hm.pq, hm.orderedInsert hat]

/-- A new process. -/
theorem initProcess (hat : Aligned At) (h : ps.Twin At f ps') {t t' : IntervalNode}
    (ht : t.Twin At t') (pid firstline lastline : ℕ) :
    (ps.initProcess pid firstline lastline t).1.Twin At f
      (ps'.initProcess pid firstline lastline t').1 where
  procs q := by
    simp only [Processes.initProcess, h.nextProc, Function.update_apply]
    split
    · exact ⟨rfl, rfl, rfl, rfl, rfl, ht.getFpos hat, ht, ht, rfl, rfl, rfl⟩
    · exact h.procs q
  pq := by simp only [Processes.initProcess, h.pq, h.nextProc]
  live := by simp only [Processes.initProcess, h.live, h.nextProc]
  nextProc := congrArg (· + 1) h.nextProc

theorem free (h : ps.Twin At f ps') (p : ProcId) : (ps.free p).Twin At f (ps'.free p) :=
  { h with live := by rw [Processes.free, h.live]; rfl }

/-- With the same offsets and keys, the processes are the same. -/
theorem eq (h : ps.Twin Eq id ps') : ps' = ps := by
  have hprocs : ps'.procs = ps.procs := funext fun p => (h.procs p).eq
  obtain ⟨-, hpq, hlive, hnext⟩ := h
  cases ps'
  cases ps
  simp_all

theorem refl (ps : Processes) : ps.Twin Eq id ps := ⟨fun _ => .refl _, rfl, rfl, rfl⟩

end Processes.Twin

end Pfsim
