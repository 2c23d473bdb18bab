import Pfsim.Replace.Basic

/-!
# LRU and FIFO

Both keep a queue of the pages loaded, the oldest at the head, and evict the
page at the head. They share everything but the effect of a hit, which moves
the page to the tail in LRU, and does nothing in FIFO.

The queue is a copy of the set of resident pages, kept in step with memory by
the order of the calls only. `PageQueue.Tracks` says that it is one: every
resident page is queued once, with its flag, and nothing else is.
-/

namespace Pfsim

/-- The state of both modules: the queue, and the `inQueue` flags of the
    overhead structures (`none` for those not allocated). -/
structure PageQueue where
  queue : List PageId
  inQueue : PageId → Option Bool
  /-- The size of physical memory, thus the maximal size of the queue. -/
  capacity : ℤ
  /-- The current size of the queue. -/
  pages : ℤ

namespace PageQueue

/-- `TAILQ_REMOVE`, of an element that must be in the queue. -/
def tailqRemove (queue : List PageId) (o : PageId) : Except Stop (List PageId) :=
  if o ∈ queue then .ok (queue.erase o) else .error (.undefined "TAILQ_REMOVE")

/-- The flag of an overhead structure, which must be allocated. -/
def flag (q : PageQueue) (o : PageId) : Except Stop Bool :=
  match q.inQueue o with
  | none => .error (.undefined "the overhead is freed")
  | some b => .ok b

/-- The assertion all operations start with. -/
def assertPages (ndebug : Bool) (q : PageQueue) : Except Stop Unit :=
  assert ndebug (0 ≤ q.pages ∧ q.pages ≤ q.capacity) "pages >= 0 && pages <= capacity"

/-- `Replace_initReplacementModule`. -/
def init (numberOfPhysicalPages : ℕ) : PageQueue := ⟨[], fun _ => none, numberOfPhysicalPages, 0⟩

/-- The assertion of `Replace_initOverhead`, that `vpage->overhead` is `NULL`. `VPage_init`
    has not written this field yet: the assertion uses what `malloc` left there, which is
    undefined behaviour, and harmless only if that is `NULL`. -/
def assertOverhead (ndebug : Bool) (overhead : ℕ) : Except Stop Unit :=
  if ndebug = true ∨ overhead = 0 then .ok ()
  else .error (.undefined "vpage->overhead is not written")

/-- `Replace_initOverhead`, after its assertion. -/
def initOverhead (q : PageQueue) (vpage : PageId) : PageQueue × Option PageId :=
  ({ q with inQueue := Function.update q.inQueue vpage (some false) }, some vpage)

/-- `Replace_freeOverhead`. -/
def freeOverhead (ndebug : Bool) (q : PageQueue) (oPtr : Option PageId) :
    Except Stop PageQueue := do
  assert ndebug (oPtr ≠ none) "o_ptr != NULL"
  assertPages ndebug q
  let overhead ← derefOverhead oPtr
  if ← q.flag overhead then
    let queue ← tailqRemove q.queue overhead
    .ok { q with
      queue := queue, pages := q.pages - 1, inQueue := Function.update q.inQueue overhead none }
  else .ok { q with inQueue := Function.update q.inQueue overhead none }

/-- `Replace_notifyPageAccess` in LRU: the page goes back to the tail. -/
def moveToTail (ndebug : Bool) (q : PageQueue) (oPtr : Option PageId) :
    Except Stop PageQueue := do
  assert ndebug (oPtr ≠ none) "o_ptr != NULL"
  assertPages ndebug q
  let overhead ← derefOverhead oPtr
  let inQueue ← q.flag overhead
  assert ndebug (inQueue = true) "overhead->inQueue"
  let queue ← tailqRemove q.queue overhead
  .ok { q with queue := queue ++ [overhead] }

/-- `Replace_notifyPageLoad`. -/
def notifyPageLoad (ndebug : Bool) (q : PageQueue) (oPtr : Option PageId) :
    Except Stop PageQueue := do
  assert ndebug (oPtr ≠ none) "o_ptr != NULL"
  assertPages ndebug q
  let overhead ← derefOverhead oPtr
  let inQueue ← q.flag overhead
  assert ndebug (inQueue ≠ true) "overhead->inQueue != true"
  if overhead ∈ q.queue then .error (.undefined "TAILQ_INSERT_TAIL of an element already there")
  else .ok { q with
    queue := q.queue ++ [overhead]
    inQueue := Function.update q.inQueue overhead (some true)
    pages := q.pages + 1 }

/-- `Replace_getPageToEvict`: the page at the head is dequeued. -/
def getPageToEvict (ndebug : Bool) (m : Memory) (q : PageQueue) :
    Except Stop (ℕ × PageQueue) := do
  assertPages ndebug q
  match q.queue with
  | [] => .error (.undefined "TAILQ_FIRST is NULL")
  | n1 :: queue =>
    let _ ← q.flag n1
    .ok ((m.vpages n1).currentPPN, { q with
      queue := queue
      inQueue := Function.update q.inQueue n1 (some false)
      pages := q.pages - 1 })

theorem assertOverhead_ok {ndebug : Bool} {overhead : ℕ} (h : ndebug = true ∨ overhead = 0) :
    assertOverhead ndebug overhead = .ok () := if_pos h

theorem assertOverhead_error {ndebug : Bool} {overhead : ℕ}
    (h : assertOverhead ndebug overhead ≠ .ok ()) :
    ∃ what, assertOverhead ndebug overhead = .error (.undefined what) :=
  ⟨_, if_neg (mt assertOverhead_ok h)⟩

/-- It only matters whether an overhead is `NULL`. -/
theorem assertOverhead_congr {ndebug : Bool} {o o' : ℕ} (h : ndebug = true ∨ (o' = 0 ↔ o = 0)) :
    assertOverhead ndebug o' = assertOverhead ndebug o := by
  have hiff : ndebug = true ∨ o' = 0 ↔ ndebug = true ∨ o = 0 := by
    rcases h with h | h
    · simp [h]
    · rw [h]
  simp only [assertOverhead, hiff]

section Effects

variable {q q' : PageQueue} {v : PageId} {ndebug : Bool}

/-- A hit in LRU, if it ends without error. -/
theorem queue_of_moveToTail (h : moveToTail ndebug q (some v) = .ok q') :
    q'.queue = q.queue.erase v ++ [v] := by
  obtain ⟨_, -, h⟩ := bind_eq_ok.1 h
  obtain ⟨_, -, h⟩ := bind_eq_ok.1 h
  rw [derefOverhead_some, ok_bind] at h
  obtain ⟨_, -, h⟩ := bind_eq_ok.1 h
  obtain ⟨_, -, h⟩ := bind_eq_ok.1 h
  obtain ⟨queue, hremove, h⟩ := bind_eq_ok.1 h
  rw [tailqRemove] at hremove
  split at hremove
  · obtain rfl := Except.ok.inj hremove
    obtain rfl := Except.ok.inj h
    rfl
  · cases hremove

/-- A load, if it ends without error. -/
theorem queue_of_notifyPageLoad (h : notifyPageLoad ndebug q (some v) = .ok q') :
    q'.queue = q.queue ++ [v] := by
  obtain ⟨_, -, h⟩ := bind_eq_ok.1 h
  obtain ⟨_, -, h⟩ := bind_eq_ok.1 h
  rw [derefOverhead_some, ok_bind] at h
  obtain ⟨_, -, h⟩ := bind_eq_ok.1 h
  obtain ⟨_, -, h⟩ := bind_eq_ok.1 h
  split at h
  · cases h
  · obtain rfl := Except.ok.inj h
    rfl

end Effects

/-- The queue tracks memory: every resident page is queued once and nothing
    else is, the flags say so, and the counters agree. -/
structure Tracks (m : Memory) (q : PageQueue) : Prop where
  nodup : q.queue.Nodup
  mem_queue : ∀ v, v ∈ q.queue ↔ m.Resident v
  inQueue_iff : ∀ v, q.inQueue v = some true ↔ v ∈ q.queue
  inQueue_isSome : ∀ v, (q.inQueue v).isSome = m.live v
  overhead : ∀ v, m.live v = true → (m.vpages v).overhead = some v
  capacity : q.capacity = m.memSize
  pages : q.pages = q.queue.length
  length : q.queue.length = m.allocated

variable {m : Memory} {q : PageQueue} {v : PageId} {ppn : ℕ} {ndebug : Bool}

theorem tracks_init (n : ℕ) : Tracks (.init n) (init n) := by
  constructor <;> simp [init, Memory.init, Memory.Resident]

namespace Tracks

theorem assertPages_ok (h : Tracks m q) (hm : m.WellFormed) : assertPages ndebug q = .ok () := by
  refine assert_ok ?_
  rw [h.pages, h.capacity, h.length]
  exact ⟨by omega, by exact_mod_cast hm.allocated_le⟩

theorem flag_ok (h : Tracks m q) (hv : m.live v = true) :
    q.flag v = .ok (decide (v ∈ q.queue)) := by
  obtain ⟨b, hb⟩ := Option.isSome_iff_exists.1 ((h.inQueue_isSome v).trans hv)
  have := h.inQueue_iff v
  rw [hb] at this
  rw [flag, hb]
  cases b <;> simp_all

theorem new (h : Tracks m q) (hm : m.WellFormed) (pid vpn : ℕ) :
    Tracks (m.newPage pid vpn (q.initOverhead m.nextPage).2) (q.initOverhead m.nextPage).1 where
  nodup := h.nodup
  mem_queue u := (h.mem_queue u).trans (Memory.resident_newPage hm).symm
  inQueue_iff u := by
    by_cases hn : u = m.nextPage
    · subst hn
      have : m.nextPage ∉ q.queue := fun hq => by
        simpa [hm.not_live_nextPage] using ((h.mem_queue _).1 hq).1
      simp [initOverhead, this]
    · simpa [initOverhead, hn] using h.inQueue_iff u
  inQueue_isSome u := by
    by_cases hn : u = m.nextPage
    · simp [Memory.newPage, Memory.addPage, initOverhead, hn]
    · simpa [Memory.newPage, Memory.addPage, initOverhead, hn] using h.inQueue_isSome u
  overhead u hu := by
    by_cases hn : u = m.nextPage
    · simp [Memory.newPage, Memory.addPage, initOverhead, hn]
    · simpa [Memory.newPage, Memory.addPage, hn] using
        h.overhead u (by simpa [Memory.newPage, Memory.addPage, hn] using hu)
  capacity := h.capacity
  pages := h.pages
  length := h.length

/-- A hit in LRU only permutes the queue. -/
theorem moveToTail_ok (h : Tracks m q) (hm : m.WellFormed) (hv : m.Resident v) :
    moveToTail ndebug q (m.vpages v).overhead =
        .ok { q with queue := q.queue.erase v ++ [v] } ∧
      Tracks m { q with queue := q.queue.erase v ++ [v] } := by
  have hq : v ∈ q.queue := (h.mem_queue v).2 hv
  have hmem : ∀ u, u ∈ q.queue.erase v ++ [v] ↔ u ∈ q.queue := fun u => by
    by_cases hu : u = v <;> simp [h.nodup.mem_erase_iff, hu, hq]
  have hlen : (q.queue.erase v ++ [v]).length = q.queue.length := by
    rw [List.length_append, List.length_erase_of_mem hq, List.length_singleton]
    have := List.length_pos_of_mem hq
    omega
  refine ⟨?_, ?_⟩
  · simp [moveToTail, h.overhead v hv.1, h.assertPages_ok hm, h.flag_ok hv.1, hq, tailqRemove,
      assert_ok]
  · exact {
      nodup := List.nodup_append_comm.1 (by simpa [h.nodup.mem_erase_iff] using h.nodup.erase v)
      mem_queue := fun u => (hmem u).trans (h.mem_queue u)
      inQueue_iff := fun u => (h.inQueue_iff u).trans (hmem u).symm
      inQueue_isSome := h.inQueue_isSome
      overhead := h.overhead
      capacity := h.capacity
      pages := by rw [hlen]; exact h.pages
      length := by rw [hlen]; exact h.length }

/-- A page loaded is queued at the tail. -/
theorem notifyPageLoad_ok (h : Tracks m q) (hm : m.WellFormed) (hl : m.live v = true)
    (hv : ¬m.Resident v) :
    ∃ q', notifyPageLoad ndebug q (m.vpages v).overhead = .ok q' ∧
      Tracks (m.loaded v ppn) q' := by
  have hq : v ∉ q.queue := mt (h.mem_queue v).1 hv
  -- It is not in the queue, so that its flag is down, as asserted, and it can be inserted.
  refine ⟨{ q with
    queue := q.queue ++ [v]
    inQueue := Function.update q.inQueue v (some true)
    pages := q.pages + 1 }, ?_, ?_⟩
  · simp [notifyPageLoad, h.overhead v hl, h.assertPages_ok hm, h.flag_ok hl, hq, assert_ok]
  · exact {
      nodup := List.nodup_append_comm.1 (by simpa using ⟨hq, h.nodup⟩)
      mem_queue := fun u => by
        rw [Memory.resident_loaded hl, List.mem_append, List.mem_singleton, h.mem_queue]
      inQueue_iff := fun u => by
        by_cases hu : u = v
        · simp [hu]
        · simpa [hu] using h.inQueue_iff u
      inQueue_isSome := fun u => by
        by_cases hu : u = v
        · simp [hu, hl]
        · simpa [hu] using h.inQueue_isSome u
      overhead := fun u hu => by
        by_cases huv : u = v
        · simpa [Memory.loaded, huv] using h.overhead v hl
        · simpa [Memory.loaded, huv] using h.overhead u hu
      capacity := h.capacity
      pages := by simp [h.pages]
      length := by simp [h.length, Memory.loaded] }

/-- The queue when its page `v` is evicted, whatever becomes of its overhead. -/
theorem evicted (h : Tracks m q) (hm : m.WellFormed) (hp : m.memory ppn = some v) :
    Tracks (m.evicted ppn v) { q with
      queue := q.queue.erase v
      inQueue := Function.update q.inQueue v (some false)
      pages := q.pages - 1 } := by
  have hr := hm.resident hp
  have hq : v ∈ q.queue := (h.mem_queue v).2 hr
  have hlen := List.length_erase_of_mem hq
  have hpos := List.length_pos_of_mem hq
  exact {
    nodup := h.nodup.erase v
    mem_queue := fun u => by
      rw [Memory.resident_evicted, h.nodup.mem_erase_iff, h.mem_queue, and_comm]
    inQueue_iff := fun u => by
      by_cases hu : u = v
      · simp [hu, h.nodup.mem_erase_iff]
      · simpa [hu, h.nodup.mem_erase_iff] using h.inQueue_iff u
    inQueue_isSome := fun u => by
      by_cases hu : u = v
      · simp [hu, hr.1]
      · simpa [hu] using h.inQueue_isSome u
    overhead := fun u hu => by
      by_cases huv : u = v
      · simpa [Memory.evicted, huv] using h.overhead v hr.1
      · simpa [Memory.evicted, huv] using h.overhead u hu
    capacity := h.capacity
    pages := by simp only [hlen, h.pages]; omega
    length := by rw [hlen, h.length]; rfl }

variable (ndebug) in
/-- The page to evict is the one at the head, which is dequeued. -/
theorem getPageToEvict_ok (h : Tracks m q) (hm : m.WellFormed) {queue : List PageId}
    (hq : q.queue = v :: queue) :
    ∃ ppn q', getPageToEvict ndebug m q = .ok (ppn, q') ∧ m.memory ppn = some v ∧
      q'.queue = queue ∧ Tracks (m.evicted ppn v) q' := by
  have hr : m.Resident v := (h.mem_queue v).1 (by simp [hq])
  have hp := hm.memory_currentPPN hr
  refine ⟨(m.vpages v).currentPPN, { q with
    queue := queue
    inQueue := Function.update q.inQueue v (some false)
    pages := q.pages - 1 }, ?_, hp, rfl, ?_⟩
  · simp [getPageToEvict, h.assertPages_ok hm, hq, h.flag_ok hr.1]
  · simpa [hq] using h.evicted hm hp

/-- The page to evict, if there is one, is the page dequeued. -/
theorem eq_cons_of_getPageToEvict (h : Tracks m q) (hm : m.WellFormed) {q' : PageQueue}
    (hv : getPageToEvict ndebug m q = .ok (ppn, q')) :
    ∃ v, q.queue = v :: q'.queue ∧ m.memory ppn = some v := by
  cases hq : q.queue with
  | nil =>
    simp only [getPageToEvict, h.assertPages_ok hm, ok_bind, hq] at hv
    cases hv
  | cons v queue =>
    obtain ⟨ppn', q'', hok, hp, hq', -⟩ := h.getPageToEvict_ok ndebug hm hq
    obtain ⟨rfl, rfl⟩ := Prod.mk.inj (Except.ok.inj (hok.symm.trans hv))
    exact ⟨v, by rw [hq'], hp⟩

/-- Freeing a page that is not in memory, and its overhead. -/
theorem freed (h : Tracks m q) (hv : ¬m.Resident v) :
    Tracks (m.freePage v) { q with inQueue := Function.update q.inQueue v none } where
  nodup := h.nodup
  mem_queue u := by
    rw [Memory.resident_freePage, ← h.mem_queue]
    refine ⟨fun hq => ⟨hq, ?_⟩, And.left⟩
    rintro rfl
    exact hv ((h.mem_queue u).1 hq)
  inQueue_iff u := by
    by_cases hu : u = v
    · simpa [hu] using mt (h.mem_queue v).1 hv
    · simpa [hu] using h.inQueue_iff u
  inQueue_isSome u := by
    by_cases hu : u = v
    · simp [hu, Memory.freePage]
    · simpa [hu, Memory.freePage] using h.inQueue_isSome u
  overhead u hu := by
    by_cases huv : u = v
    · simp [Memory.freePage, huv] at hu
    · exact h.overhead u (by simpa [Memory.freePage, huv] using hu)
  capacity := h.capacity
  pages := h.pages
  length := h.length

variable (ndebug) in
/-- Freeing the overhead of a page, resident or not, after its eviction. -/
theorem freeOverhead_ok (h : Tracks m q) (hm : m.WellFormed) (hl : m.live v = true) :
    ∃ q', freeOverhead ndebug q (m.vpages v).overhead = .ok q' ∧
      q'.queue = q.queue.erase v ∧ Tracks ((m.dropped v).freePage v) q' := by
  by_cases hr : m.Resident v
  · have hq : v ∈ q.queue := (h.mem_queue v).2 hr
    have he := h.evicted hm (hm.memory_currentPPN hr)
    have hd : m.dropped v = m.evicted (m.vpages v).currentPPN v := if_pos hr.2
    refine ⟨{ q with
      queue := q.queue.erase v, pages := q.pages - 1
      inQueue := Function.update q.inQueue v none }, ?_, rfl, ?_⟩
    · simp [freeOverhead, h.overhead v hl, h.assertPages_ok hm, h.flag_ok hl, hq, tailqRemove,
        assert_ok]
    · have hf := he.freed (v := v) fun hr' => (Memory.resident_evicted.1 hr').2 rfl
      rw [Function.update_idem] at hf
      exact hd ▸ hf
  · have hq : v ∉ q.queue := mt (h.mem_queue v).1 hr
    have hd : m.dropped v = m := if_neg fun hi => hr ⟨hl, hi⟩
    refine ⟨{ q with inQueue := Function.update q.inQueue v none }, ?_,
      (List.erase_of_not_mem hq).symm, ?_⟩
    · simp [freeOverhead, h.overhead v hl, h.assertPages_ok hm, h.flag_ok hl, hq, assert_ok]
    · exact hd.symm ▸ h.freed hr

end Tracks

end PageQueue

/-! ## The modules -/

/-- The LRU build. -/
def lru : ReplaceModule where
  State := PageQueue
  initReplacementModule := PageQueue.init
  assertOverhead := PageQueue.assertOverhead
  initOverhead := PageQueue.initOverhead
  freeOverhead := PageQueue.freeOverhead
  notifyPageAccess ndebug _ := PageQueue.moveToTail ndebug
  notifyPageLoad ndebug _ := PageQueue.notifyPageLoad ndebug
  getPageToEvict := PageQueue.getPageToEvict

/-- The FIFO build, which does nothing on a hit. -/
def fifo : ReplaceModule where
  State := PageQueue
  initReplacementModule := PageQueue.init
  assertOverhead := PageQueue.assertOverhead
  initOverhead := PageQueue.initOverhead
  freeOverhead := PageQueue.freeOverhead
  notifyPageAccess _ _ q _ := .ok q
  notifyPageLoad ndebug _ := PageQueue.notifyPageLoad ndebug
  getPageToEvict := PageQueue.getPageToEvict

namespace PageQueue.Tracks

variable {m : Memory} {q : PageQueue} {v : PageId} {ppn : ℕ} {ndebug : Bool}

/-- When memory is full the queue is not empty, and its head is a victim. -/
theorem exists_victim (h : Tracks m q) (hm : m.WellFormed) (hn : 0 < m.memSize)
    (hf : m.hasFreePage = false) :
    ∃ ppn v q', getPageToEvict ndebug m q = .ok (ppn, q') ∧ m.memory ppn = some v ∧
      Tracks (m.evicted ppn v) q' := by
  have hlen : 0 < q.queue.length := by
    rw [h.length]
    simp only [Memory.hasFreePage, gt_iff_lt, decide_eq_false_iff_not, not_lt] at hf
    omega
  obtain ⟨v, queue, hq⟩ := List.exists_cons_of_length_pos hlen
  obtain ⟨ppn, q', hok, hp, -, ht⟩ := h.getPageToEvict_ok ndebug hm hq
  exact ⟨ppn, v, q', hok, hp, ht⟩

end PageQueue.Tracks

instance : lru.Lawful where
  Tracks := PageQueue.Tracks
  assertOverhead_ok h := PageQueue.assertOverhead_ok h
  assertOverhead_error h := PageQueue.assertOverhead_error h
  tracks_init n _ := PageQueue.tracks_init n
  tracks_new pid vpn hm h := h.new hm pid vpn
  notifyPageAccess_ok _ hm h hv := ⟨_, h.moveToTail_ok hm hv⟩
  notifyPageLoad_ok _ hm h hl hv _ _ := h.notifyPageLoad_ok hm hl hv
  getPageToEvict_ok _ hm h hn hf := h.exists_victim hm hn hf
  releaseOverhead_ok ndebug hm h hl := by
    obtain ⟨q', hok, -, ht⟩ := h.freeOverhead_ok ndebug hm hl
    refine ⟨q', ?_, ht⟩
    rwa [ReplaceModule.releaseOverhead, if_neg (by simp [h.overhead _ hl])]

instance : fifo.Lawful where
  Tracks := PageQueue.Tracks
  assertOverhead_ok h := PageQueue.assertOverhead_ok h
  assertOverhead_error h := PageQueue.assertOverhead_error h
  tracks_init n _ := PageQueue.tracks_init n
  tracks_new pid vpn hm h := h.new hm pid vpn
  notifyPageAccess_ok _ _ h _ := ⟨_, rfl, h⟩
  notifyPageLoad_ok _ hm h hl hv _ _ := h.notifyPageLoad_ok hm hl hv
  getPageToEvict_ok _ hm h hn hf := h.exists_victim hm hn hf
  releaseOverhead_ok ndebug hm h hl := by
    obtain ⟨q', hok, -, ht⟩ := h.freeOverhead_ok ndebug hm hl
    refine ⟨q', ?_, ht⟩
    rwa [ReplaceModule.releaseOverhead, if_neg (by simp [h.overhead _ hl])]

end Pfsim
