import Pfsim.Replace.Policy

/-!
# Virtual pages

Memory and the replacement module together (`Pager`): virtual pages are made
and freed through both (`VPage_init`, `VPage_free`).

A pager is well formed if memory is, and the module tracks it. Then pages are
freed without error, whatever the order (`freeAll_ok`), and nothing is left of
them, while the other pages stay as they are.
-/

namespace Pfsim

/-- Memory, with the replacement module linked. -/
structure Pager (R : ReplaceModule) where
  mem : Memory
  rep : R.State

namespace Pager

variable {R : ReplaceModule}

/-- `Memory_init` and `Replace_initReplacementModule`. -/
def init (R : ReplaceModule) (numberOfPhysicalPages : ℕ) : Pager R :=
  ⟨.init numberOfPhysicalPages, R.initReplacementModule numberOfPhysicalPages⟩

/-- The page `VPage_init` makes, and the pointer to it. -/
def newVPage (pg : Pager R) (pid vpn : ℕ) : Pager R × PageId :=
  let (rep, overhead) :=
    if pid ≠ 0 then R.initOverhead pg.rep pg.mem.nextPage else (pg.rep, none)
  (⟨pg.mem.newPage pid vpn overhead, rep⟩, pg.mem.nextPage)

/-- `VPage_init`, `malloc` having left `overhead` in the field `overhead` of the new page.
    (Page tables are searched with pages made for the query, of the process `0`, which have
    no overhead and are not in memory: they have no other effect.) -/
def initVPage (ndebug : Bool) (overhead : ℕ) (pg : Pager R) (pid vpn : ℕ) :
    Except Stop (Pager R × PageId) := do
  if pid ≠ 0 then R.assertOverhead ndebug overhead
  .ok (pg.newVPage pid vpn)

/-- `if (vp->inMemory) Memory_evictPage(vp->currentPPN)`. -/
def evictIfInMemory (mem : Memory) (v : PageId) : Except Stop Memory :=
  if (mem.vpages v).inMemory then mem.evictPage (mem.vpages v).currentPPN else .ok mem

/-- `VPage_free`. -/
def freeVPage (ndebug : Bool) (pg : Pager R) (v : PageId) : Except Stop (Pager R) := do
  let mem ← evictIfInMemory pg.mem v
  let rep ← R.releaseOverhead ndebug pg.rep (mem.vpages v).overhead
  .ok ⟨mem.freePage v, rep⟩

/-- `VPage_free` on pages in turn. -/
def freeAll (ndebug : Bool) : Pager R → List PageId → Except Stop (Pager R)
  | pg, [] => .ok pg
  | pg, v :: vs => do freeAll ndebug (← pg.freeVPage ndebug v) vs

/-! ## Well-formed pagers -/

variable {pg : Pager R} {u v : PageId} {ndebug : Bool}

/-- Memory is well formed, and the replacement module tracks it. -/
structure WellFormed [R.Lawful] (pg : Pager R) : Prop where
  mem : pg.mem.WellFormed
  tracks : ReplaceModule.Lawful.Tracks pg.mem pg.rep

theorem init_wellFormed [R.Lawful] {n : ℕ} (hn : 0 < n) : (init R n).WellFormed :=
  ⟨Memory.init_wellFormed n, ReplaceModule.Lawful.tracks_init n hn⟩

/-- A page of a process is made, unless its overhead is misread. -/
theorem initVPage_eq {overhead pid : ℕ} (hp : pid ≠ 0) (vpn : ℕ) :
    pg.initVPage ndebug overhead pid vpn =
      R.assertOverhead ndebug overhead >>= fun _ => .ok (pg.newVPage pid vpn) := by
  rw [initVPage, if_pos hp]

/-- The page made by `VPage_init`, and the rest of the memory. -/
theorem mem_newVPage (pg : Pager R) (pid vpn : ℕ) :
    ∃ o, (pg.newVPage pid vpn).1.mem = pg.mem.newPage pid vpn o := by
  rw [newVPage]
  split
  exact ⟨_, rfl⟩

theorem WellFormed.newVPage [R.Lawful] (h : pg.WellFormed) {pid : ℕ} (hp : pid ≠ 0) (vpn : ℕ) :
    (pg.newVPage pid vpn).1.WellFormed := by
  simp only [Pager.newVPage, if_pos hp]
  exact ⟨h.mem.newPage .., ReplaceModule.Lawful.tracks_new pid vpn h.mem h.tracks⟩

variable (ndebug) in
/-- Freeing a page evicts it, if it is in memory, and releases its overhead. -/
theorem freeVPage_eq (h : pg.mem.WellFormed) (hv : pg.mem.live v = true) :
    pg.freeVPage ndebug v = R.releaseOverhead ndebug pg.rep (pg.mem.vpages v).overhead >>=
      fun rep => .ok ⟨(pg.mem.dropped v).freePage v, rep⟩ := by
  have hmem : evictIfInMemory pg.mem v = .ok (pg.mem.dropped v) := by
    rw [evictIfInMemory, Memory.dropped]
    split
    · next hi => exact Memory.evictPage_eq h (h.memory_currentPPN ⟨hv, hi⟩)
    · rfl
  rw [freeVPage, hmem, ok_bind, Memory.overhead_dropped]

variable (ndebug) in
theorem freeVPage_ok [R.Lawful] (h : pg.WellFormed) (hv : pg.mem.live v = true) :
    ∃ rep, R.releaseOverhead ndebug pg.rep (pg.mem.vpages v).overhead = .ok rep ∧
      pg.freeVPage ndebug v = .ok ⟨(pg.mem.dropped v).freePage v, rep⟩ ∧
      WellFormed ⟨(pg.mem.dropped v).freePage v, rep⟩ := by
  obtain ⟨rep, hok, ht⟩ := ReplaceModule.Lawful.releaseOverhead_ok ndebug h.mem h.tracks hv
  exact ⟨rep, hok, by rw [freeVPage_eq ndebug h.mem hv, hok, ok_bind], h.mem.freed hv, ht⟩

/-- What is left after freeing the pages `vs`: the other pages, as they were. -/
structure Freed (vs : List PageId) (pg pg' : Pager R) : Prop where
  live : ∀ u, pg'.mem.live u = true ↔ pg.mem.live u = true ∧ u ∉ vs
  resident : ∀ u, pg'.mem.Resident u ↔ pg.mem.Resident u ∧ u ∉ vs
  vpages : ∀ u ∉ vs, pg'.mem.vpages u = pg.mem.vpages u
  memSize : pg'.mem.memSize = pg.mem.memSize
  nextPage : pg'.mem.nextPage = pg.mem.nextPage

theorem freed_single (pg : Pager R) (v : PageId) (rep : R.State) :
    Freed [v] pg ⟨(pg.mem.dropped v).freePage v, rep⟩ where
  live u := by by_cases hu : u = v <;> simp [Memory.freePage, hu]
  resident u := by rw [Memory.resident_freed, List.mem_singleton]
  vpages u hu := by
    rw [List.mem_singleton] at hu
    simp only [Memory.freePage, Memory.dropped]
    split <;> simp [Memory.evicted, hu]
  memSize := by simp only [Memory.freePage, Memory.dropped]; split <;> rfl
  nextPage := by simp only [Memory.freePage, Memory.dropped]; split <;> rfl

/-- Pages are freed one after the other. -/
theorem Freed.trans {vs ws : List PageId} {pg pg' pg'' : Pager R} (h : Freed vs pg pg')
    (h' : Freed ws pg' pg'') : Freed (vs ++ ws) pg pg'' where
  live u := by rw [h'.live, h.live, List.mem_append, not_or, and_assoc]
  resident u := by rw [h'.resident, h.resident, List.mem_append, not_or, and_assoc]
  vpages u hu := by
    rw [List.mem_append, not_or] at hu
    rw [h'.vpages u hu.2, h.vpages u hu.1]
  memSize := h'.memSize.trans h.memSize
  nextPage := h'.nextPage.trans h.nextPage

variable (ndebug) in
/-- Live pages are freed without error, whatever the order. -/
theorem freeAll_ok [R.Lawful] {vs : List PageId} (h : pg.WellFormed) (hnd : vs.Nodup)
    (hl : ∀ v ∈ vs, pg.mem.live v = true) :
    ∃ pg', pg.freeAll ndebug vs = .ok pg' ∧ pg'.WellFormed ∧ Freed vs pg pg' := by
  induction vs generalizing pg with
  | nil => exact ⟨pg, rfl, h, by simp, by simp, by simp, rfl, rfl⟩
  | cons v vs ih =>
    obtain ⟨hv, hnd⟩ := List.nodup_cons.1 hnd
    obtain ⟨rep, -, hok, hw⟩ := freeVPage_ok ndebug h (hl v (by simp))
    have hf := freed_single pg v rep
    obtain ⟨pg', hok', hw', hf'⟩ := ih hw hnd fun u hu => (hf.live u).2
      ⟨hl u (by simp [hu]), by rw [List.mem_singleton]; rintro rfl; exact hv hu⟩
    exact ⟨pg', by rw [freeAll, hok, ok_bind, hok'], hw', hf.trans hf'⟩

/-- The frames of the pages freed are empty, the others are as they were. -/
theorem Freed.memory_iff [R.Lawful] {vs : List PageId} {pg pg' : Pager R} (h : Freed vs pg pg')
    (hw : pg.WellFormed) (hw' : pg'.WellFormed) {ppn : ℕ} :
    pg'.mem.memory ppn = some v ↔ pg.mem.memory ppn = some v ∧ v ∉ vs := by
  rw [hw'.mem.memory_iff, hw.mem.memory_iff, h.resident]
  refine ⟨fun ⟨⟨hr, hv⟩, hppn⟩ => ⟨⟨hr, ?_⟩, hv⟩, fun ⟨⟨hr, hppn⟩, hv⟩ => ⟨⟨hr, hv⟩, ?_⟩⟩
  · rwa [h.vpages v hv] at hppn
  · rwa [h.vpages v hv]

theorem allocated_freed (h : pg.mem.WellFormed) (hv : pg.mem.live v = true) :
    ((pg.mem.dropped v).freePage v).allocated + (pg.mem.vpages v).inMemory.toNat =
      pg.mem.allocated := by
  rw [Memory.dropped]
  split
  · next hm =>
    have hpos := h.allocated_pos (h.memory_currentPPN ⟨hv, hm⟩)
    rw [hm]
    exact Nat.sub_add_cancel hpos
  · next hm =>
    rw [Bool.eq_false_iff.2 hm]
    rfl

/-- Freeing pages takes the resident ones off the counter. -/
theorem freeAll_allocated [R.Lawful] {vs : List PageId} {pg' : Pager R} (h : pg.WellFormed)
    (hnd : vs.Nodup) (hl : ∀ v ∈ vs, pg.mem.live v = true)
    (hf : pg.freeAll ndebug vs = .ok pg') :
    pg'.mem.allocated + vs.countP (fun v => (pg.mem.vpages v).inMemory) = pg.mem.allocated := by
  induction vs generalizing pg with
  | nil =>
    obtain rfl := Except.ok.inj hf
    rfl
  | cons v vs ih =>
    obtain ⟨hv, hnd⟩ := List.nodup_cons.1 hnd
    obtain ⟨rep, -, hok, hw⟩ := freeVPage_ok ndebug h (hl v List.mem_cons_self)
    rw [freeAll, hok, ok_bind] at hf
    have hfr := freed_single pg v rep
    have hne : ∀ u ∈ vs, u ∉ [v] := fun u hu e => hv (List.mem_singleton.1 e ▸ hu)
    have hrest := ih hw hnd (fun u hu => (hfr.live u).2
      ⟨hl u (List.mem_cons_of_mem v hu), hne u hu⟩) hf
    have hcount : vs.countP (fun u => (((pg.mem.dropped v).freePage v).vpages u).inMemory) =
        vs.countP fun u => (pg.mem.vpages u).inMemory :=
      List.countP_congr fun u hu => by rw [← hfr.vpages u (hne u hu)]
    have hself := allocated_freed h.mem (hl v List.mem_cons_self)
    rw [hcount] at hrest
    rw [List.countP_cons, ← hself, ← hrest]
    cases (pg.mem.vpages v).inMemory with
    | false => rfl
    | true => exact (Nat.add_assoc _ _ 1).symm

end Pager

end Pfsim
