import Pfsim.Simulator.Alone
import Pfsim.Simulator.ClockRing
import Pfsim.Simulator.Inclusion
import Pfsim.Simulator.Queue

/-!
# The algorithms of the four builds

Each build implements the algorithm of its policy (`Policy.algorithm`): the queue of LRU and
FIFO is that of the algorithm, the last page first; the frames of the random build are filled
in order, and so are those of the clock, until memory is full.

* `single_faults`: with a single process number, the simulator reports the faults of the
  algorithm on the page numbers of the trace file, and the time follows.
-/

namespace Pfsim

/-- The algorithm of a policy, with `m` frames. The clock has a variant of second chance, in
    which the page loaded is the first one the hand goes over next. -/
def Policy.algorithm (m : ℕ) : Policy → Paging.Algorithm ℕ
  | lru => Paging.lru m
  | fifo => Paging.fifo m
  | clock => Paging.clockAtHead m
  | random rand => Paging.random m rand

/-- The number of a page. -/
def Memory.number (m : Memory) (v : PageId) : ℕ := (m.vpages v).vpn

namespace Memory

variable {m : Memory} {v w : PageId} {ppn : ℕ}

theorem number_evicted : (m.evicted ppn v).number = m.number := funext fun _ => vpn_evicted

theorem number_loaded : (m.loaded v ppn).number = m.number := funext fun _ => vpn_loaded

/-- A new page does not change the number of the others. -/
theorem WellFormed.number_newPage (h : m.WellFormed) (pid vpn : ℕ) (o : Option PageId)
    (hv : m.live v = true) : (m.newPage pid vpn o).number v = m.number v :=
  (h.keeps_newPage hv pid vpn o).vpn

end Memory

/-! ## LRU and FIFO -/

namespace Policy

variable {π : Policy} {c : Setup} {l : List ℕ} {v : PageId} {ppn : ℕ}

/-- The numbers of the pages queued, the last one first. -/
def Queued (π : Policy) (pg : Pager π.replace) (l : List ℕ) : Prop :=
  ∃ q, π.pageQueue pg.rep = some q ∧ (q.queue.map pg.mem.number).reverse = l

variable {pg : Pager π.replace} {rep : π.replace.State}

theorem Queued.mem_iff (h : π.Queued pg l) (hpg : pg.WellFormed) {n : ℕ} :
    n ∈ l ↔ ∃ v, pg.mem.Resident v ∧ pg.mem.number v = n := by
  obtain ⟨q, hq, rfl⟩ := h
  rw [List.mem_reverse, List.mem_map]
  exact exists_congr fun v => and_congr_left fun _ => (π.tracks hpg.tracks hq).mem_queue v

theorem Queued.new (h : π.Queued pg l) (hpg : pg.WellFormed) (pid vpn : ℕ) :
    π.Queued (pg.newVPage pid vpn).1 l := by
  obtain ⟨q, hq, rfl⟩ := h
  obtain ⟨o, hmem⟩ := Pager.mem_newVPage pg pid vpn
  have hqueue : ∃ q', π.pageQueue (pg.newVPage pid vpn).1.rep = some q' ∧ q'.queue = q.queue := by
    rw [Pager.newVPage]
    dsimp only
    split
    · exact queue_initOverhead hq _
    · exact ⟨q, hq, rfl⟩
  obtain ⟨q', hq', hqueue⟩ := hqueue
  refine ⟨q', hq', ?_⟩
  rw [hqueue, hmem]
  refine congrArg List.reverse (List.map_congr_left fun v hv => ?_)
  exact hpg.mem.number_newPage _ _ _ (((π.tracks hpg.tracks hq).mem_queue v).1 hv).1

/-- The search for a frame leaves room for a page more. -/
theorem Queued.findFrame {s : Sim π.replace} {victim : Option PageId} (h : π.Queued s.pager l)
    (hs : s.WellFormed c) (hf : s.findFrame c = .ok (ppn, victim, pg)) :
    π.Queued pg (l.take (c.frames - 1)) := by
  obtain ⟨q, hq, rfl⟩ := h
  obtain ⟨q', hq', hqueue⟩ := Sim.queue_findFrame hs hf hq
  have hlen := (π.tracks hs.pager.tracks hq).length
  have hsize := hs.memSize
  refine ⟨q', hq', ?_⟩
  rcases (Sim.findFrame_ok hs hf).cases with ⟨hfree, rfl, rfl⟩ | ⟨hfull, w, rfl, hw, hmem⟩
  · -- There was room.
    have hlt : s.pager.mem.allocated < s.pager.mem.memSize := by
      simpa [Memory.hasFreePage] using hfree
    rw [hqueue, Option.elim_none, List.take_of_length_le]
    rw [List.length_reverse, List.length_map]
    omega
  · -- The first page of the queue has been evicted.
    have hge : s.pager.mem.memSize ≤ s.pager.mem.allocated := by
      simpa [Memory.hasFreePage] using hfull
    have hle := hs.pager.mem.allocated_le
    obtain ⟨w', q'', hq'', hcons, hw'⟩ : ∃ w' q'', π.pageQueue pg.rep = some q'' ∧
        q.queue = w' :: q''.queue ∧ s.pager.mem.memory ppn = some w' := by
      rw [Sim.findFrame, if_neg (by simp [hfull])] at hf
      obtain ⟨⟨ppn', rep⟩, hget, hf⟩ := bind_eq_ok.1 hf
      obtain ⟨mem, -, hf⟩ := bind_eq_ok.1 hf
      obtain ⟨rfl, -, rfl⟩ : ppn' = ppn ∧ s.pager.mem.memory ppn' = some w ∧ ⟨mem, rep⟩ = pg := by
        simpa using hf
      exact π.dequeues hs.pager.mem hs.pager.tracks hq hget
    obtain rfl := Option.some.inj (hq''.symm.trans hq')
    rw [hcons] at hlen ⊢
    rw [hmem, Memory.number_evicted, List.map_cons, List.reverse_cons, List.take_left']
    rw [List.length_cons] at hlen
    rw [List.length_reverse, List.length_map]
    omega

/-- A page loaded comes first. -/
theorem Queued.load {s : Sim π.replace} {victim : Option PageId} (h : π.Queued s.pager l)
    (hs : s.WellFormed c) (hv : s.pager.mem.live v = true)
    (hf : s.findFrame c = .ok (ppn, victim, pg))
    (hl : π.replace.notifyPageLoad c.ndebug (pg.mem.loaded v ppn) pg.rep
      (pg.mem.vpages v).overhead = .ok rep) :
    π.Queued ⟨pg.mem.loaded v ppn, rep⟩ (s.pager.mem.number v :: l.take (c.frames - 1)) := by
  have hfr := Sim.findFrame_ok hs hf
  have hnumber : pg.mem.number v = s.pager.mem.number v := (hfr.keeps v).vpn
  obtain ⟨q, hq, hqueue⟩ := h.findFrame hs hf
  rw [(π.tracks hfr.wellFormed.tracks hq).overhead v ((hfr.keeps v).live.trans hv)] at hl
  obtain ⟨q', hq', hload⟩ := queue_load hq hl
  refine ⟨q', hq', ?_⟩
  rw [hload, Memory.number_loaded, List.map_append, List.reverse_append, hqueue, ← hnumber]
  rfl

end Policy

/-- The LRU build. -/
def Implements.lru (c : Setup) : Implements c Policy.lru.replace (Paging.lru c.frames) where
  View := Policy.lru.Queued
  init := ⟨_, rfl, rfl⟩
  mem_iff hpg h := h.mem_iff hpg
  new pid vpn hpg h := h.new hpg pid vpn
  access {pg a v rep} hpg hnum h hv ha := by
    obtain ⟨q, hq, rfl⟩ := h
    obtain rfl := Option.some.inj hq
    exact ⟨rep, rfl, hpg.recent_access hv (fun u hu he => hnum u v hu.1 hv.1 he) ha⟩
  load hs h hv _ hf hl := h.load hs hv hf hl

/-- The FIFO build. -/
def Implements.fifo (c : Setup) : Implements c Policy.fifo.replace (Paging.fifo c.frames) where
  View := Policy.fifo.Queued
  init := ⟨_, rfl, rfl⟩
  mem_iff hpg h := h.mem_iff hpg
  new pid vpn hpg h := h.new hpg pid vpn
  access _ _ h _ ha := Except.ok.inj ha ▸ h
  load hs h hv _ hf hl := h.load hs hv hf hl

/-! ## Random replacement -/

namespace Memory

variable {m : Memory} {l : List ℕ} {v : PageId} {ppn : ℕ}

/-- The frames hold the pages of these numbers, in order, and no others. -/
def Framed (m : Memory) (l : List ℕ) : Prop := ∀ i, (m.memory i).map m.number = l[i]?

theorem Framed.isSome_iff (h : m.Framed l) {i : ℕ} : (m.memory i).isSome ↔ i < l.length := by
  rw [← Option.isSome_map (f := m.number), h i]
  simp

theorem Framed.length (h : m.Framed l) (hm : m.WellFormed) : l.length = m.allocated := by
  rw [hm.allocated_eq]
  refine (Finset.card_range l.length).symm.trans (congrArg Finset.card (Finset.ext fun i => ?_))
  rw [Finset.mem_range, mem_occupied, h.isSome_iff]
  refine ⟨fun hi => ⟨?_, hi⟩, And.right⟩
  obtain ⟨v, hv⟩ := Option.isSome_iff_exists.1 (h.isSome_iff.2 hi)
  exact hm.frame_lt_memSize hv

theorem Framed.mem_iff (h : m.Framed l) (hm : m.WellFormed) {n : ℕ} :
    n ∈ l ↔ ∃ v, m.Resident v ∧ m.number v = n := by
  rw [List.mem_iff_getElem?]
  constructor
  · rintro ⟨i, hi⟩
    obtain ⟨v, hv, rfl⟩ := Option.map_eq_some_iff.1 ((h i).trans hi)
    exact ⟨v, hm.resident hv, rfl⟩
  · rintro ⟨v, hv, rfl⟩
    exact ⟨_, (h _).symm.trans (by rw [hm.memory_currentPPN hv]; rfl)⟩

theorem Framed.newPage (h : m.Framed l) (hm : m.WellFormed) (pid vpn : ℕ) (o : Option PageId) :
    (m.newPage pid vpn o).Framed l := by
  intro i
  rw [← h i]
  change (m.memory i).map _ = _
  cases hv : m.memory i with
  | none => rfl
  | some v => exact congrArg some (hm.number_newPage pid vpn o (hm.resident hv).1)

/-- A page in the first empty frame. -/
theorem Framed.append (h : m.Framed l) (v : PageId) :
    (m.loaded v l.length).Framed (l ++ [m.number v]) := by
  intro i
  rw [number_loaded]
  change (Function.update m.memory l.length (some v) i).map m.number = _
  rw [Function.update_apply]
  split
  · next hi => simp [hi]
  · next hi =>
    rw [h i]
    rcases Nat.lt_or_ge i l.length with hlt | hge
    · rw [List.getElem?_append_left hlt]
    · rw [List.getElem?_eq_none hge, List.getElem?_eq_none]
      rw [List.length_append, List.length_singleton]
      omega

/-- A page in the place of another one. -/
theorem Framed.set (h : m.Framed l) (hppn : ppn < l.length) (u v : PageId) :
    ((m.evicted ppn u).loaded v ppn).Framed (l.set ppn (m.number v)) := by
  intro i
  rw [number_loaded, number_evicted]
  change (Function.update (Function.update m.memory ppn none) ppn (some v) i).map m.number = _
  rw [Function.update_idem, Function.update_apply, List.getElem?_set]
  by_cases hi : i = ppn
  · rw [if_pos hi, if_pos hi.symm, if_pos (hi ▸ hppn)]
    rfl
  · rw [if_neg hi, if_neg (Ne.symm hi), h i]

/-- The frame found is the first empty one. -/
theorem WellFormed.getFreePage_ok (hm : m.WellFormed) (hf : m.getFreePage = .ok ppn) :
    m.memory ppn = none ∧ ∀ k < ppn, m.memory k ≠ none := by
  by_cases ha : m.allocated < m.tracked
  · obtain ⟨ppn', hok, -, hempty, hleast⟩ := getFreePage_eq_ok hm ha
    obtain rfl := Except.ok.inj (hok.symm.trans hf)
    exact ⟨hempty, hleast⟩
  · obtain ⟨msg, herr⟩ := getFreePage_eq_error hm ha
    cases herr.symm.trans hf

theorem Framed.getFreePage (h : m.Framed l) (hm : m.WellFormed) (hf : m.getFreePage = .ok ppn) :
    ppn = l.length := by
  obtain ⟨hempty, hleast⟩ := hm.getFreePage_ok hf
  refine le_antisymm (not_lt.1 fun hlt => ?_) (not_lt.1 fun hlt => ?_)
  · obtain ⟨v, hv⟩ := Option.ne_none_iff_exists'.1 (hleast _ hlt)
    exact absurd (h.isSome_iff.1 (by rw [hv]; rfl)) (lt_irrefl _)
  · have := h.isSome_iff.2 hlt
    rw [hempty] at this
    cases this

end Memory

/-- What the search for a frame does, when there is room and when there is none. -/
theorem Sim.findFrame_eq {R : ReplaceModule} {c : Setup} {s : Sim R} {ppn : ℕ}
    {victim : Option PageId} {pg : Pager R} (hf : s.findFrame c = .ok (ppn, victim, pg)) :
    (s.pager.mem.hasFreePage = true ∧ s.pager.mem.getFreePage = .ok ppn ∧ pg = s.pager) ∨
      s.pager.mem.hasFreePage = false ∧
        R.getPageToEvict c.ndebug s.pager.mem s.pager.rep = .ok (ppn, pg.rep) := by
  rw [findFrame] at hf
  split at hf
  · next hfree =>
    obtain ⟨ppn', hget, hf⟩ := bind_eq_ok.1 hf
    obtain ⟨rfl, -, rfl⟩ : ppn' = ppn ∧ none = victim ∧ s.pager = pg := by simpa using hf
    exact .inl ⟨hfree, hget, rfl⟩
  · next hfull =>
    obtain ⟨⟨ppn', rep⟩, hget, hf⟩ := bind_eq_ok.1 hf
    obtain ⟨mem, -, hf⟩ := bind_eq_ok.1 hf
    obtain ⟨rfl, -, rfl⟩ : ppn' = ppn ∧ s.pager.mem.memory ppn' = victim ∧ ⟨mem, rep⟩ = pg := by
      simpa using hf
    exact .inr ⟨by simpa using hfull, hget⟩

/-- The frames, filled in order, and the number of draws so far. -/
def Pager.Drawn {rand : ℕ → ℕ} (n : ℕ) (pg : Pager (Policy.random rand).replace)
    (x : List ℕ × ℕ) : Prop :=
  pg.rep = (⟨n, x.2⟩ : RandomDraw) ∧ pg.mem.Framed x.1

namespace Pager.Drawn

variable {rand : ℕ → ℕ} {n : ℕ} {x : List ℕ × ℕ} {v : PageId} {ppn : ℕ} {c : Setup}

theorem new {pg : Pager (Policy.random rand).replace} (h : pg.Drawn n x) (hpg : pg.WellFormed)
    (pid vpn : ℕ) : (pg.newVPage pid vpn).1.Drawn n x := by
  obtain ⟨o, hmem⟩ := Pager.mem_newVPage pg pid vpn
  refine ⟨?_, hmem ▸ h.2.newPage hpg.mem pid vpn o⟩
  rw [Pager.newVPage]
  dsimp only
  split <;> exact h.1

/-- The page goes to the first free frame, or to a frame drawn. -/
theorem load {s : Sim (Policy.random rand).replace} {victim : Option PageId}
    {pg : Pager (Policy.random rand).replace} (h : s.pager.Drawn c.frames x) (hs : s.WellFormed c)
    (hf : s.findFrame c = .ok (ppn, victim, pg)) :
    Pager.Drawn c.frames ⟨pg.mem.loaded v ppn, pg.rep⟩
      ((Paging.random c.frames rand).load (s.pager.mem.number v) x) := by
  obtain ⟨hrep, hframed⟩ := h
  have hlen := hframed.length hs.pager.mem
  have hsize := hs.memSize
  rcases Sim.findFrame_eq hf with ⟨hfree, hget, rfl⟩ | ⟨hfull, hget⟩
  · have hlt : s.pager.mem.allocated < s.pager.mem.memSize := by
      simpa [Memory.hasFreePage] using hfree
    -- The frames in use are the first ones, so the one found is the next.
    obtain rfl := hframed.getFreePage hs.pager.mem hget
    have hload : (Paging.random c.frames rand).load (s.pager.mem.number v) x =
        (x.1 ++ [s.pager.mem.number v], x.2) := if_pos (by omega)
    rw [hload]
    exact ⟨hrep, hframed.append v⟩
  · have hge : s.pager.mem.memSize ≤ s.pager.mem.allocated := by
      simpa [Memory.hasFreePage] using hfull
    have hge : c.frames ≤ x.1.length := by omega
    obtain ⟨u, hmem⟩ : ∃ u, pg.mem = s.pager.mem.evicted ppn u := by
      rcases (Sim.findFrame_ok hs hf).cases with ⟨hfree, -⟩ | ⟨-, u, -, -, hmem⟩
      · cases hfull.symm.trans hfree
      · exact ⟨u, hmem⟩
    rw [hrep] at hget
    obtain ⟨rfl, hrep'⟩ := Prod.mk.inj (Except.ok.inj
      ((if_neg c.frames_pos.ne').symm.trans hget))
    have hload : (Paging.random c.frames rand).load (s.pager.mem.number v) x =
        (x.1.set (rand x.2 % c.frames) (s.pager.mem.number v), x.2 + 1) :=
      if_neg (not_lt.2 hge)
    rw [hload, hmem]
    exact ⟨hrep'.symm, hframed.set ((Nat.mod_lt _ c.frames_pos).trans_le hge) u v⟩

end Pager.Drawn

/-- The random build. -/
def Implements.random (c : Setup) (rand : ℕ → ℕ) :
    Implements c (Policy.random rand).replace (Paging.random c.frames rand) where
  View := Pager.Drawn c.frames
  init := ⟨rfl, fun _ => rfl⟩
  mem_iff hpg h := h.2.mem_iff hpg.mem
  new pid vpn hpg h := h.new hpg pid vpn
  access _ _ h _ ha := ⟨(Except.ok.inj ha).symm.trans h.1, h.2⟩
  load hs h _ _ hf hl := Except.ok.inj hl ▸ h.load hs hf

/-! ## Clock -/

open SecondChance in
/-- The pages of the queue, under other names. -/
theorem pop_map {α β : Type*} (f : α → β) (n : ℕ) (q : Queue α) :
    pop n (q.map (Prod.map f id)) =
      (pop n q).map fun x => (f x.1, x.2.map (Prod.map f id)) := by
  induction n generalizing q with
  | zero => rfl
  | succ n ih =>
    match q with
    | [] => rfl
    | (v, false) :: q => rfl
    | (v, true) :: q =>
      have := ih (q ++ [(v, false)])
      rw [List.map_append] at this
      exact this

namespace Clock

open SecondChance

variable {m : Memory} {k : Clock} {q : Queue PageId} {v w : PageId} {ppn : ℕ}

/-- The queue has the pages of the frames with their bits, from the hand on. Until memory
    is full, the frames are filled in order, and the hand is at the first one. -/
structure Fills (m : Memory) (k : Clock) (q : Queue PageId) : Prop where
  length_le : q.length ≤ k.numPages
  memory : ∀ j < k.numPages, m.memory (k.frame j) = q[j]?.map Prod.fst
  bit : ∀ j (h : j < q.length), k.shadowMemReflist (k.frame j) = some q[j].2
  hand : q.length < k.numPages → k.clockHand = 0

theorem Fills.rings (h : Fills m k q) (hfull : k.numPages ≤ q.length) : Rings m k q where
  length := le_antisymm h.length_le hfull
  memory j hj := by
    rw [h.memory j (hj.trans_le h.length_le), List.getElem?_eq_getElem hj, Option.map_some]
  bit := h.bit

theorem Rings.fills (h : Rings m k q) : Fills m k q where
  length_le := h.length.le
  memory j hj := by
    have hj : j < q.length := h.length ▸ hj
    rw [h.memory j hj, List.getElem?_eq_getElem hj, Option.map_some]
  bit := h.bit
  hand hlt := absurd h.length hlt.ne

/-- With the hand at the first frame. -/
theorem frame_of_hand (hhand : k.clockHand = 0) {j : ℕ} (hj : j < k.numPages) :
    k.frame j = j := by
  rw [frame, hhand, Nat.zero_add, Nat.mod_eq_of_lt hj]

theorem Fills.framed (h : Fills m k q) (hm : m.WellFormed) (ht : k.Tracks m)
    (hlt : q.length < k.numPages) : m.Framed (q.map fun x => m.number x.1) := by
  intro i
  rw [List.getElem?_map]
  rcases Nat.lt_or_ge i k.numPages with hi | hi
  · have := h.memory i hi
    rw [frame_of_hand (h.hand hlt) hi] at this
    rw [this, Option.map_map]
    rfl
  · have hnone : m.memory i = none := Option.eq_none_iff_forall_ne_some.2 fun v hv =>
      absurd (hm.frame_lt_memSize hv) (not_lt.2 (ht.numPages ▸ hi))
    rw [hnone, List.getElem?_eq_none (hlt.le.trans hi)]
    rfl

/-- The pages of the queue are the resident ones. -/
theorem Fills.mem_iff (h : Fills m k q) (hm : m.WellFormed) (ht : k.Tracks m) :
    v ∈ q.map Prod.fst ↔ m.Resident v := by
  have hhand : k.clockHand < k.numPages := ht.numPages ▸ ht.clockHand
  rw [List.mem_iff_getElem?]
  constructor
  · rintro ⟨j, hj⟩
    rw [List.getElem?_map] at hj
    have hlt : j < q.length := by
      by_contra hge
      rw [List.getElem?_eq_none (not_lt.1 hge)] at hj
      cases hj
    exact hm.resident ((h.memory j (hlt.trans_le h.length_le)).trans hj)
  · intro hv
    have hmem := hm.memory_currentPPN hv
    obtain ⟨j, hj, hf⟩ := exists_frame hhand (ht.numPages.symm ▸ hm.frame_lt_memSize hmem)
    refine ⟨j, ?_⟩
    rw [List.getElem?_map, ← h.memory j hj, hf, hmem]

/-- Setting the bit of the frame of a page. -/
theorem Fills.touch (h : Fills m k q) (hm : m.WellFormed) (hv : m.Resident v) :
    Fills m { k with shadowMemReflist :=
      Function.update k.shadowMemReflist (m.vpages v).currentPPN (some true) }
      (SecondChance.touch v q) where
  length_le := (List.length_map ..).trans_le h.length_le
  memory j hj := by
    refine (h.memory j hj).trans ?_
    rw [SecondChance.touch, List.getElem?_map, Option.map_map]
    rfl
  bit j hj := by
    have hj : j < q.length := by simpa [SecondChance.touch] using hj
    have hmem := h.memory j (hj.trans_le h.length_le)
    have hbit := h.bit j hj
    rw [List.getElem?_eq_getElem hj, Option.map_some] at hmem
    simp only [SecondChance.touch, List.getElem_map]
    change Function.update k.shadowMemReflist _ _ (k.frame j) = _
    rw [Function.update_apply]
    by_cases he : q[j].1 = v
    · rw [he] at hmem
      rw [if_pos (hm.memory_iff.1 hmem).2.symm, decide_eq_true he, Bool.or_true]
    · have hne : k.frame j ≠ (m.vpages v).currentPPN := fun hf => by
        rw [hf, hm.memory_currentPPN hv] at hmem
        exact he (Option.some.inj hmem).symm
      rw [if_neg hne, decide_eq_false he, Bool.or_false, hbit]
  hand hlt := h.hand ((List.length_map ..).symm.trans_lt hlt)

/-- A page in the first empty frame. -/
theorem Fills.append (h : Fills m k q) (hlt : q.length < k.numPages) (w : PageId) :
    Fills (m.loaded w q.length)
      { k with shadowMemReflist := Function.update k.shadowMemReflist q.length (some true) }
      (q ++ [(w, true)]) where
  length_le := by
    rw [List.length_append]
    exact hlt
  memory j hj := by
    -- The hand has not moved yet, so that the place of a frame after it is its number.
    have hframe := frame_of_hand (h.hand hlt) hj
    have hmem := h.memory j hj
    change Function.update m.memory q.length (some w) (k.frame j) = _
    rw [hframe] at hmem ⊢
    rw [Function.update_apply, hmem]
    rcases Nat.lt_trichotomy j q.length with hj | rfl | hj
    · rw [if_neg hj.ne, List.getElem?_append_left hj]
    · simp
    · rw [if_neg hj.ne', List.getElem?_eq_none hj.le, List.getElem?_eq_none]
      rw [List.length_append]
      exact hj
  bit j hj := by
    have hj' : j < q.length + 1 := by simpa using hj
    have hframe := frame_of_hand (h.hand hlt) (lt_of_lt_of_le hj' hlt)
    change Function.update k.shadowMemReflist q.length (some true) (k.frame j) = _
    rw [hframe, Function.update_apply]
    rcases Nat.lt_succ_iff_lt_or_eq.1 hj' with hj | rfl
    · have hbit := h.bit j hj
      rw [hframe] at hbit
      rw [if_neg hj.ne, hbit, List.getElem_append_left hj]
    · simp
  hand _ := h.hand hlt

end Clock

/-- The numbers of the pages of the frames, with their bits, from the hand on. -/
def Pager.Turned (pg : Pager Policy.clock.replace) (a : SecondChance.Queue ℕ) : Prop :=
  ∃ q, Clock.Fills pg.mem pg.rep q ∧ q.map (Prod.map pg.mem.number id) = a

/-- When memory is full, the queue has all the frames. -/
theorem Clock.Fills.length_ge {m : Memory} {k : Clock} {q : SecondChance.Queue PageId}
    (h : Clock.Fills m k q) (hm : m.WellFormed) (ht : k.Tracks m)
    (hfull : m.hasFreePage = false) : k.numPages ≤ q.length := by
  by_contra hlt
  have hframed := (h.framed hm ht (not_le.1 hlt)).length hm
  rw [List.length_map] at hframed
  rw [ht.numPages, hframed] at hlt
  simp only [Memory.hasFreePage, gt_iff_lt, decide_eq_false_iff_not] at hfull
  omega

/-- A page in the place of the one where the sweep stops. -/
theorem Clock.Fills.replace {m : Memory} {k k' : Clock} {q : SecondChance.Queue PageId}
    {ndebug : Bool} {ppn : ℕ} (h : Clock.Fills m k q) (hm : m.WellFormed) (ht : k.Tracks m)
    (hfull : m.hasFreePage = false) (hget : Clock.getPageToEvict ndebug m k = .ok (ppn, k')) :
    ∃ u q', SecondChance.evict q = some (u, q') ∧ m.memory ppn = some u ∧
      ∀ w, Clock.Fills ((m.evicted ppn u).loaded w ppn)
        { k' with shadowMemReflist := Function.update k'.shadowMemReflist ppn (some true) }
        ((w, true) :: q') := by
  have hlen := h.length_ge hm ht hfull
  obtain ⟨hsweep, rfl⟩ := Clock.sweep_of_getPageToEvict hfull hget
  obtain ⟨u, q', hpop, hq', hlt⟩ := (h.rings hlen).sweep (ht.numPages ▸ ht.clockHand) hsweep
  have hmem := hq'.memory 0 (Nat.succ_pos _)
  rw [Clock.frame_zero hlt] at hmem
  refine ⟨u, q', ?_, hmem, fun w => (hq'.replace hlt).fills⟩
  rw [SecondChance.evict, (h.rings hlen).length]
  exact hpop

/-- The clock build. -/
def Implements.clock (c : Setup) :
    Implements c Policy.clock.replace (Paging.clockAtHead c.frames) where
  View := Pager.Turned
  init := ⟨[], ⟨Nat.zero_le _, fun _ _ => rfl, fun _ h => absurd h (Nat.not_lt_zero _),
    fun _ => rfl⟩, rfl⟩
  mem_iff {pg a n} hpg h := by
    obtain ⟨q, hq, rfl⟩ := h
    change n ∈ (q.map (Prod.map pg.mem.number id)).map Prod.fst ↔ _
    rw [List.map_map, show Prod.fst ∘ Prod.map pg.mem.number id = pg.mem.number ∘ Prod.fst from rfl,
      ← List.map_map, List.mem_map]
    exact exists_congr fun v => and_congr_left fun _ => hq.mem_iff hpg.mem hpg.tracks
  new {pg a} pid vpn hpg h := by
    obtain ⟨q, hq, rfl⟩ := h
    obtain ⟨o, hmem⟩ := Pager.mem_newVPage pg pid vpn
    have hrep : (pg.newVPage pid vpn).1.rep = pg.rep := by
      rw [Pager.newVPage]
      dsimp only
      split <;> rfl
    refine ⟨q, ?_, ?_⟩
    · rw [hmem, hrep]
      exact ⟨hq.length_le, hq.memory, hq.bit, hq.hand⟩
    · refine List.map_congr_left fun x hx => ?_
      have hlive := ((hq.mem_iff hpg.mem hpg.tracks).1 (List.mem_map_of_mem hx)).1
      rw [hmem]
      exact congrArg (·, x.2) (hpg.mem.number_newPage pid vpn o hlive)
  access {pg a v rep} hpg hnum h hv ha := by
    obtain ⟨q, hq, rfl⟩ := h
    have ht : Clock.Tracks pg.mem pg.rep := hpg.tracks
    rw [ht.overhead v hv.1] at ha
    obtain rfl := Clock.eq_of_notifyPageAccess ha
    refine ⟨_, hq.touch hpg.mem hv, ?_⟩
    change _ = SecondChance.touch (pg.mem.number v) _
    rw [SecondChance.touch, SecondChance.touch, List.map_map, List.map_map]
    refine List.map_congr_left fun x hx => ?_
    have hlive := ((hq.mem_iff hpg.mem ht).1 (List.mem_map_of_mem hx)).1
    have hiff : x.1 = v ↔ pg.mem.number x.1 = pg.mem.number v :=
      ⟨fun e => e ▸ rfl, hnum x.1 v hlive hv.1⟩
    simp [hiff]
  load {s a v ppn victim pg rep} hs h hv _ hf hl := by
    obtain ⟨q, hq, rfl⟩ := h
    have hm := hs.pager.mem
    have ht : Clock.Tracks s.pager.mem s.pager.rep := hs.pager.tracks
    have hfr := Sim.findFrame_ok hs hf
    have ht' : Clock.Tracks pg.mem pg.rep := hfr.wellFormed.tracks
    rw [ht'.overhead v ((hfr.keeps v).live.trans hv)] at hl
    have hcur : ((pg.mem.loaded v ppn).vpages v).currentPPN = ppn := by simp [Memory.loaded]
    have hrep := Clock.eq_of_notifyPageAccess hl
    rw [hcur] at hrep
    have hnum : Clock.numPages s.pager.rep = c.frames := ht.numPages.trans hs.memSize
    change Pager.Turned _ ((Paging.clockAtHead c.frames).load (s.pager.mem.number v) _)
    rcases Sim.findFrame_eq hf with ⟨hfree, hget, rfl⟩ | ⟨hfull, hget⟩
    · -- The page goes in the first empty frame.
      have hlt : q.length < Clock.numPages s.pager.rep := by
        by_contra hge
        cases hfree.symm.trans ((hq.rings (not_lt.1 hge)).full hm ht)
      obtain rfl : ppn = q.length := by
        simpa using (hq.framed hm ht hlt).getFreePage hm hget
      have hload : (Paging.clockAtHead c.frames).load (s.pager.mem.number v)
          (q.map (Prod.map s.pager.mem.number id)) =
          q.map (Prod.map s.pager.mem.number id) ++ [(s.pager.mem.number v, true)] :=
        if_pos (by rwa [List.length_map, ← hnum])
      rw [hload]
      refine ⟨q ++ [(v, true)], hrep ▸ hq.append hlt v, ?_⟩
      rw [Memory.number_loaded, List.map_append]
      rfl
    · -- It takes the place of the page where the sweep stops, at the head.
      obtain ⟨u, q', hevict, hu, hfills⟩ := hq.replace hm ht hfull hget
      have hmem : pg.mem = s.pager.mem.evicted ppn u := by
        rcases hfr.cases with ⟨hfree, -⟩ | ⟨-, u', -, hu', hmem⟩
        · cases hfull.symm.trans hfree
        · rwa [Option.some.inj (hu.symm.trans hu')]
      have hlen : c.frames ≤ q.length := hnum ▸ hq.length_ge hm ht hfull
      have hevict' : SecondChance.evict (q.map (Prod.map s.pager.mem.number id)) =
          some (s.pager.mem.number u, q'.map (Prod.map s.pager.mem.number id)) := by
        rw [SecondChance.evict, List.length_map, pop_map]
        exact congrArg (Option.map _) hevict
      have hload : (Paging.clockAtHead c.frames).load (s.pager.mem.number v)
          (q.map (Prod.map s.pager.mem.number id)) =
          (s.pager.mem.number v, true) :: q'.map (Prod.map s.pager.mem.number id) := by
        refine (if_neg (by rwa [List.length_map, not_lt])).trans ?_
        rw [hevict']
        rfl
      rw [hload]
      refine ⟨(v, true) :: q', ?_, ?_⟩
      · rw [hrep, hmem]
        exact hfills v
      · rw [Memory.number_loaded, hmem, Memory.number_evicted]
        rfl

/-! ## Whole runs -/

/-- A build implements the algorithm of its policy. -/
def Policy.implements (c : Setup) : (π : Policy) → Implements c π.replace (π.algorithm c.frames)
  | lru => .lru c
  | fifo => .fifo c
  | clock => .clock c
  | random rand => .random c rand

variable {c : Setup} {tr : Trace}

/-- With a single process number, a simulation which returns has the faults of the algorithm. -/
theorem Setup.faults_of_returns {π : Policy} {s₀ s : Sim π.replace}
    {ts : List (Machine.Transition (Sim π.replace) Event)} (htext : c.text = tr.text)
    (hpid : tr.Single) (h₀ : c.start π.replace = .ok s₀)
    (h : (c.machine π.replace).Returns s₀ ts s) :
    s.stat.tpi = (π.algorithm c.frames).faults tr.references tr.length :=
  (Setup.Reachable.of_run h₀ h.1).tpi_of_implements (π.implements c) htext hpid h.2

/-- With a single process number, if the simulation returns, the page faults it reports are those
    of the algorithm of its policy on the page numbers of the records, in order. The time is a
    tick for each record, and the disk penalty and a tick more for each fault. It does return
    if the frames all have a bit, and `malloc` leaves `NULL` in what is used before it is
    written. -/
theorem single_faults (c : Setup) (π : Policy) (tr : Trace) (htext : c.text = tr.text)
    (hpid : tr.Single) :
    (32 ∣ c.frames → c.Blank → ∃ s₀ ts s, c.start π.replace = .ok s₀ ∧
      (c.machine π.replace).Returns s₀ ts s) ∧
    ∀ s₀ ts s, c.start π.replace = .ok s₀ → (c.machine π.replace).Returns s₀ ts s →
      s.stat.tmr = tr.length ∧
      s.stat.tpi = (π.algorithm c.frames).faults tr.references tr.length ∧
      s.time = tr.length +
        (π.algorithm c.frames).faults tr.references tr.length * (c.diskPenalty + 1) := by
  refine ⟨fun h32 hb => hb.returns_single htext hpid h32, fun s₀ ts s h₀ h => ?_⟩
  have htpi := Setup.faults_of_returns htext hpid h₀ h
  have hs := Setup.Reachable.of_run h₀ h.1
  have htmr := hs.tmr_of_done htext h.2
  have htime := (hs.time_of_done h.2).2.2 (hs.nextProc_le_one htext hpid)
  exact ⟨htmr, htpi, by rw [htime, htmr, htpi]⟩

/-- The clock, on a trace file which overflows the memory: the page `33` is the last one loaded
    and is hit, and `0` has been evicted. -/
theorem single_faults_again : ∃ (tr : Trace) (s₀ s : Sim Policy.clock.replace) (ts : _),
    (Setup.debug 2 32 tr.text Nat.two_pos Setup.word_pos).start Policy.clock.replace = .ok s₀ ∧
      ((Setup.debug 2 32 tr.text Nat.two_pos Setup.word_pos).machine _).Returns s₀ ts s ∧
      s.stat.tpi = 35 ∧ s.time = 141 := by
  let c : Setup := .debug 2 32 Trace.overflowing.text Nat.two_pos Setup.word_pos
  obtain ⟨hret, hall⟩ := single_faults c .clock .overflowing rfl Trace.overflowing_single
  obtain ⟨s₀, ts, s, h₀, h⟩ := hret ⟨1, rfl⟩ (Setup.debug_blank _ _)
  obtain ⟨-, htpi, htime⟩ := hall s₀ ts s h₀ h
  have hfaults : (Policy.clock.algorithm c.frames).faults Trace.overflowing.references
      Trace.overflowing.length = 35 := by decide +kernel
  rw [hfaults] at htpi htime
  exact ⟨_, s₀, s, ts, h₀, h, htpi, htime⟩

end Pfsim
