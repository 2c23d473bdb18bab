import Pfsim.SecondChance
import Pfsim.Simulator.Frames

/-!
# The clock and second chance

Hits and replacements in turn, in a full memory (`Pager.serve`), as far as memory and the
replacement module go.

The frames of the clock module, from the hand on and all the way round, are a queue
(`Clock.Rings`): a turn of the sweep takes its head to the tail. But the hand stays where
the victim was, so that the page brought in is at the head, and not at the tail where the
second-chance algorithm has it.

* `clock_second_chance`: the pages evicted are those of the second-chance algorithm if
  and only if the sweep finds what it should at each replacement but the first;
* `clock_second_chance_fails`: with 32 frames and 33 pages, it does not.
-/

namespace Pfsim

open SecondChance

/-! ## Hits and replacements -/

instance (m : Memory) (v : PageId) : Decidable (m.Resident v) :=
  inferInstanceAs (Decidable (_ ∧ _))

namespace Pager

variable {R : ReplaceModule} (ndebug : Bool)

/-- A hit on the page `v`. -/
def hitPage (pg : Pager R) (v : PageId) : Except Stop (Pager R) := do
  let rep ← R.notifyPageAccess ndebug pg.mem pg.rep (pg.mem.vpages v).overhead
  .ok { pg with rep := rep }

/-- Loading the page `w` in the place of another one, which is given back: the branch of
    `Simulator_finishCurrentDiskIO` where memory is full. -/
def replacePage (pg : Pager R) (w : PageId) : Except Stop (PageId × Pager R) := do
  let (ppn, rep) ← R.getPageToEvict ndebug pg.mem pg.rep
  match pg.mem.memory ppn with
  | none => .error (.undefined "memory[ppn]->virtualPage is NULL")
  | some u => do
    let mem ← pg.mem.evictPage ppn
    let mem ← mem.loadPage ndebug w ppn
    let rep ← R.notifyPageLoad ndebug mem rep (mem.vpages w).overhead
    .ok (u, ⟨mem, rep⟩)

variable {ndebug} in
theorem replacePage_eq {pg : Pager R} {rep rep' : R.State} {ppn : ℕ} {u w : PageId}
    (hm : pg.mem.WellFormed) (hok : R.getPageToEvict ndebug pg.mem pg.rep = .ok (ppn, rep))
    (hmem : pg.mem.memory ppn = some u) (hlt : ppn < (pg.mem.evicted ppn u).tracked)
    (hempty : (pg.mem.evicted ppn u).memory ppn = none)
    (hload : R.notifyPageLoad ndebug ((pg.mem.evicted ppn u).loaded w ppn) rep
      (pg.mem.vpages w).overhead = .ok rep') :
    pg.replacePage ndebug w = .ok (u, ⟨(pg.mem.evicted ppn u).loaded w ppn, rep'⟩) := by
  rw [replacePage, hok, ok_bind]
  simp only [hmem]
  rw [Memory.evictPage_eq hm hmem, ok_bind, Memory.loadPage_eq hlt hempty, ok_bind,
    Memory.overhead_loaded, Memory.overhead_evicted, hload, ok_bind]

/-- The pages evicted, in turn. -/
def serve : List (SecondChance.Event PageId) → Pager R → Except Stop (List PageId)
  | [], _ => .ok []
  | .hit v :: es, pg => do serve es (← pg.hitPage ndebug v)
  | .replace w :: es, pg => do
    let (u, pg) ← pg.replacePage ndebug w
    let us ← serve es pg
    .ok (u :: us)

/-- Hits are on resident pages, and the pages brought in are live and not resident. -/
def Admissible : List (SecondChance.Event PageId) → Pager R → Prop
  | [], _ => True
  | .hit v :: es, pg => pg.mem.Resident v ∧
    ∀ pg' ∈ (pg.hitPage ndebug v).toOption, Admissible es pg'
  | .replace w :: es, pg => (pg.mem.live w = true ∧ ¬pg.mem.Resident w) ∧
    ∀ x ∈ (pg.replacePage ndebug w).toOption, Admissible es x.2

instance decidableAdmissible :
    ∀ (es : List (SecondChance.Event PageId)) (pg : Pager R), Decidable (pg.Admissible ndebug es)
  | [], _ => .isTrue trivial
  | .hit v :: es, pg =>
    have (pg' : Pager R) := decidableAdmissible es pg'
    inferInstanceAs (Decidable (pg.mem.Resident v ∧ _))
  | .replace w :: es, pg =>
    have (pg' : Pager R) := decidableAdmissible es pg'
    inferInstanceAs (Decidable ((pg.mem.live w = true ∧ ¬pg.mem.Resident w) ∧ _))

/-- The pages `vs` fill the `n` frames in this order, the hand is at the first one, and
    all reference bits are set, as they are when pages have been loaded. -/
structure Filled (n : ℕ) (pg : Pager clock) (vs : List PageId) : Prop where
  wellFormed : pg.WellFormed
  memSize : pg.mem.memSize = n
  length : vs.length = n
  memory : ∀ i (h : i < vs.length), pg.mem.memory i = some vs[i]
  clockHand : Clock.clockHand pg.rep = 0
  bits : ∀ i < n, Clock.shadowMemReflist pg.rep i = some true

end Pager

/-! ## The frames as a queue -/

namespace Clock

variable {m : Memory} {k k' : Clock} {q : Queue PageId} {v w : PageId} {b : Bool} {n : ℕ}

/-- The queue has the pages of the frames with their bits, from the hand on. -/
structure Rings (m : Memory) (k : Clock) (q : Queue PageId) : Prop where
  length : q.length = k.numPages
  memory : ∀ j (h : j < q.length), m.memory (k.frame j) = some q[j].1
  bit : ∀ j (h : j < q.length), k.shadowMemReflist (k.frame j) = some q[j].2

/-- A turn of the sweep takes the head to the tail, with its bit cleared. -/
theorem Rings.turn (h : Rings m k ((v, true) :: q)) (hhand : k.clockHand < k.numPages) :
    Rings m k.turn (q ++ [(v, false)]) where
  length := by rw [List.length_append]; exact h.length
  memory j hj := by
    rw [frame_turn]
    rw [List.length_append, List.length_singleton] at hj
    rcases (Nat.lt_succ_iff_lt_or_eq.1 hj) with hj | rfl
    · rw [List.getElem_append_left hj]
      exact h.memory (j + 1) (Nat.succ_lt_succ hj)
    · have hround : k.frame (q.length + 1) = k.frame 0 := by
        rw [← List.length_cons, h.length, frame_numPages hhand, frame_zero hhand]
      rw [List.getElem_concat_length rfl, hround]
      exact h.memory 0 (Nat.succ_pos _)
  bit j hj := by
    rw [frame_turn, bit_turn]
    rw [List.length_append, List.length_singleton] at hj
    rcases (Nat.lt_succ_iff_lt_or_eq.1 hj) with hj | rfl
    · have hj' : j + 1 < k.numPages := h.length ▸ Nat.succ_lt_succ hj
      rw [List.getElem_append_left hj, if_neg (frame_succ_ne hhand hj')]
      exact h.bit (j + 1) (Nat.succ_lt_succ hj)
    · have hround : k.frame (q.length + 1) = k.clockHand := by
        rw [← List.length_cons, h.length, frame_numPages hhand]
      rw [List.getElem_concat_length rfl, if_pos hround]

/-- The sweep stops at the page the queue gives up. -/
theorem Rings.sweep (h : Rings m k q) (hhand : k.clockHand < k.numPages)
    (hs : k.sweep n = .ok k') : ∃ u q', pop n q = some (u, q') ∧ Rings m k' ((u, false) :: q') ∧
      k'.clockHand < k'.numPages := by
  induction n generalizing k q with
  | zero => cases hs
  | succ n ih =>
    obtain ⟨⟨u, b⟩, q, rfl⟩ := List.exists_cons_of_length_pos
      (h.length.symm ▸ Nat.zero_lt_of_lt hhand)
    have hbit := h.bit 0 (Nat.succ_pos _)
    rw [frame_zero hhand] at hbit
    rw [Clock.sweep, readBit, if_neg (not_le.2 hhand), hbit, ok_bind] at hs
    cases b with
    | true =>
      obtain ⟨u', q', hpop, hq', hlt⟩ := ih (h.turn hhand)
        (Nat.mod_lt _ (Nat.zero_lt_of_lt hhand)) hs
      exact ⟨u', q', hpop, hq', hlt⟩
    | false =>
      obtain rfl := Except.ok.inj hs
      exact ⟨u, q, rfl, h, hhand⟩

/-- Setting the bit of the frame of a page. -/
theorem Rings.touch (h : Rings m k q) (hm : m.WellFormed) (hv : m.Resident v) :
    Rings m { k with shadowMemReflist :=
      Function.update k.shadowMemReflist (m.vpages v).currentPPN (some true) }
      (SecondChance.touch v q) where
  length := (List.length_map ..).trans h.length
  memory j hj := by
    simp only [SecondChance.touch, List.getElem_map]
    exact h.memory j (by simpa [SecondChance.touch] using hj)
  bit j hj := by
    have hj : j < q.length := by simpa [SecondChance.touch] using hj
    have hmem := h.memory j hj
    have hbit := h.bit j hj
    simp only [SecondChance.touch, List.getElem_map]
    change Function.update k.shadowMemReflist _ _ (k.frame j) = _
    rw [Function.update_apply]
    by_cases he : q[j].1 = v
    · rw [he] at hmem
      rw [if_pos (hm.memory_iff.1 hmem).2.symm, decide_eq_true he, Bool.or_true]
    · have hne : k.frame j ≠ (m.vpages v).currentPPN := fun hf => by
        rw [hf, hm.memory_currentPPN hv] at hmem
        exact he (Option.some.inj hmem).symm
      rw [if_neg hne, decide_eq_false he, Bool.or_false, hbit]

/-- Another page in the frame the hand is at. -/
theorem Rings.replace {u : PageId} (h : Rings m k ((u, b) :: q))
    (hhand : k.clockHand < k.numPages) :
    Rings ((m.evicted k.clockHand u).loaded w k.clockHand)
      { k with shadowMemReflist := Function.update k.shadowMemReflist k.clockHand (some true) }
      ((w, true) :: q) where
  length := h.length
  memory j hj := by
    change Function.update (Function.update m.memory k.clockHand none) k.clockHand (some w)
      (k.frame j) = _
    cases j with
    | zero => rw [frame_zero hhand, Function.update_self]; rfl
    | succ j =>
      have hj' : j + 1 < k.numPages := h.length ▸ hj
      have hne := frame_succ_ne hhand hj'
      rw [Function.update_of_ne hne, Function.update_of_ne hne]
      exact h.memory (j + 1) hj
  bit j hj := by
    change Function.update k.shadowMemReflist k.clockHand (some true) (k.frame j) = _
    cases j with
    | zero => rw [frame_zero hhand, Function.update_self]; rfl
    | succ j =>
      rw [Function.update_of_ne (frame_succ_ne hhand (h.length ▸ hj))]
      exact h.bit (j + 1) hj

/-- No frame is empty. -/
theorem Rings.full (h : Rings m k q) (hm : m.WellFormed) (ht : k.Tracks m) :
    m.hasFreePage = false := by
  have hle : Finset.range m.memSize ⊆ m.occupied := fun i hi => by
    have hi := Finset.mem_range.1 hi
    obtain ⟨j, hj, rfl⟩ := exists_frame (ht.numPages ▸ ht.clockHand) (ht.numPages.symm ▸ hi)
    exact Memory.mem_occupied.2 ⟨hi, by rw [h.memory j (h.length ▸ hj)]; rfl⟩
  have := Finset.card_le_card hle
  rw [Finset.card_range, ← hm.allocated_eq] at this
  simpa [Memory.hasFreePage] using this

/-- The pages of the queue are the resident ones. -/
theorem Rings.mem_iff (h : Rings m k q) (hm : m.WellFormed) (ht : k.Tracks m) :
    v ∈ q.map Prod.fst ↔ m.Resident v := by
  refine ⟨fun hv => ?_, fun hv => ?_⟩
  · obtain ⟨j, hj, rfl⟩ := List.getElem_of_mem hv
    rw [List.length_map] at hj
    rw [List.getElem_map]
    exact hm.resident (h.memory j hj)
  · have hmem := hm.memory_currentPPN hv
    obtain ⟨j, hj, hf⟩ := exists_frame (ht.numPages ▸ ht.clockHand)
      (ht.numPages.symm ▸ hm.frame_lt_memSize hmem)
    have hj : j < q.length := h.length ▸ hj
    rw [← hf, h.memory j hj] at hmem
    exact List.mem_map.2 ⟨q[j], List.getElem_mem hj, Option.some.inj hmem⟩

end Clock

/-! ## Runs -/

namespace Pager

variable {pg : Pager clock} {q : Queue PageId} {v w : PageId} {n : ℕ} {vs : List PageId}
  {es : List (SecondChance.Event PageId)} (ndebug : Bool)

/-- The frames of the clock module are the queue. -/
structure Lined (pg : Pager clock) (q : Queue PageId) : Prop where
  wellFormed : pg.WellFormed
  rings : Clock.Rings pg.mem pg.rep q

theorem Lined.tracks (h : pg.Lined q) : Clock.Tracks pg.mem pg.rep := h.wellFormed.tracks

theorem Lined.mem_iff (h : pg.Lined q) : v ∈ q.map Prod.fst ↔ pg.mem.Resident v :=
  h.rings.mem_iff h.wellFormed.mem h.tracks

/-- A hit sets a bit. -/
theorem Lined.hitPage (h : pg.Lined q) (hv : pg.mem.Resident v) :
    ∃ pg', pg.hitPage ndebug v = .ok pg' ∧ pg'.Lined (touch v q) := by
  obtain ⟨rep, hok, ht⟩ := ReplaceModule.Lawful.notifyPageAccess_ok ndebug h.wellFormed.mem
    h.wellFormed.tracks hv
  refine ⟨⟨pg.mem, rep⟩, ?_, ⟨h.wellFormed.mem, ht⟩, ?_⟩
  · rw [Pager.hitPage]
    exact congrArg (· >>= _) hok
  · rw [h.tracks.overhead v hv.1] at hok
    rw [Clock.eq_of_notifyPageAccess hok]
    exact h.rings.touch h.wellFormed.mem hv

/-- In a replacement, the page evicted is that of the queue, and the one brought in is
    put at the head. -/
theorem Lined.replacePage (h : pg.Lined q) (hw : pg.mem.live w = true) (hr : ¬pg.mem.Resident w) :
    ∃ u q' pg', evict q = some (u, q') ∧ pg.replacePage ndebug w = .ok (u, pg') ∧
      pg'.Lined ((w, true) :: q') := by
  have hm := h.wellFormed.mem
  have hfull := h.rings.full hm h.tracks
  have hpos : 0 < pg.mem.memSize := Nat.zero_lt_of_lt h.tracks.clockHand
  obtain ⟨_, u, k, hok, hmem, hw'⟩ := ReplaceModule.Lawful.getPageToEvict_ok ndebug hm
    h.wellFormed.tracks hpos hfull
  have ht : Clock.Tracks _ k := hw'
  have hhand : Clock.clockHand pg.rep < Clock.numPages pg.rep :=
    h.tracks.numPages ▸ h.tracks.clockHand
  -- The frame named is where the sweep stops.
  obtain ⟨hsweep, rfl⟩ := Clock.sweep_of_getPageToEvict hfull hok
  obtain ⟨u', q', hpop, hq', hlt⟩ := h.rings.sweep hhand hsweep
  obtain rfl : u = u' := by
    have := hq'.memory 0 (Nat.succ_pos _)
    rw [Clock.frame_zero hlt, hmem] at this
    exact Option.some.inj this
  have hlt' : k.clockHand < (pg.mem.evicted k.clockHand u).tracked := hm.frame_lt hmem
  have hempty : (pg.mem.evicted k.clockHand u).memory k.clockHand = none := Function.update_self ..
  have hr' : ¬(pg.mem.evicted k.clockHand u).Resident w := fun hr' =>
    hr (Memory.resident_evicted.1 hr').1
  obtain ⟨k', hload, ht'⟩ := ReplaceModule.Lawful.notifyPageLoad_ok ndebug (hm.evicted hmem) hw'
    hw hr' hlt' hempty
  rw [ht.overhead w hw] at hload
  refine ⟨u, q', ⟨(pg.mem.evicted k.clockHand u).loaded w k.clockHand, k'⟩, ?_, ?_,
    ⟨(hm.evicted hmem).loaded hlt' hempty hw hr', ht'⟩, ?_⟩
  · rw [evict, h.rings.length]
    exact hpop
  · rw [← ht.overhead w hw, Memory.overhead_evicted] at hload
    exact replacePage_eq hm hok hmem hlt' hempty hload
  · have hcur : (((pg.mem.evicted k.clockHand u).loaded w k.clockHand).vpages w).currentPPN =
        k.clockHand := by simp [Memory.loaded]
    rw [Clock.eq_of_notifyPageAccess hload, hcur]
    exact hq'.replace hlt

/-- The pages evicted are those of the queue, with the pages brought in put at its head. -/
theorem Lined.serve (h : pg.Lined q) (hes : pg.Admissible ndebug es) :
    pg.serve ndebug es = .ok (victims List.cons es q) ∧ Proper List.cons es q := by
  induction es generalizing pg q with
  | nil => exact ⟨rfl, trivial⟩
  | cons e es ih =>
    cases e with
    | hit v =>
      obtain ⟨hv, hes⟩ := hes
      obtain ⟨pg', hok, h'⟩ := h.hitPage ndebug hv
      obtain ⟨hserve, hproper⟩ := ih h' (hes pg' (by rw [hok]; rfl))
      exact ⟨by rw [Pager.serve, hok, ok_bind, hserve]; rfl, h.mem_iff.2 hv, hproper⟩
    | replace w =>
      obtain ⟨⟨hw, hr⟩, hes⟩ := hes
      obtain ⟨u, q', pg', hevict, hok, h'⟩ := h.replacePage ndebug hw hr
      obtain ⟨hserve, hproper⟩ := ih h' (hes (u, pg') (by rw [hok]; rfl))
      refine ⟨?_, mt h.mem_iff.1 hr, fun u₁ q₁ he => ?_⟩
      · rw [Pager.serve, hok, ok_bind, victims, hevict]
        simp only [hserve, ok_bind]
      · rw [hevict] at he
        obtain ⟨rfl, rfl⟩ := Prod.mk.inj (Option.some.inj he)
        exact hproper

/-- The pages of a memory filled in order are the queue, from the first one. -/
theorem Filled.lined (h : pg.Filled n vs) : pg.Lined (allSet vs) := by
  have hnum : Clock.numPages pg.rep = n :=
    (Clock.Tracks.numPages h.wellFormed.tracks).trans h.memSize
  have hframe : ∀ j < vs.length, Clock.frame pg.rep j = j := fun j hj => by
    change (Clock.clockHand pg.rep + j) % Clock.numPages pg.rep = j
    rw [h.clockHand, Nat.zero_add, hnum, ← h.length, Nat.mod_eq_of_lt hj]
  refine ⟨h.wellFormed, by rw [allSet, List.length_map, h.length, hnum], fun j hj => ?_,
    fun j hj => ?_⟩
  · rw [allSet, List.length_map] at hj
    rw [hframe j hj, h.memory j hj]
    simp [allSet]
  · rw [allSet, List.length_map] at hj
    rw [hframe j hj, h.bits j (h.length ▸ hj)]
    simp [allSet]

theorem Filled.nodup (h : pg.Filled n vs) : vs.Nodup :=
  List.nodup_iff_injective_get.2 fun i j hij => Fin.ext <| by
    have hj := h.memory j j.2
    rw [← List.get_eq_getElem, ← hij] at hj
    exact h.wellFormed.mem.frame_unique (h.memory i i.2) hj

/-- A full memory has a frame. -/
theorem Filled.exists_cons (h : pg.Filled n vs) : ∃ u t, vs = u :: t := by
  refine List.exists_cons_of_length_pos ?_
  rw [h.length, ← h.memSize]
  exact Nat.zero_lt_of_lt (Clock.Tracks.clockHand h.wellFormed.tracks)

end Pager

/-- In a memory filled in order, with hits and replacements in turn, the pages evicted are
    those of the second-chance algorithm, and no page is evicted to make room for the one
    brought in right after it, if and only if at every replacement but the first the
    sweep finds what it should: having taken its bit from the page brought in last, it
    stops at the first page not touched since it was last passed over, or, if all have
    been, goes no further than the first one. -/
theorem clock_second_chance (ndebug : Bool) {n : ℕ} {pg : Pager clock} {vs : List PageId}
    {es : List (SecondChance.Event PageId)} (h : pg.Filled n vs) (hes : pg.Admissible ndebug es) :
    ∃ us, pg.serve ndebug es = .ok us ∧
      (us = victims atTail es (allSet vs) ∧ (2 ≤ n → Spares es none us) ↔ FairFrom es vs.tail) := by
  obtain ⟨hserve, hproper⟩ := h.lined.serve ndebug hes
  obtain ⟨u, t, rfl⟩ := h.exists_cons
  have hiff := victims_eq_iff h.nodup hproper
  refine ⟨_, hserve, fun ⟨he, _⟩ => hiff.1 he, fun hf => ⟨hiff.2 hf, fun hn => ?_⟩⟩
  refine spares_of_fairFrom (fun ht => ?_) h.nodup hproper hf
  have := h.length
  rw [ht] at this
  rw [← this] at hn
  exact absurd hn (by simp)

/-- The pages of `Setup.crowded` but the last one have been loaded. -/
theorem exists_filled (es : List (SecondChance.Event PageId))
    (hes : (Setup.crowded.after Policy.clock.replace 97).any (fun s =>
      Clock.clockHand s.pager.rep == 0 && (List.range 32).all (fun i =>
        s.pager.mem.memory i == some i && Clock.shadowMemReflist s.pager.rep i == some true) &&
      s.pager.Admissible false es) = true) :
    ∃ s : Sim Policy.clock.replace, Setup.crowded.Reachable Policy.clock.replace s ∧
      Pager.Filled 32 s.pager (List.range 32) ∧ Pager.Admissible (R := clock) false es s.pager := by
  obtain ⟨s₀, ts, s, h₀, h, -, hs⟩ := Setup.exists_run_of_after hes
  have hr := Setup.Reachable.of_run h₀ h
  simp only [Bool.and_eq_true, beq_iff_eq, List.all_eq_true, List.mem_range, decide_eq_true_eq]
    at hs
  obtain ⟨⟨hhand, hall⟩, hadm⟩ := hs
  exact ⟨s, hr, ⟨hr.wellFormed.pager, hr.wellFormed.memSize, List.length_range,
    fun i hi => by simpa using (hall i (by simpa using hi)).1, hhand, fun i hi => (hall i hi).2⟩,
    hadm⟩

/-- If no page is hit, the clock goes on to the next one. -/
theorem clock_second_chance_crowded : ∃ s : Sim Policy.clock.replace,
    Setup.crowded.Reachable Policy.clock.replace s ∧
      Pager.serve (R := clock) false [.replace 32, .replace 0] s.pager = .ok [0, 1] := by
  obtain ⟨s, hr, hf, hes⟩ := exists_filled [.replace 32, .replace 0] (by decide +kernel)
  obtain ⟨us, hserve, hiff⟩ := clock_second_chance false hf hes
  obtain ⟨rfl, -⟩ := hiff.2 (by decide +kernel)
  refine ⟨s, hr, hserve.trans ?_⟩
  decide +kernel

/-- The page 32 is brought in, all the others are hit, and the page 0 is brought in. -/
def Setup.allHit : List (SecondChance.Event PageId) :=
  .replace 32 :: ((List.range' 1 31).map .hit ++ [.replace 0])

/-- With 32 frames, if all pages are hit but the one brought in last, that one is evicted,
    where the second-chance algorithm evicts the oldest one. -/
theorem clock_second_chance_fails : ∃ s : Sim Policy.clock.replace,
    Setup.crowded.Reachable Policy.clock.replace s ∧ Pager.Filled 32 s.pager (List.range 32) ∧
      Pager.Admissible (R := clock) false Setup.allHit s.pager ∧
      Pager.serve (R := clock) false Setup.allHit s.pager = .ok [0, 32] ∧
      victims atTail Setup.allHit (allSet (List.range 32)) = [0, 1] ∧
      ¬Spares Setup.allHit none [0, 32] := by
  obtain ⟨s, hr, hf, hes⟩ := exists_filled Setup.allHit (by decide +kernel)
  refine ⟨s, hr, hf, hes, (hf.lined.serve false hes).1.trans ?_, ?_, ?_⟩ <;> decide +kernel

end Pfsim
