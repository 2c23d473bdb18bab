import Pfsim.Replace.Basic

/-!
# Clock

A reference bit for each frame, set when its page is loaded or hit, and a hand
going round the frames: to choose a victim, the hand sweeps over the frames
whose bit is set, clearing it, and stops at the first one whose bit is clear.

The array of the bits is allocated and not initialised. The bits read have all
been written, as memory is full then, so that every frame has been loaded
(`Clock.Tracks`); and the sweep ends, as every turn clears a bit
(`Clock.sweep_eq`), at the first frame whose bit is clear, or at the one it started
at if there is none (`Clock.sweep_eq_swept`).
-/

namespace Pfsim

/-- The state of the clock module. -/
structure Clock where
  /-- The frame the hand is at. -/
  clockHand : ℕ
  /-- The size of memory, in pages. -/
  numPages : ℕ
  /-- The reference bits, `none` where nothing has been written yet. -/
  shadowMemReflist : ℕ → Option Bool

namespace Clock

/-- `Replace_initReplacementModule`. -/
def init (numberOfPhysicalPages : ℕ) : Clock := ⟨0, numberOfPhysicalPages, fun _ => none⟩

/-- `shadowMem_Reflist[i]`. -/
def readBit (c : Clock) (i : ℕ) : Except Stop Bool :=
  if c.numPages ≤ i then .error (.undefined "shadowMem_Reflist index")
  else match c.shadowMemReflist i with
    | none => .error (.undefined "reference bit never written")
    | some b => .ok b

/-- `Replace_notifyPageAccess`: the reference bit is turned on. -/
def notifyPageAccess (ndebug : Bool) (m : Memory) (c : Clock) (oPtr : Option PageId) :
    Except Stop Clock := do
  let parent ← derefOverhead oPtr
  assert ndebug ((m.vpages parent).inMemory = true) "parent->inMemory"
  if c.numPages ≤ (m.vpages parent).currentPPN then
    .error (.undefined "shadowMem_Reflist index")
  else .ok { c with
    shadowMemReflist :=
      Function.update c.shadowMemReflist (m.vpages parent).currentPPN (some true) }

theorem eq_of_notifyPageAccess {ndebug : Bool} {m : Memory} {c c' : Clock} {v : PageId}
    (h : notifyPageAccess ndebug m c (some v) = .ok c') :
    c' = { c with shadowMemReflist :=
      Function.update c.shadowMemReflist (m.vpages v).currentPPN (some true) } := by
  rw [notifyPageAccess, derefOverhead_some, ok_bind] at h
  obtain ⟨_, -, h⟩ := bind_eq_ok.1 h
  split at h
  · cases h
  · exact (Except.ok.inj h).symm

/-- The loop of `Replace_getPageToEvict`, the condition being evaluated at most
    `n` times. -/
def sweep : ℕ → Clock → Except Stop Clock
  | 0, _ => .error .outOfFuel
  | n + 1, c => do
    if ← c.readBit c.clockHand then
      sweep n { c with
        shadowMemReflist := Function.update c.shadowMemReflist c.clockHand (some false)
        clockHand := (c.clockHand + 1) % c.numPages }
    else .ok c

/-- `Replace_getPageToEvict`. The condition of the loop is evaluated at most
    once more than there are frames. -/
def getPageToEvict (ndebug : Bool) (m : Memory) (c : Clock) : Except Stop (ℕ × Clock) := do
  assert ndebug (m.hasFreePage = false) "!Memory_hasFreePage()"
  let c ← c.sweep (c.numPages + 1)
  .ok (c.clockHand, c)

variable {c : Clock}

/-- The frames whose bit is set. -/
def referenced (c : Clock) : Finset ℕ :=
  (Finset.range c.numPages).filter fun i => c.shadowMemReflist i = some true

/-! ## The sweep -/

/-- The frame `j` places after the hand. -/
def frame (c : Clock) (j : ℕ) : ℕ := (c.clockHand + j) % c.numPages

/-- The number of frames from the hand on whose bit is set, which the sweep goes over. -/
def turns (c : Clock) : ℕ :=
  (List.range c.numPages).findIdx fun j => c.shadowMemReflist (c.frame j) != some true

/-- A turn of the loop. -/
def turn (c : Clock) : Clock :=
  { c with
    shadowMemReflist := Function.update c.shadowMemReflist c.clockHand (some false)
    clockHand := (c.clockHand + 1) % c.numPages }

/-- The clock after the hand has gone over `d` frames, clearing their bits. -/
def swept (c : Clock) (d : ℕ) : Clock where
  clockHand := c.frame d
  numPages := c.numPages
  shadowMemReflist i := if ∃ j < d, c.frame j = i then some false else c.shadowMemReflist i

theorem frame_lt (hhand : c.clockHand < c.numPages) (j : ℕ) : c.frame j < c.numPages :=
  Nat.mod_lt _ (Nat.zero_lt_of_lt hhand)

theorem frame_zero (hhand : c.clockHand < c.numPages) : c.frame 0 = c.clockHand :=
  Nat.mod_eq_of_lt hhand

/-- All the way round. -/
theorem frame_numPages (hhand : c.clockHand < c.numPages) : c.frame c.numPages = c.clockHand := by
  rw [frame, Nat.add_mod_right, Nat.mod_eq_of_lt hhand]

/-- The frames met in one round are distinct. -/
theorem frame_inj {i j : ℕ} (hi : i < c.numPages) (hj : j < c.numPages)
    (h : c.frame i = c.frame j) : i = j := by
  have h' : i ≡ j [MOD c.numPages] := Nat.ModEq.add_left_cancel' c.clockHand h
  exact Nat.ModEq.eq_of_lt_of_lt h' hi hj

/-- The hand comes round to its frame last. -/
theorem frame_succ_ne (hhand : c.clockHand < c.numPages) {j : ℕ} (hj : j + 1 < c.numPages) :
    c.frame (j + 1) ≠ c.clockHand := fun he => by
  cases frame_inj hj (Nat.zero_lt_of_lt hhand) (he.trans (frame_zero hhand).symm)

/-- Every frame is met in one round. -/
theorem exists_frame (hhand : c.clockHand < c.numPages) {i : ℕ} (hi : i < c.numPages) :
    ∃ j < c.numPages, c.frame j = i := by
  have hsurj := Finset.surj_on_of_inj_on_of_card_le (s := Finset.range c.numPages)
    (t := Finset.range c.numPages) (fun j _ => c.frame j)
    (fun j _ => Finset.mem_range.2 (frame_lt hhand j))
    (fun j k hj hk => frame_inj (Finset.mem_range.1 hj) (Finset.mem_range.1 hk)) le_rfl
  obtain ⟨j, hj, he⟩ := hsurj i (Finset.mem_range.2 hi)
  exact ⟨j, Finset.mem_range.1 hj, he.symm⟩

theorem turns_le : c.turns ≤ c.numPages :=
  List.findIdx_le_length.trans_eq List.length_range

/-- The bits of the frames gone over are set. -/
theorem set_of_lt_turns {j : ℕ} (hj : j < c.turns) :
    c.shadowMemReflist (c.frame j) = some true := by
  simpa using List.not_of_lt_findIdx hj

/-- The bit of the frame after them is clear, unless all are set. -/
theorem clear_of_turns_lt (hbits : ∀ i < c.numPages, (c.shadowMemReflist i).isSome)
    (hhand : c.clockHand < c.numPages) (h : c.turns < c.numPages) :
    c.shadowMemReflist (c.frame c.turns) = some false := by
  obtain ⟨b, hb⟩ := Option.isSome_iff_exists.1 (hbits _ (frame_lt hhand c.turns))
  have hlt : c.turns < (List.range c.numPages).length := h.trans_eq List.length_range.symm
  have hstop :
      (c.shadowMemReflist (c.frame (List.range c.numPages)[c.turns]) != some true) = true :=
    List.findIdx_getElem (w := hlt)
  rw [List.getElem_range] at hstop
  cases b with
  | false => exact hb
  | true => simp [hb] at hstop

/-- The sweep has a frame with a clear bit to stop at: a frame gone over itself, if all
    bits are set. -/
theorem swept_turns_clear (hbits : ∀ i < c.numPages, (c.shadowMemReflist i).isSome)
    (hhand : c.clockHand < c.numPages) :
    (c.swept c.turns).shadowMemReflist (c.frame c.turns) = some false := by
  rcases turns_le.lt_or_eq with hlt | heq
  · simp only [swept]
    split
    · rfl
    · exact clear_of_turns_lt hbits hhand hlt
  · refine if_pos ⟨0, heq ▸ Nat.zero_lt_of_lt hhand, ?_⟩
    rw [heq, frame_numPages hhand, frame_zero hhand]

theorem swept_zero (hhand : c.clockHand < c.numPages) : c.swept 0 = c := by
  rw [swept, frame_zero hhand]
  simp

theorem bit_turn (i : ℕ) : c.turn.shadowMemReflist i =
    if i = c.clockHand then some false else c.shadowMemReflist i :=
  Function.update_apply ..

theorem frame_turn (j : ℕ) : c.turn.frame j = c.frame (j + 1) := by
  rw [frame, frame, turn, Nat.mod_add_mod, Nat.add_assoc, Nat.add_comm 1]

/-- A turn of the loop, then `d` more. -/
theorem swept_turn (hhand : c.clockHand < c.numPages) (d : ℕ) :
    c.turn.swept d = c.swept (d + 1) := by
  rw [swept, swept, frame_turn]
  congr 1
  funext i
  simp only [frame_turn, bit_turn]
  by_cases hi : i = c.clockHand
  · subst hi
    rw [if_pos rfl, ite_self, if_pos ⟨0, Nat.succ_pos d, frame_zero hhand⟩]
  · rw [if_neg hi]
    refine if_congr ⟨fun ⟨j, hj, he⟩ => ⟨j + 1, Nat.succ_lt_succ hj, he⟩,
      fun ⟨j, hj, he⟩ => ?_⟩ rfl rfl
    cases j with
    | zero => exact absurd (he.symm.trans (frame_zero hhand)) hi
    | succ j => exact ⟨j, Nat.lt_of_succ_lt_succ hj, he⟩

/-- The sweep over `d` frames whose bits are set, up to one whose bit is clear when the
    hand gets there. -/
theorem sweep_eq {d n : ℕ} (hhand : c.clockHand < c.numPages) (hd : d ≤ c.numPages)
    (hset : ∀ j < d, c.shadowMemReflist (c.frame j) = some true)
    (hstop : (c.swept d).shadowMemReflist (c.frame d) = some false) :
    c.sweep n = if d < n then .ok (c.swept d) else .error .outOfFuel := by
  induction n generalizing c d with
  | zero => rfl
  | succ n ih =>
    cases d with
    | zero =>
      rw [swept_zero hhand, frame_zero hhand] at hstop
      rw [sweep, readBit, if_neg (not_le.2 hhand), hstop, ok_bind, if_pos (Nat.succ_pos n),
        swept_zero hhand]
      rfl
    | succ d =>
      have hbit := hset 0 (Nat.succ_pos d)
      rw [frame_zero hhand] at hbit
      rw [sweep, readBit, if_neg (not_le.2 hhand), hbit, ok_bind, if_pos rfl]
      have hhand' : c.turn.clockHand < c.turn.numPages := Nat.mod_lt _ (Nat.zero_lt_of_lt hhand)
      have hset' : ∀ j < d, c.turn.shadowMemReflist (c.turn.frame j) = some true := by
        intro j hj
        -- The bits ahead are as they were, as the hand has not come round.
        have hne := frame_succ_ne hhand (Nat.lt_of_lt_of_le (Nat.succ_lt_succ hj) hd)
        rw [frame_turn, bit_turn, if_neg hne]
        exact hset (j + 1) (Nat.succ_lt_succ hj)
      have hstop' : (c.turn.swept d).shadowMemReflist (c.turn.frame d) = some false := by
        rw [swept_turn hhand, frame_turn]
        exact hstop
      have := ih hhand' (Nat.le_of_succ_le hd) hset' hstop'
      rw [swept_turn hhand] at this
      refine this.trans ?_
      simp only [Nat.succ_lt_succ_iff]

/-- The sweep, if the bits have been written, takes `turns` turns. -/
theorem sweep_eq_swept {n : ℕ} (hhand : c.clockHand < c.numPages)
    (hbits : ∀ i < c.numPages, (c.shadowMemReflist i).isSome) :
    c.sweep n = if c.turns < n then .ok (c.swept c.turns) else .error .outOfFuel :=
  sweep_eq hhand turns_le (fun _ => set_of_lt_turns) (swept_turns_clear hbits hhand)

theorem sweep_of_getPageToEvict {ndebug : Bool} {m : Memory} {c' : Clock} {ppn : ℕ}
    (hf : m.hasFreePage = false) (h : getPageToEvict ndebug m c = .ok (ppn, c')) :
    c.sweep (c.numPages + 1) = .ok c' ∧ c'.clockHand = ppn := by
  rw [getPageToEvict, assert_ok hf, ok_bind] at h
  obtain ⟨k, hk, he⟩ := bind_eq_ok.1 h
  obtain ⟨hhand, rfl⟩ := Prod.mk.inj (Except.ok.inj he)
  exact ⟨hk, hhand⟩

/-! ## Memory -/

/-- The module is in step with memory: the hand is at a frame, and the bits of
    the occupied frames have been written. -/
structure Tracks (m : Memory) (c : Clock) : Prop where
  numPages : c.numPages = m.memSize
  clockHand : c.clockHand < m.memSize
  written : ∀ {ppn v}, m.memory ppn = some v → (c.shadowMemReflist ppn).isSome
  overhead : ∀ v, m.live v = true → (m.vpages v).overhead = some v

namespace Tracks

variable {m : Memory} {v : PageId} {ppn : ℕ} {ndebug : Bool}

theorem access_ok (h : Tracks m c) (hm : m.WellFormed) (hv : m.Resident v) :
    ∃ c', notifyPageAccess ndebug m c (m.vpages v).overhead = .ok c' ∧ Tracks m c' := by
  have hlt : (m.vpages v).currentPPN < c.numPages := by
    rw [h.numPages]
    exact hm.frame_lt_memSize (hm.memory_currentPPN hv)
  refine ⟨{ c with
    shadowMemReflist := Function.update c.shadowMemReflist (m.vpages v).currentPPN (some true) },
    ?_, h.numPages, h.clockHand, fun {k u} hk => ?_, h.overhead⟩
  · rw [h.overhead v hv.1, notifyPageAccess, derefOverhead_some, ok_bind, assert_ok hv.2, ok_bind,
      if_neg (not_le.2 hlt)]
  · by_cases hkv : k = (m.vpages v).currentPPN
    · simp [hkv]
    · simpa [hkv] using h.written hk

theorem load_ok (h : Tracks m c) (hl : m.live v = true) (hlt : ppn < m.tracked) :
    ∃ c', notifyPageAccess ndebug (m.loaded v ppn) c (m.vpages v).overhead = .ok c' ∧
      Tracks (m.loaded v ppn) c' := by
  have hv : (m.loaded v ppn).vpages v =
      { m.vpages v with inMemory := true, currentPPN := ppn } := by
    simp [Memory.loaded]
  have hn : ¬c.numPages ≤ ppn := by
    rw [h.numPages]
    exact not_le.2 (hlt.trans_le m.tracked_le)
  refine ⟨{ c with shadowMemReflist := Function.update c.shadowMemReflist ppn (some true) }, ?_,
    h.numPages, h.clockHand, fun {k u} hk => ?_, fun u hu => ?_⟩
  · rw [h.overhead v hl, notifyPageAccess, derefOverhead_some, ok_bind, hv, assert_ok rfl, ok_bind,
      if_neg hn]
  · by_cases hkp : k = ppn
    · simp [hkp]
    · simpa [hkp] using h.written (by simpa [Memory.loaded, hkp] using hk)
  · by_cases huv : u = v
    · simpa [Memory.loaded, huv] using h.overhead v hl
    · simpa [Memory.loaded, huv] using h.overhead u hu

/-- When memory is full, all bits have been written. -/
theorem written_of_full (h : Tracks m c) (hm : m.WellFormed) (hf : m.hasFreePage = false) :
    ∀ i < c.numPages, (c.shadowMemReflist i).isSome := by
  intro i hi
  obtain ⟨v, hv⟩ := hm.full hf (h.numPages ▸ hi)
  exact h.written hv

/-- The frame named when memory is full: the one where the sweep ends. -/
theorem getPageToEvict_eq (h : Tracks m c) (hm : m.WellFormed) (hf : m.hasFreePage = false) :
    getPageToEvict ndebug m c = .ok (c.frame c.turns, c.swept c.turns) := by
  rw [getPageToEvict, assert_ok hf, ok_bind, sweep_eq_swept (h.numPages ▸ h.clockHand)
    (h.written_of_full hm hf), if_pos (Nat.lt_succ_of_le turns_le)]
  rfl

/-- When memory is full, all bits have been written, and the hand stops at an
    occupied frame. -/
theorem getPageToEvict_ok (h : Tracks m c) (hm : m.WellFormed) (hf : m.hasFreePage = false) :
    ∃ ppn v c', getPageToEvict ndebug m c = .ok (ppn, c') ∧ m.memory ppn = some v ∧
      Tracks (m.evicted ppn v) c' := by
  have hlt : c.frame c.turns < m.memSize := by
    rw [← h.numPages]
    exact frame_lt (h.numPages ▸ h.clockHand) _
  obtain ⟨v, hv⟩ := hm.full hf hlt
  refine ⟨_, v, _, h.getPageToEvict_eq hm hf, hv, h.numPages, hlt, fun {k u} hk => ?_,
    fun u hu => ?_⟩
  · have hk' : m.memory k = some u := by
      by_cases hkh : k = c.frame c.turns
      · simp [Memory.evicted, hkh] at hk
      · simpa [Memory.evicted, hkh] using hk
    simp only [swept]
    split
    · rfl
    · exact h.written hk'
  · by_cases huv : u = v
    · simpa [Memory.evicted, huv] using h.overhead v (hm.resident hv).1
    · simpa [Memory.evicted, huv] using h.overhead u hu

theorem freed (h : Tracks m c) : Tracks ((m.dropped v).freePage v) c where
  numPages := by rw [h.numPages, Memory.dropped]; split <;> rfl
  clockHand := by
    have : ((m.dropped v).freePage v).memSize = m.memSize := by rw [Memory.dropped]; split <;> rfl
    rw [this]
    exact h.clockHand
  written {k u} hk := by
    refine h.written (v := u) ?_
    have hk : (m.dropped v).memory k = some u := hk
    rw [Memory.dropped] at hk
    split at hk
    · by_cases hkv : k = (m.vpages v).currentPPN
      · simp [Memory.evicted, hkv] at hk
      · simpa [Memory.evicted, hkv] using hk
    · exact hk
  overhead u hu := by
    by_cases huv : u = v
    · simp [Memory.freePage, huv] at hu
    · exact Memory.overhead_dropped.trans (h.overhead u (by simpa [Memory.freePage, huv] using hu))

end Tracks

end Clock

/-- The clock build. -/
def clock : ReplaceModule where
  State := Clock
  initReplacementModule := Clock.init
  assertOverhead _ _ := .ok ()
  initOverhead c vpage := (c, some vpage)
  freeOverhead _ c _ := .ok c
  notifyPageAccess := Clock.notifyPageAccess
  notifyPageLoad := Clock.notifyPageAccess
  getPageToEvict := Clock.getPageToEvict

instance : clock.Lawful where
  Tracks := Clock.Tracks
  assertOverhead_ok _ := rfl
  assertOverhead_error h := absurd rfl h
  tracks_init n hn :=
    { numPages := rfl
      clockHand := hn
      written := fun h => nomatch h
      overhead := fun _ h => nomatch h }
  tracks_new {m c} pid vpn hm h := ⟨h.numPages, h.clockHand, h.written, fun u hu => by
    by_cases hn : u = m.nextPage
    · simp [Memory.newPage, Memory.addPage, hn, clock]
    · simpa [Memory.newPage, Memory.addPage, hn] using
        h.overhead u (by simpa [Memory.newPage, Memory.addPage, hn] using hu)⟩
  notifyPageAccess_ok _ hm h hv := h.access_ok hm hv
  notifyPageLoad_ok _ _ h hl _ hlt _ := h.load_ok hl hlt
  getPageToEvict_ok _ hm h _ hf := h.getPageToEvict_ok hm hf
  releaseOverhead_ok _ _ h _ := ⟨_, ite_self _, h.freed⟩

end Pfsim
