import Pfsim.Memory

/-!
# Well-formed memories

The frame table, the virtual pages, the freelist and the counter are updated
separately. In a well-formed memory (`Memory.WellFormed`) they agree: a frame
holds a page if and only if the page says it is there, if and only if the bit
of the frame is set, and the counter counts the occupied frames. The freelist
has whole words only: the frames past `32 * (memSize / 32)` (`Memory.tracked`)
have no bit, and are never used.

* `evictPage_eq`, `loadPage_eq`: what eviction and loading do to a well-formed
  memory, which they keep so (`WellFormed.evicted`, `WellFormed.loaded`);
* `getFreePage_eq_ok`, `getFreePage_eq_error`: the finder gives the least free
  frame, or exits if none of those with a bit is free.
-/

namespace Pfsim.Memory

variable (m : Memory)

/-- The number of frames that have a bit in the freelist. -/
def tracked : ℕ := 32 * (m.memSize / 32)

/-- The frames that hold a page. -/
def occupied : Finset ℕ := (Finset.range m.memSize).filter fun ppn => (m.memory ppn).isSome

/-- The page `v` is live, and in memory. -/
def Resident (v : PageId) : Prop := m.live v = true ∧ (m.vpages v).inMemory = true

/-- Frames, pages, freelist and counter agree. -/
structure WellFormed : Prop where
  frame_lt : ∀ {ppn v}, m.memory ppn = some v → ppn < m.tracked
  memory_iff : ∀ {ppn v}, m.memory ppn = some v ↔ m.Resident v ∧ (m.vpages v).currentPPN = ppn
  bit : ∀ {ppn}, ppn < m.tracked → Bitmap.mem m.freelist ppn = (m.memory ppn).isSome
  allocated_eq : m.allocated = m.occupied.card
  lt_nextPage : ∀ {v}, m.live v = true → v < m.nextPage
  quiet : m.stderr = []

theorem tracked_le : m.tracked ≤ m.memSize := Nat.mul_div_le ..

theorem tracked_eq_iff : m.tracked = m.memSize ↔ 32 ∣ m.memSize :=
  ⟨fun h => ⟨_, h.symm⟩, fun h => Nat.mul_div_cancel' h⟩

variable {m} {ppn : ℕ} {v u : PageId}

@[simp] theorem mem_occupied : ppn ∈ m.occupied ↔ ppn < m.memSize ∧ (m.memory ppn).isSome := by
  rw [occupied, Finset.mem_filter, Finset.mem_range]

theorem bvInd_lt (h : ppn < m.tracked) : bvInd ppn < m.memSize / 32 :=
  Nat.div_lt_of_lt_mul h

namespace WellFormed

/-- A page is in a frame there is. -/
theorem frame_lt_memSize (h : m.WellFormed) (hv : m.memory ppn = some v) : ppn < m.memSize :=
  (h.frame_lt hv).trans_le m.tracked_le

/-- The page at a frame is in memory. -/
theorem resident (h : m.WellFormed) (hv : m.memory ppn = some v) : m.Resident v :=
  (h.memory_iff.1 hv).1

/-- A resident page is in the frame it says. -/
theorem memory_currentPPN (h : m.WellFormed) (hv : m.Resident v) :
    m.memory (m.vpages v).currentPPN = some v :=
  h.memory_iff.2 ⟨hv, rfl⟩

/-- No page is in two frames. -/
theorem frame_unique (h : m.WellFormed) {ppn' : ℕ} (hv : m.memory ppn = some v)
    (hv' : m.memory ppn' = some v) : ppn = ppn' :=
  (h.memory_iff.1 hv).2.symm.trans (h.memory_iff.1 hv').2

/-- The next page has not been made. -/
theorem not_live_nextPage (h : m.WellFormed) : m.live m.nextPage = false := by
  by_contra hl
  exact lt_irrefl _ (h.lt_nextPage (by simpa using hl))

theorem occupied_subset (h : m.WellFormed) : m.occupied ⊆ Finset.range m.tracked := by
  intro ppn hp
  obtain ⟨v, hv⟩ := Option.isSome_iff_exists.1 (mem_occupied.1 hp).2
  exact Finset.mem_range.2 (h.frame_lt hv)

/-- No more frames are taken than have a bit. -/
theorem allocated_le_tracked (h : m.WellFormed) : m.allocated ≤ m.tracked := by
  rw [h.allocated_eq, ← Finset.card_range m.tracked]
  exact Finset.card_le_card h.occupied_subset

theorem allocated_le (h : m.WellFormed) : m.allocated ≤ m.memSize :=
  h.allocated_le_tracked.trans m.tracked_le

/-- The counter is the number of resident pages, so it is positive if there is one. -/
theorem allocated_pos (h : m.WellFormed) (hv : m.memory ppn = some v) : 0 < m.allocated := by
  rw [h.allocated_eq, Finset.card_pos]
  exact ⟨ppn, mem_occupied.2 ⟨h.frame_lt_memSize hv, by simp [hv]⟩⟩

/-- Some frame with a bit is free, unless the counter has reached their number. -/
theorem exists_free (h : m.WellFormed) (ha : m.allocated < m.tracked) :
    ∃ ppn < m.tracked, m.memory ppn = none := by
  by_contra hne
  push Not at hne
  refine not_le.2 ha ?_
  rw [h.allocated_eq, ← Finset.card_range m.tracked]
  refine Finset.card_le_card fun ppn hp => mem_occupied.2 ?_
  have hlt := Finset.mem_range.1 hp
  exact ⟨hlt.trans_le m.tracked_le,
    Option.isSome_iff_ne_none.2 (hne ppn hlt)⟩

/-- When the counter has reached the size of memory, all frames are occupied. -/
theorem full (h : m.WellFormed) (ha : m.hasFreePage = false) (hp : ppn < m.memSize) :
    ∃ v, m.memory ppn = some v := by
  have hle : m.memSize ≤ m.occupied.card := by
    rw [← h.allocated_eq]
    simpa [hasFreePage] using ha
  have heq : m.occupied = Finset.range m.memSize :=
    Finset.eq_of_subset_of_card_le (Finset.filter_subset _ _) (by rwa [Finset.card_range])
  have := heq ▸ Finset.mem_range.2 hp
  exact Option.isSome_iff_exists.1 (mem_occupied.1 this).2

end WellFormed

/-- Memory starts empty. -/
theorem init_wellFormed (n : ℕ) : (init n).WellFormed where
  frame_lt h := by cases h
  memory_iff := by simp [init, Resident]
  bit _ := by simp [init]
  allocated_eq := by simp [init, occupied]
  lt_nextPage h := by cases h
  quiet := rfl

/-! ## Eviction -/

variable (m) in
/-- The memory after the eviction of the page `v` from the frame `ppn`. -/
def evicted (ppn : ℕ) (v : PageId) : Memory :=
  { m with
    vpages := Function.update m.vpages v { m.vpages v with inMemory := false }
    memory := Function.update m.memory ppn none
    freelist := m.flipBit ppn
    allocated := m.allocated - 1 }

@[simp] theorem live_evicted : (m.evicted ppn v).live = m.live := rfl

/-- Eviction from a frame whose bit is set. -/
theorem evictPage_eq_of_mem (hlt : ppn < m.tracked) (hv : m.memory ppn = some v)
    (hbit : Bitmap.mem m.freelist ppn = true) : m.evictPage ppn = .ok (m.evicted ppn v) := by
  have hbound : ¬ppn > m.memSize - 1 := by have := hlt.trans_le m.tracked_le; omega
  rw [evictPage, if_neg hbound]
  simp only [hv, bvInd_lt hlt, not_true_eq_false, if_false]
  exact if_pos (by rw [← hbit, ← bitIsSet_eq]; rfl)

/-- The frame of a page can be emptied. -/
theorem evictPage_eq (h : m.WellFormed) (hv : m.memory ppn = some v) :
    m.evictPage ppn = .ok (m.evicted ppn v) :=
  evictPage_eq_of_mem (h.frame_lt hv) hv (by rw [h.bit (h.frame_lt hv), hv]; rfl)

theorem occupied_evicted :
    (m.evicted ppn v).occupied = m.occupied.erase ppn := by
  ext k
  rw [Finset.mem_erase, mem_occupied, mem_occupied]
  by_cases hk : k = ppn <;> simp [evicted, hk]

theorem resident_evicted : (m.evicted ppn v).Resident u ↔ m.Resident u ∧ u ≠ v := by
  by_cases hu : u = v <;> simp [Resident, evicted, hu]

/-- Emptying a frame keeps memory well formed. -/
theorem WellFormed.evicted (h : m.WellFormed) (hv : m.memory ppn = some v) :
    (m.evicted ppn v).WellFormed where
  frame_lt {k u} hk := by
    by_cases hkp : k = ppn
    · simp [Memory.evicted, hkp] at hk
    · exact h.frame_lt (by simpa [Memory.evicted, hkp] using hk)
  memory_iff {k u} := by
    rw [resident_evicted]
    by_cases hu : u = v
    · -- The page evicted was in `ppn` only.
      subst hu
      simp only [ne_eq, not_true_eq_false, and_false, false_and, iff_false]
      by_cases hkp : k = ppn
      · simp [Memory.evicted, hkp]
      · intro hk
        exact hkp (h.frame_unique (by simpa [Memory.evicted, hkp] using hk) hv)
    · have hcur : ((m.evicted ppn v).vpages u).currentPPN = (m.vpages u).currentPPN := by
        simp [Memory.evicted, hu]
      rw [hcur]
      by_cases hkp : k = ppn
      · subst hkp
        simp only [Memory.evicted, Function.update_self, reduceCtorEq, false_iff]
        rintro ⟨⟨hr, -⟩, rfl⟩
        exact hu (Option.some.inj ((h.memory_currentPPN hr).symm.trans hv))
      · simpa [Memory.evicted, hkp, hu] using h.memory_iff
  bit {k} hk := by
    have hk' : k < m.tracked := hk
    have hf : (m.evicted ppn v).freelist = m.flipBit ppn := rfl
    rw [hf, mem_flipBit]
    by_cases hkp : k = ppn
    · subst hkp
      simp [Memory.evicted, h.bit hk', hv]
    · simp [Memory.evicted, hkp, h.bit hk']
  allocated_eq := by
    have hmem : ppn ∈ m.occupied :=
      mem_occupied.2 ⟨h.frame_lt_memSize hv, by simp [hv]⟩
    rw [occupied_evicted, Finset.card_erase_of_mem hmem, ← h.allocated_eq]
    rfl
  lt_nextPage h' := h.lt_nextPage h'
  quiet := h.quiet

/-! ## Loading -/

variable (m) in
/-- The memory after the loading of the page `v` in the frame `ppn`. -/
def loaded (v : PageId) (ppn : ℕ) : Memory :=
  { m with
    memory := Function.update m.memory ppn (some v)
    vpages := Function.update m.vpages v { m.vpages v with inMemory := true, currentPPN := ppn }
    freelist := m.raiseBit ppn
    allocated := m.allocated + 1 }

@[simp] theorem live_loaded : (m.loaded v ppn).live = m.live := rfl

/-- A page can be loaded in an empty frame which has a bit. -/
theorem loadPage_eq {ndebug : Bool} (hlt : ppn < m.tracked) (hp : m.memory ppn = none) :
    m.loadPage ndebug v ppn = .ok (m.loaded v ppn) := by
  have hbound : ¬ppn > m.memSize - 1 := by have := hlt.trans_le m.tracked_le; omega
  rw [loadPage, if_neg hbound]
  simp only [assert_ok hp, bvInd_lt hlt, not_true_eq_false, if_false]
  rfl

theorem occupied_loaded (hlt : ppn < m.memSize) :
    (m.loaded v ppn).occupied = insert ppn m.occupied := by
  ext k
  rw [Finset.mem_insert, mem_occupied, mem_occupied]
  by_cases hk : k = ppn <;> simp [loaded, hk, hlt]

theorem resident_loaded (hl : m.live v = true) :
    (m.loaded v ppn).Resident u ↔ m.Resident u ∨ u = v := by
  by_cases hu : u = v <;> simp [Resident, loaded, hu, hl]

/-- Loading a page keeps memory well formed. -/
theorem WellFormed.loaded (h : m.WellFormed) (hlt : ppn < m.tracked) (hp : m.memory ppn = none)
    (hl : m.live v = true) (hv : ¬m.Resident v) : (m.loaded v ppn).WellFormed where
  frame_lt {k u} hk := by
    by_cases hkp : k = ppn
    · exact hkp ▸ hlt
    · exact h.frame_lt (by simpa [Memory.loaded, hkp] using hk)
  memory_iff {k u} := by
    rw [resident_loaded hl]
    by_cases hu : u = v
    · subst hu
      by_cases hkp : k = ppn
      · simp [Memory.loaded, hkp]
      · -- The page loaded was nowhere.
        have : m.memory k ≠ some u := fun hk => hv (h.resident hk)
        simp [Memory.loaded, hkp, this, Ne.symm hkp]
    · have hcur : ((m.loaded v ppn).vpages u).currentPPN = (m.vpages u).currentPPN := by
        simp [Memory.loaded, hu]
      rw [hcur]
      by_cases hkp : k = ppn
      · subst hkp
        have : m.memory k ≠ some u := by simp [hp]
        rw [Ne, h.memory_iff] at this
        simpa [Memory.loaded, hu, Ne.symm hu] using this
      · simpa [Memory.loaded, hkp, hu] using h.memory_iff
  bit {k} hk := by
    have hk' : k < m.tracked := hk
    have hf : (m.loaded v ppn).freelist = m.raiseBit ppn := rfl
    rw [hf, mem_raiseBit]
    by_cases hkp : k = ppn <;> simp [Memory.loaded, hkp, h.bit hk']
  allocated_eq := by
    have hmem : ppn ∉ m.occupied := by simp [hp]
    rw [occupied_loaded (hlt.trans_le m.tracked_le), Finset.card_insert_of_notMem hmem,
      ← h.allocated_eq]
    rfl
  lt_nextPage h' := h.lt_nextPage h'
  quiet := h.quiet

/-! ## The free frame -/

/-- A zero is found if there is one. -/
theorem bvFfz_nonneg_iff {n : BitVec 32} : bvFfz n ≥ 0 ↔ ~~~n ≠ 0 := by
  rw [bvFfz]
  split <;> simp_all

/-- The words before that of the first zero are full, and are passed over. -/
theorem getFreePageFrom_eq_ok {n i j : ℕ} (hfull : ∀ k < i, ~~~m.freelist k = 0) (hij : i ≤ j)
    (hj : j < i + n) (hne : ~~~m.freelist j ≠ 0) :
    ∃ ppn, m.getFreePageFrom n i = .ok ppn ∧ ppn / 32 ≤ j ∧ Bitmap.FirstClear m.freelist ppn := by
  induction n generalizing i with
  | zero => omega
  | succ n ih =>
    rw [getFreePageFrom]
    by_cases hi : ~~~m.freelist i = 0
    · have hlt : i ≠ j := fun e => hne (e ▸ hi)
      rw [if_neg (mt bvFfz_nonneg_iff.1 (not_not.2 hi))]
      refine ih (fun k hk => ?_) (by omega) (by omega)
      rcases Nat.lt_succ_iff_lt_or_eq.1 hk with hk | rfl
      exacts [hfull k hk, hi]
    · have hffz : bvFfz (m.freelist i) = ((~~~m.freelist i).clz.toNat : ℕ) := if_neg hi
      have hlt := (Bitmap.getMsbD_clz_not hi).1
      rw [if_pos (bvFfz_nonneg_iff.2 hi), hffz, Int.toNat_natCast]
      exact ⟨_, rfl, by omega, Bitmap.firstClear_of_word hfull hi⟩

/-- All the words left are full. -/
theorem getFreePageFrom_eq_error {n i : ℕ} (hfull : ∀ k, i ≤ k → k < i + n → ~~~m.freelist k = 0) :
    ∃ msg, m.getFreePageFrom n i = .error (.exitFailure msg) := by
  induction n generalizing i with
  | zero => exact ⟨_, rfl⟩
  | succ n ih =>
    rw [getFreePageFrom, if_neg (mt bvFfz_nonneg_iff.1 (not_not.2 (hfull i le_rfl (by omega))))]
    exact ih fun k h₁ h₂ => hfull k (by omega) (by omega)

/-- The exit of the finder. -/
def noFreePage : Stop :=
  .exitFailure ("WARN: Tried to get free page when none are avaliable. Use " ++
    "Memory_hasFreePage to check first.")

theorem getFreePageFrom_error {n i : ℕ} {e : Stop} (h : m.getFreePageFrom n i = .error e) :
    e = noFreePage := by
  induction n generalizing i with
  | zero => exact (Except.error.inj h).symm
  | succ n ih =>
    rw [getFreePageFrom] at h
    split at h
    · cases h
    · exact ih h

/-- A bit of a word of the freelist, as that of a frame. -/
theorem getMsbD_freelist {i j : ℕ} (hj : j < 32) :
    (m.freelist i).getMsbD j = Bitmap.mem m.freelist (32 * i + j) := by
  rw [Bitmap.mem, show (32 * i + j) / 32 = i by omega, show (32 * i + j) % 32 = j by omega]

/-- If some bit is clear, the finder gives the first that is. -/
theorem getFreePage_eq_of_clear {k : ℕ} (hk : k < m.tracked)
    (hclear : Bitmap.mem m.freelist k = false) :
    ∃ ppn, m.getFreePage = .ok ppn ∧ ppn < m.tracked ∧ Bitmap.FirstClear m.freelist ppn := by
  have hword : k / 32 < m.memSize / 32 := Nat.div_lt_of_lt_mul hk
  have hne : ~~~m.freelist (k / 32) ≠ 0 := by
    rw [Ne, Bitmap.not_eq_zero_iff]
    intro hall
    have := hall _ (Nat.mod_lt k (by decide))
    rw [getMsbD_freelist (Nat.mod_lt k (by decide)), Nat.div_add_mod, hclear] at this
    exact Bool.false_ne_true this
  obtain ⟨ppn, hppn, hle, hfirst⟩ :=
    getFreePageFrom_eq_ok (i := 0) (by simp) (Nat.zero_le _) (by simpa using hword) hne
  exact ⟨ppn, hppn, by rw [tracked]; omega, hfirst⟩

/-- If a frame with a bit is free, the finder gives the least free one. -/
theorem getFreePage_eq_ok (h : m.WellFormed) (ha : m.allocated < m.tracked) :
    ∃ ppn, m.getFreePage = .ok ppn ∧ ppn < m.tracked ∧ m.memory ppn = none ∧
      ∀ k < ppn, m.memory k ≠ none := by
  obtain ⟨k, hk, hfree⟩ := h.exists_free ha
  obtain ⟨ppn, hppn, hlt, hclear, hset⟩ :=
    getFreePage_eq_of_clear hk (by rw [h.bit hk, hfree]; rfl)
  refine ⟨ppn, hppn, hlt, ?_, fun j hj => ?_⟩
  · simpa [h.bit hlt] using hclear
  · have := hset j hj
    rw [h.bit (hj.trans hlt)] at this
    exact Option.isSome_iff_ne_none.1 this

/-- If no frame with a bit is free, the finder exits. -/
theorem getFreePage_eq_error (h : m.WellFormed) (ha : ¬m.allocated < m.tracked) :
    ∃ msg, m.getFreePage = .error (.exitFailure msg) := by
  have hall : m.occupied = Finset.range m.tracked :=
    Finset.eq_of_subset_of_card_le h.occupied_subset
      (by rw [Finset.card_range, ← h.allocated_eq]; exact not_lt.1 ha)
  refine getFreePageFrom_eq_error fun i _ hi => (Bitmap.not_eq_zero_iff _).2 fun j hj => ?_
  have hlt : 32 * i + j < m.tracked := by rw [tracked]; omega
  have := hall ▸ Finset.mem_range.2 hlt
  rw [getMsbD_freelist hj, h.bit hlt]
  exact (mem_occupied.1 this).2

/-! ## Allocation of pages -/

theorem resident_addPage {vp : VPage} (h : m.WellFormed) (hvp : vp.inMemory = false) :
    (m.addPage vp).Resident u ↔ m.Resident u := by
  by_cases hu : u = m.nextPage
  · subst hu
    simp [Resident, addPage, hvp, h.not_live_nextPage]
  · simp [Resident, addPage, hu]

/-- A new page is not in memory. -/
theorem WellFormed.addPage {vp : VPage} (h : m.WellFormed) (hvp : vp.inMemory = false) :
    (m.addPage vp).WellFormed where
  frame_lt hk := h.frame_lt hk
  memory_iff {k u} := by
    rw [resident_addPage h hvp]
    by_cases hu : u = m.nextPage
    · subst hu
      have hr : ¬m.Resident m.nextPage := fun hr => lt_irrefl _ (h.lt_nextPage hr.1)
      have : m.memory k ≠ some m.nextPage := fun hk => hr (h.resident hk)
      simpa [Memory.addPage, hr] using this
    · simpa [Memory.addPage, hu] using h.memory_iff
  bit hk := h.bit hk
  allocated_eq := h.allocated_eq
  lt_nextPage {u} hl := by
    by_cases hu : u = m.nextPage
    · exact hu ▸ Nat.lt_succ_self _
    · exact (h.lt_nextPage (v := u) (by simpa [Memory.addPage, hu] using hl)).trans
        (Nat.lt_succ_self _)
  quiet := h.quiet

theorem resident_freePage : (m.freePage v).Resident u ↔ m.Resident u ∧ u ≠ v := by
  by_cases hu : u = v <;> simp [Resident, freePage, hu]

/-- Only a page which is not in memory is freed. -/
theorem WellFormed.freePage (h : m.WellFormed) (hv : ¬m.Resident v) :
    (m.freePage v).WellFormed where
  frame_lt hk := h.frame_lt hk
  memory_iff {k u} := by
    rw [resident_freePage]
    by_cases hu : u = v
    · subst hu
      have : m.memory k ≠ some u := fun hk => hv (h.resident hk)
      simpa [Memory.freePage] using this
    · simpa [Memory.freePage, hu] using h.memory_iff
  bit hk := h.bit hk
  allocated_eq := h.allocated_eq
  lt_nextPage {u} hl := by
    by_cases hu : u = v
    · simp [Memory.freePage, hu] at hl
    · exact h.lt_nextPage (v := u) (by simpa [Memory.freePage, hu] using hl)
  quiet := h.quiet

end Pfsim.Memory
