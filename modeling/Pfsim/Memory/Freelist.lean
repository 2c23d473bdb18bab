import Pfsim.Memory.WellFormed

/-!
# The freelist as a set of frames

The purpose of the freelist is to keep a set of frame numbers, to which loading
adds a number and from which eviction takes one, and to give the least number
that is not in it. Here the two operations are called in any order, on any
pages, with the sole restriction that a frame loaded is empty and a frame
evicted is occupied (`FrameCall.Admissible`); a page may be in many frames.

* `Represents`: the memory represents a set of frames; then so it does after a
  call (`Represents.call`), and after a sequence of calls (`Represents.run`);
* `run_freelist`: the bits of the frames are the set of those loaded and not
  since evicted.
-/

namespace Pfsim.Memory

/-- A call of `Memory_loadPage` or of `Memory_evictPage`. -/
inductive FrameCall
  | loadPage (v : PageId) (ppn : ℕ)
  | evictPage (ppn : ℕ)

namespace FrameCall

/-- The frame that a call is about. -/
def ppn : FrameCall → ℕ
  | loadPage _ ppn => ppn
  | evictPage ppn => ppn

/-- A call, made in the memory `m`. -/
def call (ndebug : Bool) (m : Memory) : FrameCall → Except Stop Memory
  | loadPage v ppn => m.loadPage ndebug v ppn
  | evictPage ppn => m.evictPage ppn

/-- Calls made in turn. -/
def run (ndebug : Bool) (m : Memory) (l : List FrameCall) : Except Stop Memory :=
  l.foldlM (call ndebug) m

/-- The frames loaded and not since evicted, once a call is made. -/
def occupy (s : Finset ℕ) : FrameCall → Finset ℕ
  | loadPage _ ppn => insert ppn s
  | evictPage ppn => s.erase ppn

/-- A call that loads an empty frame or evicts an occupied one, among the first
    `n`. -/
def Admissible (n : ℕ) (s : Finset ℕ) : FrameCall → Prop
  | loadPage _ ppn => ppn < n ∧ ppn ∉ s
  | evictPage ppn => ppn < n ∧ ppn ∈ s

/-- Every call is admissible when it is made. -/
def AllAdmissible (n : ℕ) : Finset ℕ → List FrameCall → Prop
  | _, [] => True
  | s, c :: l => c.Admissible n s ∧ AllAdmissible n (c.occupy s) l

end FrameCall

open FrameCall

/-- The memory `m` represents the set `s` of frames. -/
structure Represents (m : Memory) (s : Finset ℕ) : Prop where
  lt_tracked : ∀ ppn ∈ s, ppn < m.tracked
  isSome_iff : ∀ ppn, (m.memory ppn).isSome ↔ ppn ∈ s
  bit : ∀ ppn, Bitmap.mem m.freelist ppn = decide (ppn ∈ s)

variable {m m' : Memory} {s : Finset ℕ} {c : FrameCall} {n ppn : ℕ} {v : PageId}

theorem represents_init : (init n).Represents ∅ := ⟨by simp, by simp [init], by simp [init]⟩

theorem Represents.loaded (h : m.Represents s) (hlt : ppn < m.tracked) :
    (m.loaded v ppn).Represents (insert ppn s) where
  lt_tracked k hk := by
    rcases Finset.mem_insert.1 hk with rfl | hk
    · exact hlt
    · exact h.lt_tracked k hk
  isSome_iff k := by
    by_cases hkp : k = ppn <;> simp [Memory.loaded, hkp, h.isSome_iff]
  bit k := by
    rw [show (m.loaded v ppn).freelist = m.raiseBit ppn from rfl, mem_raiseBit, h.bit]
    by_cases hkp : k = ppn <;> simp [hkp]

theorem Represents.evicted (h : m.Represents s) (hp : ppn ∈ s) :
    (m.evicted ppn v).Represents (s.erase ppn) where
  lt_tracked k hk := h.lt_tracked k (Finset.mem_of_mem_erase hk)
  isSome_iff k := by
    by_cases hkp : k = ppn <;> simp [Memory.evicted, hkp, h.isSome_iff]
  bit k := by
    rw [show (m.evicted ppn v).freelist = m.flipBit ppn from rfl, mem_flipBit, h.bit, h.bit]
    by_cases hkp : k = ppn <;> simp [hkp, hp]

/-- An admissible call goes through, and the memory represents the set it leads to. -/
theorem Represents.call (h : m.Represents s) (ndebug : Bool) (hc : c.Admissible m.tracked s) :
    ∃ m', c.call ndebug m = .ok m' ∧ m'.memSize = m.memSize ∧ m'.Represents (c.occupy s) := by
  cases c with
  | loadPage v ppn =>
    have hp : m.memory ppn = none := by
      rw [← Option.isNone_iff_eq_none, ← Option.not_isSome, Bool.not_eq_true', Bool.eq_false_iff]
      exact fun hs => hc.2 ((h.isSome_iff ppn).1 hs)
    exact ⟨m.loaded v ppn, loadPage_eq hc.1 hp, rfl, h.loaded hc.1⟩
  | evictPage ppn =>
    obtain ⟨v, hv⟩ := Option.isSome_iff_exists.1 ((h.isSome_iff ppn).2 hc.2)
    have hbit : Bitmap.mem m.freelist ppn = true := by rw [h.bit, decide_eq_true hc.2]
    exact ⟨m.evicted ppn v, evictPage_eq_of_mem hc.1 hv hbit, rfl, h.evicted hc.2⟩

/-- Calls that are all admissible go through. -/
theorem Represents.run {l : List FrameCall} (h : m.Represents s) (ndebug : Bool)
    (hl : AllAdmissible m.tracked s l) :
    ∃ m', run ndebug m l = .ok m' ∧ m'.memSize = m.memSize ∧ m'.Represents (l.foldl occupy s) := by
  induction l generalizing m s with
  | nil => exact ⟨m, rfl, rfl, h⟩
  | cons c l ih =>
    obtain ⟨m₁, hm₁, hsize, h₁⟩ := h.call ndebug hl.1
    have htracked : m₁.tracked = m.tracked := by rw [tracked, hsize, tracked]
    obtain ⟨m', hm', hsize', h'⟩ := ih h₁ (htracked ▸ hl.2)
    refine ⟨m', ?_, hsize'.trans hsize, h'⟩
    rw [FrameCall.run, List.foldlM_cons, hm₁]
    exact hm'

/-- A call leads to a set that differs in its frame only. -/
theorem mem_occupy {k : ℕ} (hk : k ≠ c.ppn) : k ∈ c.occupy s ↔ k ∈ s := by
  cases c with
  | loadPage v ppn => exact Finset.mem_insert.trans (or_iff_right hk)
  | evictPage ppn => exact Finset.mem_erase.trans (and_iff_right hk)

/-- The finder gives the least frame missing from the set. -/
theorem Represents.getFreePage (h : m.Represents s) (hs : s ≠ Finset.range m.tracked) :
    ∃ ppn, m.getFreePage = .ok ppn ∧ IsLeast {k | k < m.tracked ∧ k ∉ s} ppn := by
  obtain ⟨k, hk, hks⟩ : ∃ k < m.tracked, k ∉ s := by
    by_contra hall
    push Not at hall
    exact hs (Finset.ext fun k => ⟨fun hk => Finset.mem_range.2 (h.lt_tracked k hk), fun hk =>
      hall k (Finset.mem_range.1 hk)⟩)
  obtain ⟨ppn, hppn, hlt, hclear, hset⟩ :=
    getFreePage_eq_of_clear hk (by rw [h.bit, decide_eq_false hks])
  rw [h.bit, decide_eq_false_iff_not] at hclear
  refine ⟨ppn, hppn, ⟨hlt, hclear⟩, fun j hj => ?_⟩
  by_contra hjp
  have := hset j (not_le.1 hjp)
  rw [h.bit, decide_eq_true_iff] at this
  exact hj.2 this

/-- The bits of the frames are the set of those loaded and not since evicted:
    calls that are all admissible go through, one more changes the bit of its
    frame only, and the finder gives the least frame missing, if there is one. -/
theorem run_freelist (ndebug : Bool) (n : ℕ) (l : List FrameCall)
    (hl : AllAdmissible (32 * (n / 32)) ∅ l) :
    ∃ m, run ndebug (init n) l = .ok m ∧
      {ppn | ppn < 32 * (n / 32) ∧ (m.freelist (ppn / 32)).getMsbD (ppn % 32) = true} =
        ↑(l.foldl occupy ∅) ∧
      (∀ c : FrameCall, c.Admissible (32 * (n / 32)) (l.foldl occupy ∅) →
        ∃ m', c.call ndebug m = .ok m' ∧ ∀ ppn ≠ c.ppn,
          (m'.freelist (ppn / 32)).getMsbD (ppn % 32) =
            (m.freelist (ppn / 32)).getMsbD (ppn % 32)) ∧
      (l.foldl occupy ∅ ≠ Finset.range (32 * (n / 32)) →
        ∃ ppn, m.getFreePage = .ok ppn ∧
          IsLeast {k | k < 32 * (n / 32) ∧ k ∉ l.foldl occupy ∅} ppn) := by
  obtain ⟨m, hm, hsize, h⟩ := (represents_init (n := n)).run ndebug hl
  have htracked : m.tracked = 32 * (n / 32) := by rw [tracked, hsize]; rfl
  refine ⟨m, hm, Set.ext fun k => ?_, fun c hc => ?_, fun hs => ?_⟩
  · have hbit := h.bit k
    rw [Bitmap.mem] at hbit
    simp only [Set.mem_ofPred, hbit, decide_eq_true_iff, Finset.mem_coe]
    exact and_iff_right_of_imp fun hk => htracked ▸ h.lt_tracked k hk
  · obtain ⟨m', hm', -, h'⟩ := h.call ndebug (htracked ▸ hc)
    refine ⟨m', hm', fun k hk => ?_⟩
    have := h'.bit k
    rw [decide_eq_decide.2 (mem_occupy hk), ← h.bit k] at this
    exact this
  · exact htracked ▸ h.getFreePage (htracked ▸ hs)

/-- Two frames loaded, and one evicted. -/
theorem run_freelist_two : ∃ m, run true (init 40)
      [.loadPage 0 5, .loadPage 0 31, .evictPage 5] = .ok m ∧
    {ppn | ppn < 32 * (40 / 32) ∧ (m.freelist (ppn / 32)).getMsbD (ppn % 32) = true} = {31} := by
  obtain ⟨m, hm, hbits, -⟩ := run_freelist true 40 [.loadPage 0 5, .loadPage 0 31, .evictPage 5]
    ⟨⟨by decide, by decide⟩, ⟨by decide, by decide⟩, ⟨by decide, by decide⟩, trivial⟩
  have hset : List.foldl occupy ∅ [.loadPage 0 5, .loadPage 0 31, .evictPage 5] = {31} := by decide
  rw [hset, Finset.coe_singleton] at hbits
  exact ⟨m, hm, hbits⟩

end Pfsim.Memory
