import Pfsim.Paging
import Pfsim.Paging.Algorithm

/-!
# Faults of LRU replacement

The pages referenced since a moment are on top of the stack (`stack_split`). So they are
kept as long as there is room for all of them, and the misses of LRU are conservative
(`conservative_misses`); and a page is kept if there is room for the pages referenced since
its last reference (`mem_kept_iff`), which counts the misses without the stack
(`misses_eq_card`).
-/

namespace LruStack

open Paging

variable {α : Type*} [DecidableEq α] {σ : ℕ → α} {m i k n : ℕ} {v : α}

theorem touch_append (v : α) (t r : List α) :
    touch v (t ++ r) = touch v t ++ r.filter (· ≠ v) := by
  rw [touch, List.filter_append, touch, List.cons_append]

theorem toFinset_touch (v : α) (t : List α) : (touch v t).toFinset = insert v t.toFinset := by
  ext u
  rw [List.mem_toFinset, mem_touch, Finset.mem_insert, List.mem_toFinset]

/-- The pages referenced since `i` are on top of the stack. -/
theorem stack_split (σ : ℕ → α) (h : i ≤ k) :
    ∃ t r, stack σ k = t ++ r ∧ t.toFinset = pages σ i k := by
  induction k, h using Nat.le_induction with
  | base => exact ⟨[], stack σ i, rfl, by simp⟩
  | succ k hik ih =>
    obtain ⟨t, r, hstack, ht⟩ := ih
    refine ⟨touch (σ k) t, r.filter (· ≠ σ k), ?_, ?_⟩
    · rw [stack, hstack, touch_append]
    · rw [toFinset_touch, ht, pages_succ hik]

/-- There is a place for each of them. -/
theorem card_pages_of_stack {t r : List α} (hstack : stack σ k = t ++ r)
    (ht : t.toFinset = pages σ i k) : t.length = (pages σ i k).card := by
  have hnd := nodup_stack σ k
  rw [hstack] at hnd
  rw [← ht, List.toFinset_card_of_nodup hnd.of_append_left]

theorem mem_stack : v ∈ stack σ k ↔ v ∈ pages σ 0 k := by
  induction k with
  | zero => simp [stack]
  | succ k ih => rw [stack, mem_touch, ih, pages_succ k.zero_le, Finset.mem_insert]

/-- As long as there is room for them, the pages referenced since `i` are kept. -/
theorem mem_kept_of_mem_pages (h : i ≤ k) (hm : (pages σ i k).card ≤ m) (hv : v ∈ pages σ i k) :
    v ∈ kept m σ k := by
  obtain ⟨t, r, hstack, ht⟩ := stack_split σ h
  have hlen := card_pages_of_stack hstack ht
  rw [← ht, List.mem_toFinset] at hv
  rw [kept, hstack, List.take_append, List.take_of_length_le (by omega)]
  exact List.mem_append_left _ hv

/-- The misses are at most one for each page, as long as there is room for them. -/
theorem conservative_misses (m : ℕ) (σ : ℕ → α) : Conservative m σ (misses m σ) where
  zero := rfl
  le {i k} h hm := by
    induction k, h using Nat.le_induction with
    | base => exact Nat.le_add_right _ _
    | succ k hik ih =>
      have hsub : pages σ i k ⊆ pages σ i (k + 1) := pages_mono_right k.le_succ
      have hle := (Finset.card_le_card hsub).trans hm
      have hrec := ih hle
      by_cases hmem : σ k ∈ pages σ i k
      · rw [misses_succ_of_mem (mem_kept_of_mem_pages hik hle hmem), pages_succ hik,
          Finset.insert_eq_self.2 hmem]
        exact hrec
      · rw [pages_succ hik, Finset.card_insert_of_notMem hmem, misses]
        split <;> omega

/-- A page is kept if there is room for it and for those referenced since. -/
theorem mem_kept_iff : v ∈ kept m σ k ↔ ∃ j < k, σ j = v ∧ (pages σ j k).card ≤ m := by
  constructor
  · intro hv
    obtain ⟨j, -, hjk, hj, hnot⟩ := exists_last (mem_stack.1 (List.mem_of_mem_take hv))
    refine ⟨j, hjk, hj, ?_⟩
    obtain ⟨t, r, hstack, ht⟩ := stack_split σ (Nat.succ_le_of_lt hjk)
    have hlen := card_pages_of_stack hstack ht
    rw [pages_eq_insert hjk, hj, Finset.card_insert_of_notMem hnot, ← hlen]
    -- The page comes after those on top.
    rw [← ht, List.mem_toFinset] at hnot
    by_contra hlt
    rw [kept, hstack, List.take_append_of_le_length (by omega)] at hv
    exact hnot (List.mem_of_mem_take hv)
  · rintro ⟨j, hjk, rfl, hcard⟩
    exact mem_kept_of_mem_pages hjk.le hcard (mem_pages.2 ⟨j, le_rfl, hjk, rfl⟩)

/-- The misses are the references of pages since whose last reference more than `m` pages
    have been referenced, and of new ones. -/
theorem misses_eq_card (m : ℕ) (σ : ℕ → α) (n : ℕ) : misses m σ n =
    ((Finset.range n).filter fun k => ∀ j < k, σ j = σ k → m < (pages σ j k).card).card := by
  induction n with
  | zero => rfl
  | succ n ih =>
    have hiff : σ n ∈ kept m σ n ↔ ¬∀ j < n, σ j = σ n → m < (pages σ j n).card := by
      rw [mem_kept_iff]
      push Not
      rfl
    rw [Finset.range_add_one, Finset.filter_insert]
    by_cases h : σ n ∈ kept m σ n
    · rw [misses_succ_of_mem h, if_neg (hiff.1 h), ih]
    · rw [misses_succ_of_notMem h, if_pos (not_not.1 (mt hiff.2 h)),
        Finset.card_insert_of_notMem (by simp), ih]

/-- The algorithm keeps the pages on top of the stack. -/
theorem state_lru (hm : 0 < m) (σ : ℕ → α) (k : ℕ) : (lru m).state σ k = kept m σ k := by
  induction k with
  | zero => exact List.take_nil.symm
  | succ k ih =>
    by_cases h : σ k ∈ kept m σ k
    · have hmem : σ k ∈ (lru m).mem ((lru m).state σ k) := ih ▸ h
      rw [Algorithm.state_succ_of_mem hmem, ih, kept_succ_of_mem h]
      rfl
    · have hmem : σ k ∉ (lru m).mem ((lru m).state σ k) := ih ▸ h
      rw [Algorithm.state_succ_of_notMem hmem, ih, kept_succ_of_notMem hm h]
      exact touch_cons fun hk => h (List.mem_of_mem_take hk)

theorem faults_lru (hm : 0 < m) (σ : ℕ → α) (k : ℕ) : (lru m).faults σ k = misses m σ k := by
  induction k with
  | zero => rfl
  | succ k ih =>
    rw [Algorithm.faults, ih, misses, state_lru hm]
    rfl

end LruStack
