import Mathlib.Algebra.Order.Interval.Finset.SuccPred
import Mathlib.Data.Finset.Card
import Mathlib.Data.Nat.SuccPred
import Mathlib.Order.Interval.Finset.Nat
import Mathlib.Tactic.Ring

/-!
# Paging

A sequence of references is served by a memory of `m` pages (`Serves`): a page is referenced
while it is in memory, and pages are brought in one at a time, at any time, others being
evicted if need be, whichever they are.

* `Serves.lower_bound`: from a reference on, all the pages referenced have been in memory
  then, or are brought in later; so each page is brought in at least once
  (`Serves.compulsory`);
* `Conservative.competitive`: faults which are at most one for each page, as long as no more
  than `m` pages are referenced, are at most `m / (m + 1 - h)` times the pages brought in by
  any way to serve the references by a memory of `h` pages.
-/

namespace Paging

variable {α : Type*} [DecidableEq α]

/-- The pages of the references from `i` on, before `k`. -/
def pages (σ : ℕ → α) (i k : ℕ) : Finset α := (Finset.Ico i k).image σ

/-- The first `k` references can be served, with a memory of `m` pages which is empty at
    first, by bringing in `n` pages, after which the memory is `C`. -/
inductive Serves (m : ℕ) (σ : ℕ → α) : ℕ → Finset α → ℕ → Prop
  | start : Serves m σ 0 ∅ 0
  | hit {k n : ℕ} {C : Finset α} : Serves m σ k C n → σ k ∈ C → Serves m σ (k + 1) C n
  | load {k n : ℕ} {C C' : Finset α} {v : α} : Serves m σ k C n → C' ⊆ insert v C →
      C'.card ≤ m → Serves m σ k C' (n + 1)
  | drop {k n : ℕ} {C C' : Finset α} : Serves m σ k C n → C' ⊆ C → Serves m σ k C' n

/-- The faults `F k` of the first `k` references are at most one for each page, as long as
    no more than `m` pages are referenced. -/
structure Conservative (m : ℕ) (σ : ℕ → α) (F : ℕ → ℕ) : Prop where
  zero : F 0 = 0
  le : ∀ {i k}, i ≤ k → (pages σ i k).card ≤ m → F k ≤ F i + (pages σ i k).card

variable {σ : ℕ → α} {m h i j k n : ℕ} {C : Finset α} {v : α}

/-! ## The pages of an interval -/

theorem mem_pages : v ∈ pages σ i k ↔ ∃ j, i ≤ j ∧ j < k ∧ σ j = v := by
  simp [pages, and_assoc]

@[simp] theorem pages_self : pages σ i i = ∅ := by simp [pages]

theorem pages_succ (h : i ≤ k) : pages σ i (k + 1) = insert (σ k) (pages σ i k) := by
  rw [pages, ← Finset.insert_Ico_right_eq_Ico_add_one h, Finset.image_insert, pages]

/-- One reference more, at the front. -/
theorem pages_eq_insert (h : i < k) : pages σ i k = insert (σ i) (pages σ (i + 1) k) := by
  rw [pages, ← Finset.insert_Ico_add_one_left_eq_Ico h, Finset.image_insert, pages]

theorem pages_mono_right (h : j ≤ k) : pages σ i j ⊆ pages σ i k :=
  Finset.image_subset_image (Finset.Ico_subset_Ico_right h)

/-- The last reference of a page. -/
theorem exists_last (h : v ∈ pages σ i k) :
    ∃ j, i ≤ j ∧ j < k ∧ σ j = v ∧ v ∉ pages σ (j + 1) k := by
  induction k with
  | zero => simp [pages] at h
  | succ k ih =>
    by_cases hv : σ k = v
    · obtain ⟨j, hij, hjk, -⟩ := mem_pages.1 h
      exact ⟨k, hij.trans (Nat.le_of_lt_succ hjk), k.lt_succ_self, hv, by simp⟩
    · obtain ⟨j, hij, hjk, hj⟩ := mem_pages.1 h
      have hjk : j < k := lt_of_le_of_ne (Nat.le_of_lt_succ hjk) (by rintro rfl; exact hv hj)
      obtain ⟨j, hij, hjk, hj, hnot⟩ := ih (mem_pages.2 ⟨j, hij, hjk, hj⟩)
      refine ⟨j, hij, hjk.trans k.lt_succ_self, hj, ?_⟩
      rw [pages_succ hjk, Finset.mem_insert, not_or]
      exact ⟨Ne.symm hv, hnot⟩

/-! ## Lower bounds -/

theorem Serves.card_le (hs : Serves m σ k C n) : C.card ≤ m := by
  induction hs with
  | start => exact Nat.zero_le m
  | hit _ _ ih => exact ih
  | load _ _ hle => exact hle
  | drop _ hsub ih => exact (Finset.card_le_card hsub).trans ih

/-- Only the first `k` references matter. -/
theorem Serves.congr {σ' : ℕ → α} (hs : Serves m σ k C n) (h : ∀ j < k, σ' j = σ j) :
    Serves m σ' k C n := by
  induction hs with
  | start => exact .start
  | @hit k n C hs hmem ih =>
    refine (ih fun j hj => h j (hj.trans k.lt_succ_self)).hit ?_
    rwa [h k k.lt_succ_self]
  | load _ hsub hle ih => exact (ih h).load hsub hle
  | drop _ hsub ih => exact (ih h).drop hsub

/-- The pages under other names. -/
theorem Serves.map {β : Type*} [DecidableEq β] (f : α → β) (hs : Serves m σ k C n) :
    Serves m (f ∘ σ) k (C.image f) n := by
  induction hs with
  | start => exact .start
  | hit _ hmem ih => exact ih.hit (Finset.mem_image_of_mem f hmem)
  | @load k n C C' v _ hsub hle ih =>
    refine ih.load (v := f v) ?_ (Finset.card_image_le.trans hle)
    rw [← Finset.image_insert]
    exact Finset.image_subset_image hsub
  | drop _ hsub ih => exact ih.drop (Finset.image_subset_image hsub)

/-- The pages referenced have all been brought in, and so have those in memory. -/
theorem Serves.brought_in (hs : Serves m σ k C n) :
    ∃ L : Finset α, L.card ≤ n ∧ C ⊆ L ∧ pages σ 0 k ⊆ L := by
  induction hs with
  | start => exact ⟨∅, by simp⟩
  | @hit k n C _ hmem ih =>
    obtain ⟨L, hcard, hC, hP⟩ := ih
    refine ⟨L, hcard, hC, ?_⟩
    rw [pages_succ k.zero_le]
    exact Finset.insert_subset (hC hmem) hP
  | @load k n C C' v _ hsub _ ih =>
    obtain ⟨L, hcard, hC, hP⟩ := ih
    exact ⟨insert v L, (Finset.card_insert_le v L).trans (Nat.succ_le_succ hcard),
      hsub.trans (Finset.insert_subset_insert v hC), hP.trans (Finset.subset_insert v L)⟩
  | drop _ hsub ih =>
    obtain ⟨L, hcard, hC, hP⟩ := ih
    exact ⟨L, hcard, hsub.trans hC, hP⟩

/-- Each page is brought in at least once. -/
theorem Serves.compulsory (hs : Serves m σ k C n) : (pages σ 0 k).card ≤ n := by
  obtain ⟨L, hcard, -, hP⟩ := hs.brought_in
  exact (Finset.card_le_card hP).trans hcard

/-- The pages referenced since `σ i` have been in memory then, as `σ i` has, or have been
    brought in since. -/
theorem Serves.lower_bound {C' : Finset α} {n' : ℕ} (hs : Serves m σ k C' n') (hi : i < k) :
    ∃ C n, Serves m σ (i + 1) C n ∧ σ i ∈ C ∧
      ∃ L : Finset α, n + L.card ≤ n' ∧ C' ⊆ C ∪ L ∧ pages σ (i + 1) k ⊆ C ∪ L := by
  induction hs with
  | start => exact absurd hi i.not_lt_zero
  | @hit k n' C' hs hmem ih =>
    rcases (Nat.lt_succ_iff_lt_or_eq.1 hi) with hlt | rfl
    · obtain ⟨C, n, hs', hself, L, hcard, hC, hP⟩ := ih hlt
      refine ⟨C, n, hs', hself, L, hcard, hC, ?_⟩
      rw [pages_succ hlt]
      exact Finset.insert_subset (hC hmem) hP
    · exact ⟨C', n', hs.hit hmem, hmem, ∅, by simp, by simp, by simp⟩
  | @load k n' C' C'' v _ hsub _ ih =>
    obtain ⟨C, n, hs', hself, L, hcard, hC, hP⟩ := ih hi
    have hinsert := Finset.card_insert_le v L
    refine ⟨C, n, hs', hself, insert v L, by omega, ?_, ?_⟩ <;> rw [Finset.union_insert]
    · exact hsub.trans (Finset.insert_subset_insert v hC)
    · exact hP.trans (Finset.subset_insert v _)
  | drop _ hsub ih =>
    obtain ⟨C, n, hs', hself, L, hcard, hC, hP⟩ := ih hi
    exact ⟨C, n, hs', hself, L, hcard, hsub.trans hC, hP⟩

/-- When `m` pages other than the last one are referenced, at most `h - 1` of which are in
    memory. -/
theorem Serves.phase {C' : Finset α} {n' : ℕ} (hs : Serves h σ k C' n') (hi : i < k)
    (hcard : (pages σ (i + 1) k).card = m) (hnot : σ i ∉ pages σ (i + 1) k) :
    ∃ C n, Serves h σ (i + 1) C n ∧ n + (m + 1 - h) ≤ n' := by
  obtain ⟨C, n, hs', hself, L, hn, -, hP⟩ := hs.lower_bound hi
  refine ⟨C, n, hs', ?_⟩
  -- The last page takes a place in memory.
  have hsub : pages σ (i + 1) k ⊆ C.erase (σ i) ∪ L := fun v hv => by
    rcases Finset.mem_union.1 (hP hv) with hC | hL
    · exact Finset.mem_union_left _ (Finset.mem_erase.2 ⟨fun e => hnot (e ▸ hv), hC⟩)
    · exact Finset.mem_union_right _ hL
  have hle := (Finset.card_le_card hsub).trans (Finset.card_union_le _ _)
  rw [Finset.card_erase_of_mem hself, hcard] at hle
  have hC := hs'.card_le
  have hpos : 0 < C.card := Finset.card_pos.2 ⟨σ i, hself⟩
  omega

/-! ## The competitive ratio -/

/-- The references end with as many pages as there is room for, none of which is the page
    referenced before, unless there is room for all of them. -/
theorem exists_phase (h : m < (pages σ 0 k).card) : ∃ i < k,
    (pages σ (i + 1) k).card = m ∧ σ i ∉ pages σ (i + 1) k := by
  have hex : ∃ i, (pages σ i k).card ≤ m := ⟨k, by simp⟩
  obtain ⟨i, hi⟩ := Nat.exists_eq_add_one_of_ne_zero
    (show Nat.find hex ≠ 0 from fun e => absurd (e ▸ Nat.find_spec hex) h.not_ge)
  have hle : (pages σ (i + 1) k).card ≤ m := hi ▸ Nat.find_spec hex
  have hlt : m < (pages σ i k).card := Nat.lt_of_not_le (Nat.find_min hex (by omega))
  have hik : i < k := by
    by_contra hik
    rw [pages, Finset.Ico_eq_empty_of_le (Nat.le_of_not_lt hik)] at hlt
    exact absurd hlt (by simp)
  rw [pages_eq_insert hik] at hlt
  have hnot : σ i ∉ pages σ (i + 1) k := fun hmem => by
    rw [Finset.insert_eq_self.2 hmem] at hlt
    omega
  rw [Finset.card_insert_of_notMem hnot] at hlt
  exact ⟨i, hik, by omega, hnot⟩

/-- Of `m` pages against `h`, the faults are at most `m / (m + 1 - h)` times the pages brought
    in. -/
theorem Conservative.competitive {F : ℕ → ℕ} (hF : Conservative m σ F) (h1 : 1 ≤ h)
    (hm : h ≤ m) (hs : Serves h σ k C n) : (m + 1 - h) * F k ≤ m * n := by
  induction k using Nat.strong_induction_on generalizing C n with
  | _ k ih =>
    rcases Nat.lt_or_ge m (pages σ 0 k).card with hlt | hle
    · -- The last phase has at most `m` faults, against `m + 1 - h` at least.
      obtain ⟨i, hik, hcard, hnot⟩ := exists_phase hlt
      obtain ⟨C', n', hs', hn⟩ := hs.phase hik hcard hnot
      have hne : i + 1 ≠ k := by
        rintro rfl
        rw [pages_self, Finset.card_empty] at hcard
        omega
      have hrec := ih (i + 1) (lt_of_le_of_ne hik hne) hs'
      have hlast : F k ≤ F (i + 1) + m := hcard ▸ hF.le (Nat.succ_le_of_lt hik) hcard.le
      calc (m + 1 - h) * F k ≤ (m + 1 - h) * (F (i + 1) + m) := Nat.mul_le_mul_left _ hlast
        _ = (m + 1 - h) * F (i + 1) + m * (m + 1 - h) := by ring
        _ ≤ m * n' + m * (m + 1 - h) := Nat.add_le_add_right hrec _
        _ = m * (n' + (m + 1 - h)) := by ring
        _ ≤ m * n := Nat.mul_le_mul_left _ hn
    · -- There is room for all of them: each is a fault of both.
      have hall : F k ≤ (pages σ 0 k).card := by simpa [hF.zero] using hF.le k.zero_le hle
      exact Nat.mul_le_mul (by omega) (hall.trans hs.compulsory)

end Paging
