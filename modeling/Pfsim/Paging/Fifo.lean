import Pfsim.Paging
import Pfsim.Paging.Algorithm

/-!
# Faults of FIFO replacement

The pages loaded since a moment are the first ones of the queue (`fifo_split`), and as long
as there is room for the pages referenced since, each of them is a fault at most: the
faults of FIFO are conservative (`conservative_fifo`).
-/

namespace Paging

variable {α : Type*} [DecidableEq α] {σ : ℕ → α} {m i k : ℕ}

/-- As long as there is room for the pages referenced since `i`, those loaded are still
    there, before the others. -/
theorem fifo_split (h : i ≤ k) (hm : (pages σ i k).card ≤ m) :
    ∃ t r : List α, (fifo m).state σ k = t ++ r ∧ t.Nodup ∧ t.toFinset ⊆ pages σ i k ∧
      (fifo m).faults σ k = (fifo m).faults σ i + t.length := by
  induction k, h using Nat.le_induction with
  | base => exact ⟨[], (fifo m).state σ i, rfl, .nil, by simp, rfl⟩
  | succ k hik ih =>
    obtain ⟨t, r, hqueue, hnd, hsub, hfaults⟩ :=
      ih ((Finset.card_le_card (pages_mono_right k.le_succ)).trans hm)
    by_cases hmem : σ k ∈ (fifo m).mem ((fifo m).state σ k)
    · refine ⟨t, r, (Algorithm.state_succ_of_mem hmem).trans hqueue, hnd,
        hsub.trans (pages_mono_right k.le_succ),
        (Algorithm.faults_succ_of_mem hmem).trans hfaults⟩
    · have hnot : σ k ∉ t := fun h => hmem (hqueue ▸ List.mem_append_left r h)
      have hsub' : (σ k :: t).toFinset ⊆ pages σ i (k + 1) := by
        rw [List.toFinset_cons, pages_succ hik]
        exact Finset.insert_subset_insert _ hsub
      have hnd' : (σ k :: t).Nodup := List.nodup_cons.2 ⟨hnot, hnd⟩
      have hlen : t.length ≤ m - 1 := by
        have := (Finset.card_le_card hsub').trans hm
        rw [List.toFinset_card_of_nodup hnd', List.length_cons] at this
        omega
      refine ⟨σ k :: t, r.take (m - 1 - t.length), ?_, hnd', hsub', ?_⟩
      · rw [Algorithm.state_succ_of_notMem hmem, hqueue]
        change σ k :: (t ++ r).take (m - 1) = _
        rw [List.take_append, List.take_of_length_le hlen, List.cons_append]
      · rw [Algorithm.faults_succ_of_notMem hmem, hfaults, List.length_cons, Nat.add_assoc]

/-- The faults are at most one for each page, as long as there is room for them. -/
theorem conservative_fifo (m : ℕ) (σ : ℕ → α) : Conservative m σ ((fifo m).faults σ) where
  zero := rfl
  le h hm := by
    obtain ⟨t, r, -, hnd, hsub, hfaults⟩ := fifo_split h hm
    rw [hfaults, ← List.toFinset_card_of_nodup hnd]
    exact Nat.add_le_add_left (Finset.card_le_card hsub) _

end Paging
