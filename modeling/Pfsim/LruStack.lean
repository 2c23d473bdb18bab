import Mathlib.Tactic

/-!
# The stack of least recently used pages

In a sequence of references, the pages referenced so far make a *stack*, the page
referenced last on top (`stack`): a reference takes its page out and puts it on top
(`touch`). A memory of `m` frames from which the least recently used page is evicted keeps
the first `m` pages of the stack (`kept`), whether the page referenced is there
(`kept_succ_of_mem`) or not (`kept_succ_of_notMem`).

So what a memory keeps, a larger one keeps too (`kept_subset`), and a larger memory does not
miss more often (`misses_anti`): this is the inclusion property of the policy.
-/

namespace LruStack

variable {α : Type*} [DecidableEq α]

/-- The page `v` goes on top. -/
def touch (v : α) (l : List α) : List α := v :: l.filter (· ≠ v)

/-- The pages of the first `k` references, the last one on top. -/
def stack (σ : ℕ → α) : ℕ → List α
  | 0 => []
  | k + 1 => touch (σ k) (stack σ k)

/-- The pages kept in `m` frames after the first `k` references. -/
def kept (m : ℕ) (σ : ℕ → α) (k : ℕ) : List α := (stack σ k).take m

/-- The number of misses in the first `k` references, with `m` frames. -/
def misses (m : ℕ) (σ : ℕ → α) : ℕ → ℕ
  | 0 => 0
  | k + 1 => misses m σ k + if σ k ∈ kept m σ k then 0 else 1

variable {σ : ℕ → α} {m m' k : ℕ} {u v : α} {l : List α}

/-! ## A page on top -/

theorem mem_touch : u ∈ touch v l ↔ u = v ∨ u ∈ l := by
  rw [touch, List.mem_cons, List.mem_filter, decide_eq_true_eq]
  by_cases h : u = v <;> simp [h]

theorem nodup_touch (h : l.Nodup) : (touch v l).Nodup :=
  List.nodup_cons.2 ⟨fun hv => by simpa using List.of_mem_filter hv, h.filter _⟩

/-- The page on top already. -/
theorem touch_cons (h : v ∉ l) : touch v (v :: l) = v :: l := by
  rw [touch, List.filter_cons_of_neg (by simp), List.filter_eq_self.2]
  intro u hu
  exact decide_eq_true fun e => h (e ▸ hu)

/-- Without a page that is not among the first ones. -/
theorem take_filter_of_notMem (h : v ∉ l.take m) : (l.filter (· ≠ v)).take m = l.take m := by
  induction l generalizing m with
  | nil => rfl
  | cons x l ih =>
    cases m with
    | zero => rfl
    | succ m =>
      rw [List.take_succ_cons, List.mem_cons, not_or] at h
      rw [List.filter_cons_of_pos (by simpa using Ne.symm h.1), List.take_succ_cons,
        List.take_succ_cons, ih h.2]

/-- Without one of the first ones, the next one takes a place more. -/
theorem take_filter_of_mem (hnd : l.Nodup) (h : v ∈ l.take (m + 1)) :
    (l.filter (· ≠ v)).take m = (l.take (m + 1)).filter (· ≠ v) := by
  induction l generalizing m with
  | nil => exact List.take_nil
  | cons x l ih =>
    obtain ⟨hx, hnd⟩ := List.nodup_cons.1 hnd
    rw [List.take_succ_cons] at h ⊢
    by_cases hxv : x = v
    · subst hxv
      have hself {k : List α} (hk : x ∉ k) : k.filter (· ≠ x) = k :=
        List.filter_eq_self.2 fun u hu => decide_eq_true fun e => hk (e ▸ hu)
      rw [List.filter_cons_of_neg (by simp), List.filter_cons_of_neg (by simp), hself hx,
        hself (mt List.mem_of_mem_take hx)]
    · have hv : v ∈ l.take m := (List.mem_cons.1 h).resolve_left (Ne.symm hxv)
      obtain ⟨m, rfl⟩ := Nat.exists_eq_succ_of_ne_zero
        (show m ≠ 0 by rintro rfl; simp at hv)
      rw [List.filter_cons_of_pos (by simpa using hxv), List.filter_cons_of_pos
        (by simpa using hxv), List.take_succ_cons, ih hnd hv]

/-! ## The pages kept -/

theorem nodup_stack (σ : ℕ → α) (k : ℕ) : (stack σ k).Nodup := by
  induction k with
  | zero => exact List.nodup_nil
  | succ k ih => exact nodup_touch ih

/-- A page which is there goes on top. -/
theorem kept_succ_of_mem (h : σ k ∈ kept m σ k) : kept m σ (k + 1) = touch (σ k) (kept m σ k) := by
  obtain ⟨m, rfl⟩ := Nat.exists_eq_succ_of_ne_zero
    (show m ≠ 0 by rintro rfl; simp [kept] at h)
  rw [kept, stack, touch, List.take_succ_cons, take_filter_of_mem (nodup_stack σ k) h]
  rfl

/-- A page which is not there takes the place of the last one, if there is no room. -/
theorem kept_succ_of_notMem (hm : 0 < m) (h : σ k ∉ kept m σ k) :
    kept m σ (k + 1) = σ k :: (kept m σ k).take (m - 1) := by
  obtain ⟨m, rfl⟩ := Nat.exists_eq_succ_of_ne_zero hm.ne'
  have hmin : min m (m + 1) = m := Nat.min_eq_left m.le_succ
  have h' : σ k ∉ (stack σ k).take m := fun h' => h (List.take_subset_take_left _ m.le_succ h')
  rw [kept, stack, touch, List.take_succ_cons, take_filter_of_notMem h', kept, List.take_take,
    Nat.succ_sub_one, hmin]

/-- The page just referenced is on top. -/
theorem touch_kept_succ (hm : 0 < m) : touch (σ k) (kept m σ (k + 1)) = kept m σ (k + 1) := by
  obtain ⟨m, rfl⟩ := Nat.exists_eq_succ_of_ne_zero hm.ne'
  have htop : kept (m + 1) σ (k + 1) = σ k :: ((stack σ k).filter (· ≠ σ k)).take m := rfl
  rw [htop]
  refine touch_cons fun h => ?_
  simpa using List.of_mem_filter (List.mem_of_mem_take h)

theorem self_mem_kept_succ (hm : 0 < m) : σ k ∈ kept m σ (k + 1) := by
  rw [← touch_kept_succ hm]
  exact List.mem_cons_self

/-- What a memory keeps, a larger one keeps. -/
theorem kept_subset (h : m ≤ m') : kept m σ k ⊆ kept m' σ k := List.take_subset_take_left _ h

/-! ## Misses -/

theorem misses_succ_of_mem (h : σ k ∈ kept m σ k) : misses m σ (k + 1) = misses m σ k := by
  rw [misses, if_pos h, Nat.add_zero]

theorem misses_succ_of_notMem (h : σ k ∉ kept m σ k) : misses m σ (k + 1) = misses m σ k + 1 := by
  rw [misses, if_neg h]

/-- A larger memory does not miss more often. -/
theorem misses_anti (h : m ≤ m') (σ : ℕ → α) (k : ℕ) : misses m' σ k ≤ misses m σ k := by
  induction k with
  | zero => exact le_rfl
  | succ k ih =>
    by_cases hk : σ k ∈ kept m σ k
    · rw [misses_succ_of_mem hk, misses_succ_of_mem (kept_subset h hk)]
      exact ih
    · rw [misses_succ_of_notMem hk, misses]
      split <;> omega

end LruStack
