import Pfsim.IntervalTree

/-!
# Searching an interval tree

Intervals inserted in any order, overlapping or not, make a search tree on
their lows, with the greatest high of every subtree at its root
(`SearchTree`). A search follows a single path: it goes left as soon as some
interval there ends late enough. This misses nothing: if an interval of the
right subtree holds the value, then so does the one on the left that ends late
enough, since it starts before all those on the right
(`SearchTree.exists_reaching_iff`).

* `ofIntervals_search`: what `it_find_bool` and `it_find` return;
* `giveNext_isNext_iff`: `it_giveNext` never leaves the interval of its
  argument, so that it misses the start of the next one.
-/

open scoped List

namespace Pfsim

namespace IntervalNode

/-- `n->max`. -/
def max : IntervalNode → ℕ
  | null => 0
  | node _ _ max _ _ _ => max

/-- `n->left`. -/
def left : IntervalNode → IntervalNode
  | null => null
  | node _ _ _ _ left _ => left

/-- `it_contains`. -/
def contains (low high x : ℕ) : Bool := low ≤ x && x ≤ high

/-- `it_find_bool`. -/
def findBool : (root : IntervalNode) → (x : ℕ) → Bool
  | null, _ => false
  | node low high max _ left right, x =>
    if x > max then false
    else if contains low high x then true
    else if left ≠ null ∧ left.max ≥ x then left.findBool x
    else right.findBool x

/-- `it_find`. -/
def find : (root : IntervalNode) → (x : ℕ) → IntervalNode
  | null, _ => null
  | node low high max fposStart left right, x =>
    if x > max then null
    else if contains low high x then node low high max fposStart left right
    else if left ≠ null ∧ left.max ≥ x then left.find x
    else right.find x

/-- `it_giveNext`. -/
def giveNext : (root : IntervalNode) → (current : ℕ) → ℕ
  | null, _ => 0
  | node low high max _ left right, current =>
    if current ≥ max then 0
    else if low ≤ current ∧ current < high then current + 1
    else if left ≠ null ∧ left.max > current then left.giveNext current
    else right.giveNext current

/-- The tree of a first interval and of those inserted after it, in turn. -/
def ofIntervals (i : Interval) (l : List Interval) : IntervalNode :=
  l.foldl (fun root j => root.insert (ofInterval j)) (ofInterval i)

/-- The nodes of a tree, those on the left first. -/
def nodes : IntervalNode → List IntervalNode
  | null => []
  | node low high max fposStart left right =>
    left.nodes ++ node low high max fposStart left right :: right.nodes

/-- The interval of a node. -/
def interval (n : IntervalNode) : Interval := ⟨n.low, n.high, n.getFpos⟩

/-- The intervals of a tree, those on the left first. -/
def inorder (t : IntervalNode) : List Interval := t.nodes.map interval

/-- Lows are in order, and every node knows the greatest high of its subtree. -/
structure SearchTree (t : IntervalNode) : Prop where
  left_lt : ∀ n ∈ t.nodes, ∀ i ∈ n.left.inorder, i.low < n.low
  le_right : ∀ n ∈ t.nodes, ∀ i ∈ n.right.inorder, n.low ≤ i.low
  isGreatest_max : ∀ n ∈ t.nodes, IsGreatest {h | ∃ i ∈ n.inorder, i.high = h} n.max

variable {t : IntervalNode} {i : Interval} {l : List Interval}
  {low high max fposStart x c : ℕ} {left right : IntervalNode}

@[simp] theorem nodes_null : null.nodes = [] := rfl

@[simp] theorem inorder_null : null.inorder = [] := rfl

@[simp] theorem inorder_node : (node low high max fposStart left right).inorder =
    left.inorder ++ ⟨low, high, fposStart⟩ :: right.inorder := by
  simp [inorder, nodes, interval, IntervalNode.low, IntervalNode.high, getFpos]

@[simp] theorem contains_iff : contains low high x = true ↔ low ≤ x ∧ x ≤ high := by
  simp [contains]

/-- The conditions on a tree are those on its root, and on its subtrees. -/
theorem searchTree_node_iff : (node low high max fposStart left right).SearchTree ↔
    (left.SearchTree ∧ right.SearchTree) ∧ (∀ i ∈ left.inorder, i.low < low) ∧
      (∀ i ∈ right.inorder, low ≤ i.low) ∧
      IsGreatest {h | ∃ i ∈ (node low high max fposStart left right).inorder, i.high = h} max := by
  constructor
  · intro h
    have hroot : node low high max fposStart left right ∈
        (node low high max fposStart left right).nodes := by simp [nodes]
    have hleft : ∀ n ∈ left.nodes, n ∈ (node low high max fposStart left right).nodes := by
      simp +contextual [nodes]
    have hright : ∀ n ∈ right.nodes, n ∈ (node low high max fposStart left right).nodes := by
      simp +contextual [nodes]
    exact ⟨⟨⟨fun n hn => h.left_lt n (hleft n hn), fun n hn => h.le_right n (hleft n hn),
        fun n hn => h.isGreatest_max n (hleft n hn)⟩,
      ⟨fun n hn => h.left_lt n (hright n hn), fun n hn => h.le_right n (hright n hn),
        fun n hn => h.isGreatest_max n (hright n hn)⟩⟩,
      h.left_lt _ hroot, h.le_right _ hroot, h.isGreatest_max _ hroot⟩
  · rintro ⟨⟨hl, hr⟩, hlt, hle, hmax⟩
    -- A node is in the left subtree, the root, or in the right subtree.
    constructor
    all_goals
      intro n hn
      simp only [nodes, List.mem_append, List.mem_cons] at hn
      obtain hn | rfl | hn := hn
    · exact hl.left_lt n hn
    · exact hlt
    · exact hr.left_lt n hn
    · exact hl.le_right n hn
    · exact hle
    · exact hr.le_right n hn
    · exact hl.isGreatest_max n hn
    · exact hmax
    · exact hr.isGreatest_max n hn

/-! ### Insertion -/

/-- The new interval is added to those of the tree. -/
theorem inorder_insertRecursive :
    (t.insertRecursive (ofInterval i)).inorder.Perm (i :: t.inorder) := by
  induction t with
  | null => exact List.Perm.refl _
  | node low high max fposStart left right ihl ihr =>
    by_cases hlow : (ofInterval i).low < low
    · rw [insertRecursive, if_pos hlow, inorder_node, inorder_node]
      exact ihl.append_right _
    · rw [insertRecursive, if_neg hlow, inorder_node, inorder_node]
      calc left.inorder ++ ⟨low, high, fposStart⟩ :: (right.insertRecursive (ofInterval i)).inorder
        _ ~ left.inorder ++ ⟨low, high, fposStart⟩ :: i :: right.inorder :=
          (ihr.cons _).append_left _
        _ ~ left.inorder ++ i :: ⟨low, high, fposStart⟩ :: right.inorder :=
          (List.Perm.swap _ _ _).append_left _
        _ ~ i :: (left.inorder ++ ⟨low, high, fposStart⟩ :: right.inorder) := List.perm_middle

/-- The maximum is kept up to date. -/
theorem isGreatest_insert {m : ℕ} {s s' : List Interval} (hs : s'.Perm (i :: s))
    (h : IsGreatest {h | ∃ j ∈ s, j.high = h} m) :
    IsGreatest {h | ∃ j ∈ s', j.high = h} (if i.high > m then i.high else m) := by
  obtain ⟨⟨j, hj, rfl⟩, hle⟩ := h
  constructor
  · split_ifs
    · exact ⟨i, hs.mem_iff.2 List.mem_cons_self, rfl⟩
    · exact ⟨j, hs.mem_iff.2 (List.mem_cons_of_mem _ hj), rfl⟩
  · rintro _ ⟨k, hk, rfl⟩
    rcases List.mem_cons.1 (hs.mem_iff.1 hk) with rfl | hk
    · split_ifs <;> omega
    · have : k.high ≤ j.high := hle ⟨k, hk, rfl⟩
      split_ifs <;> omega

/-- A fresh node is a search tree. -/
theorem searchTree_ofInterval : (ofInterval i).SearchTree := by
  have hnull : null.SearchTree := ⟨by simp, by simp, by simp⟩
  refine searchTree_node_iff.2 ⟨⟨hnull, hnull⟩, by simp, by simp, ⟨i, by simp, rfl⟩, ?_⟩
  rintro _ ⟨j, hj, rfl⟩
  have : j = i := by simpa using hj
  exact this ▸ le_rfl

/-- Inserting keeps the order and the maxima. -/
theorem SearchTree.insert (h : t.SearchTree) : (t.insert (ofInterval i)).SearchTree := by
  rw [IntervalNode.insert]
  induction t with
  | null => exact searchTree_ofInterval
  | node low high max fposStart left right ihl ihr =>
    have hperm : (insertRecursive _ _).inorder.Perm _ :=
      inorder_insertRecursive (t := node low high max fposStart left right) (i := i)
    obtain ⟨⟨hl, hr⟩, hlt, hle, hmax⟩ := searchTree_node_iff.1 h
    rw [insertRecursive] at hperm ⊢
    by_cases hlow : (ofInterval i).low < low
    · rw [if_pos hlow] at hperm ⊢
      refine searchTree_node_iff.2 ⟨⟨ihl hl, hr⟩, fun j hj => ?_, hle, isGreatest_insert hperm hmax⟩
      rcases List.mem_cons.1 (inorder_insertRecursive.mem_iff.1 hj) with rfl | hj
      · exact hlow
      · exact hlt j hj
    · rw [if_neg hlow] at hperm ⊢
      refine searchTree_node_iff.2 ⟨⟨hl, ihr hr⟩, hlt, fun j hj => ?_, isGreatest_insert hperm hmax⟩
      rcases List.mem_cons.1 (inorder_insertRecursive.mem_iff.1 hj) with rfl | hj
      · exact not_lt.1 hlow
      · exact hle j hj

/-- The tree of a sequence of intervals is a search tree. -/
theorem searchTree_ofIntervals : (ofIntervals i l).SearchTree := by
  refine List.foldlRecOn l _ searchTree_ofInterval fun t h j _ => h.insert

/-- The tree of a sequence of intervals has each of them, as often as the sequence. -/
theorem inorder_ofIntervals : (ofIntervals i l).inorder.Perm (i :: l) := by
  induction l using List.reverseRecOn with
  | nil => exact List.Perm.refl _
  | append_singleton l j ih =>
    rw [ofIntervals, List.foldl_append]
    calc ((ofIntervals i l).insert (ofInterval j)).inorder
      _ ~ j :: (ofIntervals i l).inorder := inorder_insertRecursive
      _ ~ j :: i :: l := ih.cons j
      _ ~ i :: (l ++ [j]) := (List.perm_append_singleton j (i :: l)).symm

/-! ### Search -/

section reaching

variable {R : ℕ → Prop}

/-- The root knows whether some interval of the tree ends late enough. -/
theorem SearchTree.reaches_max_iff (h : t.SearchTree) (ht : t ≠ null) (hR : Monotone R) :
    R t.max ↔ ∃ i ∈ t.inorder, R i.high := by
  cases t with
  | null => exact absurd rfl ht
  | node low high max fposStart left right =>
    obtain ⟨⟨i, hi, hmax⟩, hle⟩ := (searchTree_node_iff.1 h).2.2.2
    refine ⟨fun hm => ⟨i, hi, ?_⟩, fun ⟨j, hj, hrj⟩ => hR (hle ⟨j, hj, rfl⟩) hrj⟩
    rwa [hmax]

/-- What a search relies on, where `R` holds of the highs that are late
    enough: an interval that starts at `x` or before and ends late enough is at
    the root or in the subtree that the search goes to. -/
theorem SearchTree.exists_reaching_iff [DecidablePred R]
    (h : (node low high max fposStart left right).SearchTree) (hR : Monotone R) :
    (∃ i ∈ (node low high max fposStart left right).inorder, i.low ≤ x ∧ R i.high) ↔
      R max ∧ ((low ≤ x ∧ R high) ∨
        if left ≠ null ∧ R left.max then ∃ i ∈ left.inorder, i.low ≤ x ∧ R i.high
        else ∃ i ∈ right.inorder, i.low ≤ x ∧ R i.high) := by
  obtain ⟨⟨hl, -⟩, hlt, hle, -⟩ := searchTree_node_iff.1 h
  have hroot : (∃ i ∈ (node low high max fposStart left right).inorder, R i.high) ↔ R max :=
    (h.reaches_max_iff IntervalNode.noConfusion hR).symm
  have hsplit : (∃ i ∈ (node low high max fposStart left right).inorder, i.low ≤ x ∧ R i.high) ↔
      (low ≤ x ∧ R high) ∨ (∃ i ∈ left.inorder, i.low ≤ x ∧ R i.high) ∨
        ∃ i ∈ right.inorder, i.low ≤ x ∧ R i.high := by
    simp only [inorder_node, List.mem_append, List.mem_cons, or_and_right, exists_or,
      exists_eq_left]
    exact or_left_comm
  have hmax : (∃ i ∈ (node low high max fposStart left right).inorder, i.low ≤ x ∧ R i.high) →
      R max := fun ⟨i, hi, _, hri⟩ => hroot.1 ⟨i, hi, hri⟩
  have hgo : ((∃ i ∈ left.inorder, i.low ≤ x ∧ R i.high) ∨
      ∃ i ∈ right.inorder, i.low ≤ x ∧ R i.high) ↔
        if left ≠ null ∧ R left.max then ∃ i ∈ left.inorder, i.low ≤ x ∧ R i.high
        else ∃ i ∈ right.inorder, i.low ≤ x ∧ R i.high := by
    split_ifs with hgo
    · refine or_iff_left_of_imp ?_
      -- an interval on the left ends late enough, and starts before all those on the right
      rintro ⟨j, hj, hjx, -⟩
      obtain ⟨i, hi, hri⟩ := (hl.reaches_max_iff hgo.1 hR).1 hgo.2
      exact ⟨i, hi, ((hlt i hi).trans_le ((hle j hj).trans hjx)).le, hri⟩
    · refine or_iff_right ?_
      rintro ⟨i, hi, -, hri⟩
      have hne : left ≠ null := by
        rintro rfl
        exact List.not_mem_nil hi
      exact hgo ⟨hne, (hl.reaches_max_iff hne hR).2 ⟨i, hi, hri⟩⟩
  rw [← hgo, ← hsplit]
  exact ⟨fun h => ⟨hmax h, h⟩, And.right⟩

end reaching

theorem monotone_le : Monotone fun h => x ≤ h := fun _ _ hab hx => hx.trans hab

theorem monotone_lt : Monotone fun h => c < h := fun _ _ hab hc => hc.trans_le hab

/-- `it_find_bool` is right about every value. -/
theorem SearchTree.findBool_iff (h : t.SearchTree) :
    t.findBool x = true ↔ ∃ i ∈ t.inorder, i.low ≤ x ∧ x ≤ i.high := by
  induction t with
  | null => simp [findBool]
  | node low high max fposStart left right ihl ihr =>
    obtain ⟨⟨hl, hr⟩, -⟩ := searchTree_node_iff.1 h
    rw [h.exists_reaching_iff monotone_le, findBool, ← contains_iff, ← ihl hl, ← ihr hr]
    by_cases hmax : x > max
    · simp [hmax, hmax.not_ge]
    by_cases hc : contains low high x = true
    · simp [hc, hmax, not_lt.1 hmax]
    by_cases hgo : left ≠ null ∧ left.max ≥ x
    · rw [if_neg hmax, if_neg hc, if_pos hgo, if_pos hgo]
      simp [hc, not_lt.1 hmax]
    · rw [if_neg hmax, if_neg hc, if_neg hgo, if_neg hgo]
      simp [hc, not_lt.1 hmax]

/-- `it_find` finds something when `it_find_bool` says so. -/
theorem findBool_iff_find : t.findBool x = true ↔ t.find x ≠ null := by
  fun_induction findBool t x with
  | case1 => simp [find]
  | case2 x low high max fposStart left right hmax => simp [find, hmax]
  | case3 x low high max fposStart left right hmax hc => simp [find, hmax, hc]
  | case4 x low high max fposStart left right hmax hc hgo ih =>
    rw [ih, find, if_neg hmax, if_neg hc, if_pos hgo]
  | case5 x low high max fposStart left right hmax hc hgo ih =>
    rw [ih, find, if_neg hmax, if_neg hc, if_neg hgo]

/-- What `it_find` finds is a node of the tree, whose interval holds the value. -/
theorem find_mem (h : t.find x ≠ null) :
    t.find x ∈ t.nodes ∧ (t.find x).low ≤ x ∧ x ≤ (t.find x).high := by
  fun_induction find t x with
  | case1 => exact absurd rfl h
  | case2 => exact absurd rfl h
  | case3 x low high max fposStart left right hmax hc =>
    exact ⟨by simp [nodes], contains_iff.1 hc⟩
  | case4 x low high max fposStart left right hmax hc hgo ih =>
    exact ⟨List.mem_append_left _ (ih h).1, (ih h).2⟩
  | case5 x low high max fposStart left right hmax hc hgo ih =>
    exact ⟨List.mem_append_right _ (List.mem_cons_of_mem _ (ih h).1), (ih h).2⟩

/-- Intervals inserted in any order: the tree is a search tree, it has each of
    them once, and searching it for a value finds one that holds the value, if
    there is one. -/
theorem ofIntervals_search (i : Interval) (l : List Interval) :
    (ofIntervals i l).SearchTree ∧ (ofIntervals i l).inorder.Perm (i :: l) ∧ ∀ x,
      ((ofIntervals i l).findBool x = true ↔ ∃ j ∈ i :: l, j.low ≤ x ∧ x ≤ j.high) ∧
      ((∃ j ∈ i :: l, j.low ≤ x ∧ x ≤ j.high) → (ofIntervals i l).find x ∈ (ofIntervals i l).nodes ∧
        ((ofIntervals i l).find x).low ≤ x ∧ x ≤ ((ofIntervals i l).find x).high) ∧
      ((¬∃ j ∈ i :: l, j.low ≤ x ∧ x ≤ j.high) → (ofIntervals i l).find x = null) := by
  refine ⟨searchTree_ofIntervals, inorder_ofIntervals, fun x => ?_⟩
  have hbool : (ofIntervals i l).findBool x = true ↔ ∃ j ∈ i :: l, j.low ≤ x ∧ x ≤ j.high := by
    rw [searchTree_ofIntervals.findBool_iff]
    exact exists_congr fun j => and_congr_left fun _ => inorder_ofIntervals.mem_iff
  refine ⟨hbool, fun h => find_mem (findBool_iff_find.1 (hbool.2 h)), fun h => ?_⟩
  by_contra hfind
  exact h (hbool.1 (findBool_iff_find.2 hfind))

/-! ### The next value -/

/-- `it_giveNext` moves by one, inside an interval. -/
theorem SearchTree.giveNext_eq (h : t.SearchTree) :
    t.giveNext c = if ∃ i ∈ t.inorder, i.low ≤ c ∧ c < i.high then c + 1 else 0 := by
  induction t with
  | null => simp [giveNext]
  | node low high max fposStart left right ihl ihr =>
    obtain ⟨⟨hl, hr⟩, -⟩ := searchTree_node_iff.1 h
    simp only [h.exists_reaching_iff monotone_lt]
    rw [giveNext, ihl hl, ihr hr]
    by_cases hmax : c ≥ max
    · simp [hmax, hmax.not_gt]
    by_cases hc : low ≤ c ∧ c < high
    · simp [hc, hmax, not_le.1 hmax]
    by_cases hgo : left ≠ null ∧ left.max > c
    · rw [if_neg hmax, if_neg hc, if_pos hgo]
      simp [hc, not_le.1 hmax, hgo]
    · rw [if_neg hmax, if_neg hc, if_neg hgo]
      simp only [hc, not_le.1 hmax, hgo, if_false, true_and, false_or]

/-- `r` is the least value after `c` in one of the intervals, or 0 when there is
    none. -/
def IsNext (l : List Interval) (c r : ℕ) : Prop :=
  IsLeast {y | c < y ∧ ∃ i ∈ l, i.low ≤ y ∧ y ≤ i.high} r ∨
    (∀ i ∈ l, ∀ y, i.low ≤ y → y ≤ i.high → y ≤ c) ∧ r = 0

/-- `it_giveNext` returns the next value exactly if there is none, or if some
    interval holds both its argument and the value after it. -/
theorem giveNext_isNext_iff (i : Interval) (l : List Interval) (c : ℕ)
    (h : ∀ j ∈ i :: l, 1 ≤ j.low ∧ j.low ≤ j.high) :
    IsNext (i :: l) c ((ofIntervals i l).giveNext c) ↔
      (∀ j ∈ i :: l, j.high ≤ c) ∨ ∃ j ∈ i :: l, j.low ≤ c ∧ c + 1 ≤ j.high := by
  have hex : (∃ j ∈ (ofIntervals i l).inorder, j.low ≤ c ∧ c < j.high) ↔
      ∃ j ∈ i :: l, j.low ≤ c ∧ c + 1 ≤ j.high :=
    exists_congr fun j => and_congr_left fun _ => inorder_ofIntervals.mem_iff
  simp only [searchTree_ofIntervals.giveNext_eq, hex]
  split_ifs with hc
  · refine iff_of_true (.inl ⟨?_, fun y hy => hy.1⟩) (.inr hc)
    obtain ⟨j, hj, hlow, hhigh⟩ := hc
    exact ⟨c.lt_succ_self, j, hj, hlow.trans c.le_succ, hhigh⟩
  · rw [or_iff_left hc]
    constructor
    · rintro (⟨⟨h0, -⟩, -⟩ | ⟨hle, -⟩)
      · exact absurd h0 c.not_lt_zero
      · exact fun j hj => hle j hj j.high (h j hj).2 le_rfl
    · exact fun hle => .inr ⟨fun j hj y _ hy => hy.trans (hle j hj), rfl⟩

/-- From 24, inside 20 to 30, which is on the right of the root, and 1 to 2 on its left. -/
theorem giveNext_isNext_inside :
    (ofIntervals ⟨5, 10, 0⟩ [⟨20, 30, 0⟩, ⟨1, 2, 0⟩]).left = .ofInterval ⟨1, 2, 0⟩ ∧
      (ofIntervals ⟨5, 10, 0⟩ [⟨20, 30, 0⟩, ⟨1, 2, 0⟩]).right = .ofInterval ⟨20, 30, 0⟩ ∧
      IsNext [⟨5, 10, 0⟩, ⟨20, 30, 0⟩, ⟨1, 2, 0⟩] 24
        ((ofIntervals ⟨5, 10, 0⟩ [⟨20, 30, 0⟩, ⟨1, 2, 0⟩]).giveNext 24) :=
  ⟨rfl, rfl, (giveNext_isNext_iff ⟨5, 10, 0⟩ _ 24 (by decide)).2 (.inr (by decide))⟩

/-- From 3, the next value is the start of 5 to 10: `it_giveNext` returns 0. -/
theorem giveNext_before :
    ¬∀ (i : Interval) (l : List Interval) (c : ℕ),
      (∀ j ∈ i :: l, 1 ≤ j.low ∧ j.low ≤ j.high) →
        IsNext (i :: l) c ((ofIntervals i l).giveNext c) := by
  intro h
  rcases h ⟨5, 10, 0⟩ [] 3 (by decide) with ⟨⟨h0, -⟩, -⟩ | ⟨hle, -⟩
  · exact absurd h0 (by decide)
  · exact absurd (hle ⟨5, 10, 0⟩ (by decide) 5 (by decide) (by decide)) (by decide)

end IntervalNode

end Pfsim
