import Mathlib.Tactic

/-!
# Interval trees

The binary search trees of the intervals of lines of a process, each with the
file offset it starts at. The intervals of a trace are inserted in increasing
order, so that the trees are chains of right links (`IntervalNode.Chain`): this
is what makes following `right` the way to the next interval.
-/

namespace Pfsim

/-- A pointer to a node of an interval tree, with all that is behind it. -/
inductive IntervalNode
  | null
  | node (low high max fposStart : ℕ) (left right : IntervalNode)
  deriving DecidableEq

/-- An interval of lines, and the offset it starts at. -/
structure Interval where
  low : ℕ
  high : ℕ
  fposStart : ℕ
  deriving DecidableEq

/-- The lines of an interval, in order. -/
def Interval.lines (i : Interval) : List ℕ := List.range' i.low (i.high + 1 - i.low)

namespace IntervalNode

/-- `n->low`. -/
def low : IntervalNode → ℕ
  | null => 0
  | node low _ _ _ _ _ => low

/-- `n->high`. -/
def high : IntervalNode → ℕ
  | null => 0
  | node _ high _ _ _ _ => high

/-- `it_getFpos`. -/
def getFpos : IntervalNode → ℕ
  | null => 0
  | node _ _ _ fposStart _ _ => fposStart

/-- `n->right`. -/
def right : IntervalNode → IntervalNode
  | null => null
  | node _ _ _ _ _ right => right

/-- `it_initnode`. The offset is written by `it_setFpos` only. -/
def initnode (low high : ℕ) : IntervalNode := node low high high 0 null null

/-- `it_setFpos`. -/
def setFpos : IntervalNode → ℕ → IntervalNode
  | null, _ => null
  | node low high max _ left right, p => node low high max p left right

/-- `it_insert_recursive`. -/
def insertRecursive : (root newNode : IntervalNode) → IntervalNode
  | null, newNode => newNode
  | node low high max fposStart left right, newNode =>
    let max := if newNode.high > max then newNode.high else max
    if newNode.low < low then node low high max fposStart (left.insertRecursive newNode) right
    else node low high max fposStart left (right.insertRecursive newNode)

/-- `it_insert`. -/
def insert (root newNode : IntervalNode) : IntervalNode := root.insertRecursive newNode

/-- The intervals met by following the right links. -/
def intervals : IntervalNode → List Interval
  | null => []
  | node low high _ fposStart _ right => ⟨low, high, fposStart⟩ :: right.intervals

/-- The lines met by following the right links. -/
def lines (t : IntervalNode) : List ℕ := t.intervals.flatMap Interval.lines

/-- All left links are null. -/
def RightOnly : IntervalNode → Prop
  | null => True
  | node _ _ _ _ left right => left = null ∧ right.RightOnly

/-- Right links only, through increasing intervals. -/
structure Chain (t : IntervalNode) : Prop where
  rightOnly : t.RightOnly
  le : ∀ i ∈ t.intervals, i.low ≤ i.high
  increasing : t.intervals.Pairwise fun i j => i.high < j.low

/-- The node made for the interval `i`. -/
def ofInterval (i : Interval) : IntervalNode := (initnode i.low i.high).setFpos i.fposStart

variable {t : IntervalNode} {i : Interval}

@[simp] theorem intervals_ofInterval : (ofInterval i).intervals = [i] := rfl

@[simp] theorem intervals_eq_nil_iff : t.intervals = [] ↔ t = null := by
  cases t <;> simp [intervals]

/-- A node, and what is behind its right link. -/
theorem intervals_eq (h : t ≠ null) :
    t.intervals = ⟨t.low, t.high, t.getFpos⟩ :: t.right.intervals := by
  cases t with
  | null => exact absurd rfl h
  | node => rfl

theorem lines_eq (h : t ≠ null) :
    t.lines = List.range' t.low (t.high + 1 - t.low) ++ t.right.lines := by
  rw [lines, intervals_eq h, List.flatMap_cons]
  rfl

theorem mem_lines {k : ℕ} : k ∈ t.lines ↔ ∃ i ∈ t.intervals, i.low ≤ k ∧ k ≤ i.high := by
  rw [lines, List.mem_flatMap]
  refine exists_congr fun i => and_congr_right fun _ => ?_
  rw [Interval.lines, List.mem_range'_1]
  omega

/-- The lines of a chain are in order. -/
theorem Chain.lines_increasing (ht : t.Chain) : t.lines.Pairwise (· < ·) := by
  rw [lines, List.pairwise_flatMap]
  refine ⟨fun i _ => List.pairwise_lt_range', ht.increasing.imp fun {i j} hij k hk l hl => ?_⟩
  rw [Interval.lines, List.mem_range'_1] at hk hl
  omega

theorem Chain.low_le_high (ht : t.Chain) (h : t ≠ null) : t.low ≤ t.high :=
  ht.le ⟨t.low, t.high, t.getFpos⟩ (by simp [intervals_eq h])

theorem chain_ofInterval (h : i.low ≤ i.high) : (ofInterval i).Chain :=
  ⟨⟨rfl, trivial⟩, by simpa using h, by simp⟩

theorem rightOnly_insert (ht : t.RightOnly) (hi : ∀ j ∈ t.intervals, j.low ≤ i.low) :
    (t.insert (ofInterval i)).RightOnly ∧
      (t.insert (ofInterval i)).intervals = t.intervals ++ [i] := by
  induction t with
  | null => exact ⟨⟨rfl, trivial⟩, rfl⟩
  | node low high max fposStart left right _ ih =>
    have hlow : ¬(ofInterval i).low < low :=
      not_lt.2 (hi ⟨low, high, fposStart⟩ (by simp [intervals]))
    obtain ⟨hr, hs⟩ := ih ht.2 fun j hj => hi j (by simp [intervals, hj])
    simp only [insert] at hr hs
    rw [insert, insertRecursive]
    simp only [if_neg hlow, RightOnly, intervals, hs, List.cons_append]
    exact ⟨⟨ht.1, hr⟩, trivial⟩

/-- Inserting an interval past all others makes the chain longer. -/
theorem Chain.insert (ht : t.Chain) (hle : i.low ≤ i.high)
    (hi : ∀ j ∈ t.intervals, j.high < i.low) :
    (t.insert (ofInterval i)).Chain ∧
      (t.insert (ofInterval i)).intervals = t.intervals ++ [i] := by
  obtain ⟨hr, hs⟩ := rightOnly_insert ht.rightOnly (i := i) fun j hj =>
    (ht.le j hj).trans (hi j hj).le
  refine ⟨⟨hr, ?_, ?_⟩, hs⟩
  · rw [hs]
    simpa [or_imp, forall_and] using ⟨ht.le, hle⟩
  · rw [hs, List.pairwise_append]
    exact ⟨ht.increasing, by simp, by simpa using hi⟩

/-- The rest of a chain is a chain. -/
theorem Chain.right (ht : t.Chain) : t.right.Chain := by
  cases t with
  | null => exact ht
  | node low high max fposStart left right =>
    exact ⟨ht.rightOnly.2, fun i hi => ht.le i (List.mem_cons_of_mem _ hi),
      (List.pairwise_cons.1 ht.increasing).2⟩

end IntervalNode

end Pfsim
