import Pfsim.LruStack
import Pfsim.SecondChance

/-!
# Replacement algorithms

A replacement algorithm, as it is in a textbook (`Algorithm`): a page which is referenced is
loaded first if it is not in memory, which is a fault, and is then hit.

There are four of them, with `m` frames: `lru` and `fifo` keep the pages in the order of their
last hits, or loads, and evict the last one; `clockAtHead` keeps them in the order of the
frames, with reference bits, from the hand on, and `random` in the order of the frames.
-/

namespace Paging

universe u

/-- A replacement algorithm. -/
structure Algorithm (α : Type u) where
  State : Type u
  init : State
  /-- The pages in memory. -/
  mem : State → List α
  hit : α → State → State
  /-- What is done for a page which is not in memory, before it is hit. -/
  load : α → State → State

variable {α : Type u} [DecidableEq α]

namespace Algorithm

variable (A : Algorithm α) (σ : ℕ → α)

/-- The state after the first `k` references. -/
def state : ℕ → A.State
  | 0 => A.init
  | k + 1 => A.hit (σ k) (if σ k ∈ A.mem (state k) then state k else A.load (σ k) (state k))

/-- The number of faults of the first `k` references. -/
def faults : ℕ → ℕ
  | 0 => 0
  | k + 1 => faults k + if σ k ∈ A.mem (A.state σ k) then 0 else 1

variable {A σ} {k : ℕ}

/-- A page in memory is only hit. -/
theorem state_succ_of_mem (h : σ k ∈ A.mem (A.state σ k)) :
    A.state σ (k + 1) = A.hit (σ k) (A.state σ k) := by
  rw [state, if_pos h]

/-- Another one is loaded before. -/
theorem state_succ_of_notMem (h : σ k ∉ A.mem (A.state σ k)) :
    A.state σ (k + 1) = A.hit (σ k) (A.load (σ k) (A.state σ k)) := by
  rw [state, if_neg h]

/-- A reference to a page in memory is no fault. -/
theorem faults_succ_of_mem (h : σ k ∈ A.mem (A.state σ k)) :
    A.faults σ (k + 1) = A.faults σ k := by
  rw [faults, if_pos h, Nat.add_zero]

theorem faults_succ_of_notMem (h : σ k ∉ A.mem (A.state σ k)) :
    A.faults σ (k + 1) = A.faults σ k + 1 := by
  rw [faults, if_neg h]

end Algorithm

variable (m : ℕ)

/-- The least recently used page is evicted. -/
def lru : Algorithm α where
  State := List α
  init := []
  mem l := l
  hit := LruStack.touch
  load v l := v :: l.take (m - 1)

/-- The page loaded first is evicted. -/
def fifo : Algorithm α where
  State := List α
  init := []
  mem l := l
  hit _ l := l
  load v l := v :: l.take (m - 1)

/-- The hand goes over the pages whose bit is set, clearing it, and evicts the first page
    whose bit is clear. It stays there, so that the page loaded in its place is at the head of
    the queue, the first one which the hand goes over next: this is not second chance, where
    it is at the tail. -/
def clockAtHead : Algorithm α where
  State := SecondChance.Queue α
  init := []
  mem q := q.map Prod.fst
  hit := SecondChance.touch
  load v q :=
    if q.length < m then q ++ [(v, true)]
    else ((SecondChance.evict q).map fun x => (v, true) :: x.2).getD q

/-- The page of a frame drawn at random is evicted, `rand n` being the `n`-th draw. -/
def random (rand : ℕ → ℕ) : Algorithm α where
  State := List α × ℕ
  init := ([], 0)
  mem x := x.1
  hit _ x := x
  load v x :=
    if x.1.length < m then (x.1 ++ [v], x.2)
    else (x.1.set (rand x.2 % m) v, x.2 + 1)

end Paging
