import Pfsim.Replace.Clock
import Pfsim.Replace.PageQueue
import Pfsim.Replace.Random

/-!
# The builds

The program is linked with one of four replacement modules, all of them lawful.
-/

namespace Pfsim

/-- The replacement policies, the random one with the results of `rand()`. -/
inductive Policy
  | lru
  | fifo
  | clock
  | random (rand : ℕ → ℕ)

/-- The replacement module of a policy. -/
def Policy.replace : Policy → ReplaceModule
  | lru => Pfsim.lru
  | fifo => Pfsim.fifo
  | clock => Pfsim.clock
  | random rand => Pfsim.random rand

instance (π : Policy) : π.replace.Lawful :=
  match π with
  | .lru => inferInstanceAs Pfsim.lru.Lawful
  | .fifo => inferInstanceAs Pfsim.fifo.Lawful
  | .clock => inferInstanceAs Pfsim.clock.Lawful
  | .random rand => inferInstanceAs (Pfsim.random rand).Lawful

namespace Policy

variable {π : Policy}

/-- LRU and FIFO check the overhead of a new page, which is not written yet; the others do not. -/
theorem assertOverhead_ndebug {overhead : ℕ}
    (ho : π = .lru ∨ π = .fifo → overhead = 0) :
    π.replace.assertOverhead false overhead = π.replace.assertOverhead true overhead := by
  cases π with
  | lru => rw [ho (.inl rfl)]; rfl
  | fifo => rw [ho (.inr rfl)]; rfl
  | clock => rfl
  | random rand => rfl

/-- Of an overhead it only matters whether it is `NULL`. -/
theorem assertOverhead_congr {ndebug : Bool} {o o' : ℕ} (h : ndebug = true ∨ (o' = 0 ↔ o = 0)) :
    π.replace.assertOverhead ndebug o' = π.replace.assertOverhead ndebug o := by
  cases π with
  | lru | fifo => exact PageQueue.assertOverhead_congr h
  | clock | random rand => rfl

end Policy

end Pfsim
