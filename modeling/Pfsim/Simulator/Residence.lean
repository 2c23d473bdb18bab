import Mathlib.Algebra.BigOperators.Group.Finset.Basic
import Pfsim.Simulator.ColdMisses
import Pfsim.Simulator.Usage

/-!
# Time in memory

TMU and TRP are added up tick by tick (`Stat_default`), from the frames in use and the
processes there are at the time.

* `tmu_residence`: so TMU is the time that the pages made have spent in memory, and TRP that
  during which a process was runnable.
-/

namespace Pfsim

namespace Memory

variable {m : Memory} {v n : ℕ}

/-- The page is in memory. -/
def isResident (m : Memory) (v : PageId) : Bool := m.live v && (m.vpages v).inMemory

theorem isResident_iff : m.isResident v = true ↔ m.Resident v := by
  rw [isResident, Bool.and_eq_true, Resident]

/-- The counter is the number of pages in memory. -/
theorem WellFormed.card_resident (h : m.WellFormed) (hn : m.nextPage ≤ n) :
    ((Finset.range n).filter fun v => m.isResident v = true).card = m.allocated := by
  rw [h.allocated_eq]
  refine Finset.card_nbij' (fun v => (m.vpages v).currentPPN) (fun i => (m.memory i).getD 0)
    (fun v hv => ?_) (fun i hi => ?_) (fun v hv => ?_) fun i hi => ?_
  · have hres := isResident_iff.1 (Finset.mem_filter.1 hv).2
    have hmem := h.memory_currentPPN hres
    exact mem_occupied.2 ⟨h.frame_lt_memSize hmem, by rw [hmem]; rfl⟩
  · obtain ⟨v, hv⟩ := Option.isSome_iff_exists.1 (mem_occupied.1 hi).2
    have hres := h.resident hv
    simp only [hv, Option.getD_some]
    exact Finset.mem_filter.2 ⟨Finset.mem_range.2 ((h.lt_nextPage hres.1).trans_le hn),
      isResident_iff.2 hres⟩
  · have hres := isResident_iff.1 (Finset.mem_filter.1 hv).2
    simp only [h.memory_currentPPN hres, Option.getD_some]
  · obtain ⟨v, hv⟩ := Option.isSome_iff_exists.1 (mem_occupied.1 hi).2
    simp only [hv, Option.getD_some]
    exact (h.memory_iff.1 hv).2

end Memory

/-! ## Runs -/

variable {R : ReplaceModule} {c : Setup} {s s₀ : Sim R}
  {ts : List (Machine.Transition (Sim R) Event)}

/-- The time the page `v` spends in memory in an iteration. -/
def Sim.residence (v : PageId) (t : Machine.Transition (Sim R) Event) : ℕ :=
  if t.src.pager.mem.isResident v then t.dst.time - t.src.time else 0

/-- The time in an iteration during which a process is runnable. -/
def Sim.runnable (t : Machine.Transition (Sim R) Event) : ℕ :=
  if t.src.ps.existsWithStatus .RUNNABLE then t.dst.time - t.src.time else 0

/-- TMU, with `n` pages or more. -/
theorem tmu_eq_sum [R.Lawful] (h₀ : c.start R = .ok s₀) (h : (c.machine R).Run s₀ ts s) :
    ∀ n, s.pager.mem.nextPage ≤ n →
      s.stat.tmu = ∑ v ∈ Finset.range n, Machine.total (Sim.residence v) ts := by
  refine Setup.run_invariant (J := fun ts s => ∀ n, s.pager.mem.nextPage ≤ n →
    s.stat.tmu = ∑ v ∈ Finset.range n, Machine.total (Sim.residence v) ts) h₀ h
    (fun n _ => ?_) fun ts s e s' hr hj hm n hn => ?_
  · obtain ⟨ps, -, rfl⟩ := Setup.start_eq h₀
    exact Finset.sum_const_zero.symm
  · have hs := hr.wellFormed
    have hle := (hm.nextPage_le hs).trans hn
    obtain ⟨d, -, htime, htmu, -⟩ := hm.usage
    have hd : s'.time - s.time = d := by rw [htime, Nat.add_sub_cancel_left]
    calc s'.stat.tmu
        = s.stat.tmu + s.pager.mem.allocated * d := htmu
      _ = s.stat.tmu + ∑ v ∈ Finset.range n, Sim.residence v ⟨s, e, s'⟩ := by
          rw [← hs.pager.mem.card_resident hle, ← smul_eq_mul, ← Finset.sum_const,
            Finset.sum_filter]
          simp only [Sim.residence, hd]
      _ = ∑ v ∈ Finset.range n, Machine.total (Sim.residence v) (ts ++ [⟨s, e, s'⟩]) := by
          rw [hj n hle, ← Finset.sum_add_distrib]
          refine Finset.sum_congr rfl fun v _ => ?_
          rw [Machine.total_append, Machine.total_singleton]

/-- TRP. -/
theorem trp_eq_total [R.Lawful] (h₀ : c.start R = .ok s₀) (h : (c.machine R).Run s₀ ts s) :
    s.stat.trp = Machine.total Sim.runnable ts := by
  refine Setup.run_invariant (J := fun ts s => s.stat.trp = Machine.total Sim.runnable ts) h₀ h
    ?_ fun ts s e s' hr hj hm => ?_
  · obtain ⟨ps, -, rfl⟩ := Setup.start_eq h₀
    rfl
  · obtain ⟨d, -, htime, -, htrp⟩ := hm.usage
    rw [Machine.total_append, Machine.total_singleton, htrp, hj, Sim.runnable, htime,
      Nat.add_sub_cancel_left]
    cases s.ps.existsWithStatus .RUNNABLE <;> simp

/-- In any run, whatever pages are evicted or freed and however idle time is skipped, TMU is the
    time the pages made have spent in memory, all of them together, and TRP that during which
    some process was runnable. The counters are taken without the wrap of 64 bits. -/
theorem tmu_residence (c : Setup) (π : Policy) {s₀ s : Sim π.replace}
    {ts : List (Machine.Transition (Sim π.replace) Event)} (h₀ : c.start π.replace = .ok s₀)
    (h : (c.machine π.replace).Run s₀ ts s) :
    s.stat.tmu = ∑ v ∈ Finset.range s.pager.mem.nextPage, Machine.total (Sim.residence v) ts ∧
      s.stat.trp = Machine.total Sim.runnable ts :=
  ⟨tmu_eq_sum h₀ h _ le_rfl, trp_eq_total h₀ h⟩

/-- The three pages of the sample. -/
theorem tmu_residence_sample : ∃ (s₀ s : Sim Policy.clock.replace) (ts : _),
    Setup.sample.start Policy.clock.replace = .ok s₀ ∧
      (Setup.sample.machine Policy.clock.replace).Returns s₀ ts s ∧ s.stat.tmu ≠ 0 ∧
      s.stat.tmu = ∑ v ∈ Finset.range 3, Machine.total (Sim.residence v) ts := by
  obtain ⟨s₀, ts, s, h₀, h, -, hP⟩ := Setup.exists_run_of_after (R := Policy.clock.replace)
    (c := .sample) (n := 10) (P := fun s => !s.notDone && s.stat.tmu != 0 &&
      s.pager.mem.nextPage == 3) (by decide +kernel)
  obtain ⟨⟨hdone, htmu⟩, hnext⟩ : (s.notDone = false ∧ s.stat.tmu ≠ 0) ∧
      s.pager.mem.nextPage = 3 := by simpa using hP
  exact ⟨s₀, s, ts, h₀, ⟨h, hdone⟩, htmu, hnext ▸ (tmu_residence .sample .clock h₀ h).1⟩

end Pfsim
