import Pfsim.Simulator.Schedule
import Pfsim.Simulator.Faults

/-!
# Usage

The ticks of an iteration are all accounted for with the frames in use and the processes
there are before it (`Sim.Move.usage`): with a process at least if a line is run, and with
the frame of its page if it is a hit. So the averages reported are between those of the
references and those of the memory and the processor (`Setup.Reachable.usage`).
-/

namespace Pfsim

variable {R : ReplaceModule} {c : Setup} {s s' : Sim R} {e : Event}

namespace Sim

/-- The ticks of an iteration. -/
theorem Move.usage (h : s.Move c e s') : ∃ d, 1 ≤ d ∧ s'.time = s.time + d ∧
    s'.stat.tmu = s.stat.tmu + s.pager.mem.allocated * d ∧
      s'.stat.trp = s.stat.trp + (s.ps.existsWithStatus .RUNNABLE).toNat * d := by
  by_cases he : e = .idle
  · subst he
    cases h with
    | @idle b bs hr hb hw =>
      have hstat : (s.tick.skipped b).stat =
          s.tick.stat.default ((s.tick.ps.procs b).waitTime - 1) s.tick.pager.mem.howManyAllocPages
            (s.tick.ps.existsWithStatus .RUNNABLE) := rfl
      have htime : (s.tick.skipped b).time = s.tick.time + ((s.tick.ps.procs b).waitTime - 1) :=
        rfl
      have hrun : s.tick.ps.existsWithStatus .RUNNABLE = s.ps.existsWithStatus .RUNNABLE := by
        rw [Processes.existsWithStatus, tick_pq]
        rfl
      refine ⟨1 + ((s.tick.ps.procs b).waitTime - 1), Nat.le_add_right _ _, ?_, ?_, ?_⟩
      · rw [htime, tick_time, Nat.add_assoc]
      · rw [hstat, tick_stat, tick_pager, Nat.mul_add, ← Nat.add_assoc]
        rfl
      · rw [hstat, tick_stat, hrun, Nat.mul_add, ← Nat.add_assoc]
        rfl
  · refine ⟨1, le_rfl, h.time he, ?_, ?_⟩ <;> rw [h.stat he, tick_stat] <;>
      cases e <;> first | exact absurd rfl he | rfl

/-- A process runs a line. -/
theorem Move.work_le (h : s.Move c e s') :
    e.hits + e.misses ≤ (s.ps.existsWithStatus .RUNNABLE).toNat := by
  have hone {q : ProcId} {queue : List ProcId} (hq : s.ps.pq .RUNNABLE = q :: queue) :
      s.ps.existsWithStatus .RUNNABLE = true := by
    rw [Processes.existsWithStatus, hq]
    rfl
  cases e with
  | completion | idle => exact Nat.zero_le _
  | hit r =>
    obtain ⟨queue, hq⟩ := h.runnable_of_hit
    exact hone hq ▸ le_rfl
  | miss r =>
    obtain ⟨queue, hq, -⟩ := h.runnable_of_miss
    exact hone hq ▸ le_rfl

/-- The page of a hit is in memory. -/
theorem Move.hits_le [R.Lawful] (h : s.Move c e s') (hs : s.WellFormed c) :
    e.hits ≤ s.pager.mem.allocated := by
  cases e with
  | completion | idle | miss => exact Nat.zero_le _
  | hit r =>
    obtain ⟨v, hv, -⟩ := hs.mem_residents.1 (h.hit_mem_residents hs)
    exact hs.pager.mem.allocated_pos (hs.pager.mem.memory_currentPPN hv)

end Sim

/-- The ticks accounted for: with a process, those of the references at least, and with each
    frame, all of them at most. -/
theorem Setup.Reachable.usage [R.Lawful] (h : c.Reachable R s) :
    (s.stat.tmr + s.stat.tpi ≤ s.stat.trp ∧ s.stat.trp ≤ s.time) ∧
      s.stat.tmr ≤ s.stat.tmu ∧ s.stat.tmu ≤ c.frames * s.time := by
  refine (h.invariant (I := fun s => (s.stat.tmr + s.stat.tpi ≤ s.stat.trp ∧ s.stat.trp ≤ s.time) ∧
    s.stat.tmr ≤ s.stat.tmu ∧ s.stat.tmu ≤ c.frames * s.time) (fun s₀ h₀ => ?_)
    fun s e s' hs _ hi hm => ?_).2.2
  · obtain ⟨ps, -, rfl⟩ := Setup.start_eq h₀
    exact ⟨⟨le_rfl, le_rfl⟩, le_rfl, Nat.zero_le _⟩
  obtain ⟨⟨htrp, htime⟩, htmr, htmu⟩ := hi
  obtain ⟨d, hd, ht, hu, hr⟩ := hm.usage
  obtain ⟨hhits, hmisses⟩ := hm.tmr_tpi
  have hwork : e.hits + e.misses ≤ (s.ps.existsWithStatus .RUNNABLE).toNat * d :=
    hm.work_le.trans (Nat.le_mul_of_pos_right _ hd)
  have hframe : e.hits ≤ s.pager.mem.allocated * d :=
    (hm.hits_le hs).trans (Nat.le_mul_of_pos_right _ hd)
  have hrun : (s.ps.existsWithStatus .RUNNABLE).toNat * d ≤ d :=
    (Nat.mul_le_mul_right d (Bool.toNat_le _)).trans_eq (Nat.one_mul d)
  have hall : s.pager.mem.allocated * d ≤ c.frames * d :=
    Nat.mul_le_mul_right d (hs.memSize ▸ hs.pager.mem.allocated_le)
  rw [ht, hu, hr, hhits, hmisses, Nat.mul_add]
  exact ⟨⟨by omega, by omega⟩, by omega, by omega⟩

/-! ## The counters -/

/-- The time a simulation may take, with `n` processes and `lines` lines to run. -/
def Setup.maxTime (c : Setup) (n lines : ℕ) : ℕ :=
  lines + c.faultsPerHit n * (lines + 1) * (c.diskPenalty + 1)

/-- There is no more time than for the faults and the lines. -/
theorem Setup.Reachable.time_le [R.Lawful] (hD : 3 ≤ c.diskPenalty) {tr : Trace}
    (htext : c.text = tr.text) (h : c.Reachable R s) :
    s.time ≤ c.maxTime tr.length tr.length := by
  have hlines := h.tmr_add_linesLeft htext
  obtain ⟨⟨n, hn, htotal, -⟩, -⟩ := h.charged
  have hproc : s.ps.nextProc ≤ tr.length := by
    obtain ⟨s₀, h₀, ts, hrun⟩ := h
    obtain ⟨ps, rfl, hi⟩ := Setup.start_indexed htext h₀
    rw [nextProc_run h₀ hrun]
    exact (Setup.linesLeft_le h₀).1.trans_eq (Setup.linesLeft_start hi)
  have htpi : s.stat.tpi ≤ c.faultsPerHit tr.length * (tr.length + 1) :=
    ((Nat.le_add_right _ _).trans (h.tpi_le hD).1).trans
      (Nat.mul_le_mul (c.faultsPerHit_mono hproc) (by omega))
  have hmul := Nat.mul_le_mul_right (c.diskPenalty + 1) htpi
  rw [Nat.mul_comm] at htotal
  rw [Nat.mul_add, Nat.mul_one] at hmul
  rw [Setup.maxTime]
  omega

/-- No counter wraps: with a disk penalty of three ticks or more, on a well-formed trace file
    small enough for the memory, the time and the statistics fit in an `unsigned long`
    throughout. -/
theorem counters_fit (c : Setup) (π : Policy) (hD : 3 ≤ c.diskPenalty) {tr : Trace}
    (htext : c.text = tr.text) (hfit : c.frames * c.maxTime tr.length tr.length < 2 ^ 64)
    {s : Sim π.replace} (h : c.Reachable π.replace s) :
    s.time < 2 ^ 64 ∧ s.stat.tmu < 2 ^ 64 ∧ s.stat.trp < 2 ^ 64 ∧ s.stat.tmr < 2 ^ 64 ∧
      s.stat.tpi < 2 ^ 64 := by
  obtain ⟨⟨hrefs, htrp⟩, -, htmu⟩ := h.usage
  have htime := h.time_le hD htext
  have hmul : c.frames * s.time < 2 ^ 64 := (Nat.mul_le_mul_left _ htime).trans_lt hfit
  have hle : s.time ≤ c.frames * s.time := Nat.le_mul_of_pos_left _ c.frames_pos
  omega

/-- The disk penalty of the program, and the state after a few iterations. -/
theorem counters_fit_shipped : ∃ (tr : Trace) (s : Sim Policy.lru.replace),
    (Setup.debug DISK_PENALTY 32 tr.text DISK_PENALTY_pos Setup.word_pos).Reachable
      Policy.lru.replace s ∧ DISK_PENALTY < s.time ∧ s.time < 2 ^ 64 := by
  let tr := Trace.ofDigits [('1', '1'), ('2', '1')] (by decide +kernel)
  let c : Setup := .debug DISK_PENALTY 32 tr.text DISK_PENALTY_pos Setup.word_pos
  obtain ⟨s₀, ts, s, h₀, h, -, hs⟩ := Setup.exists_run_of_after (c := c)
    (R := Policy.lru.replace) (n := 5) (P := fun s => decide (DISK_PENALTY < s.time))
    (by decide +kernel)
  have hr := Setup.Reachable.of_run h₀ h
  have hfit : c.frames * c.maxTime tr.length tr.length < 2 ^ 64 := by decide +kernel
  exact ⟨tr, s, hr, of_decide_eq_true hs, (counters_fit c .lru (by decide) rfl hfit hr).1⟩

end Pfsim
