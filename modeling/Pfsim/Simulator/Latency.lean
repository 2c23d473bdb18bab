import Pfsim.Fcfs.Latency
import Pfsim.Simulator.Disk
import Pfsim.Simulator.Faults

/-!
# How long a fault takes

A process waits for one page at a time, so there are never more jobs at the disk than
processes, and no fault waits for more I/Os than that.

* `disk_latency`: whatever happens in a run, every fault is over after a disk penalty for each
  process at most.
-/

namespace Pfsim

variable {R : ReplaceModule} [R.Lawful] {c : Setup} {s s₀ : Sim R}
  {ts : List (Machine.Transition (Sim R) Event)}

/-- There are no more jobs than processes. -/
theorem Sim.WellFormed.length_server_le (hs : s.WellFormed c) :
    (s.server c).queue.length ≤ s.ps.nextProc := by
  rw [Sim.server, List.length_map]
  exact (Nat.le_add_left _ _).trans hs.length_pq_le

/-- No fault should take longer. -/
theorem prompt_of_run (h₀ : c.start R = .ok s₀) (h : (c.machine R).Run s₀ ts s) :
    Fcfs.Prompt c.diskPenalty (c.diskPenalty * s.ps.nextProc) (faults ts) := by
  refine (Setup.run_invariant (J := fun ts s =>
    Fcfs.Served c.diskPenalty (faults ts) (completions ts) (s.server c) ∧
      Fcfs.Prompt c.diskPenalty (c.diskPenalty * s.ps.nextProc) (faults ts)) h₀ h
    ⟨served_of_run h₀ .start, .nil⟩ fun ts s e s' hs ⟨hserved, hprompt⟩ hm => ?_).2
  have hstep := hm.server hs.wellFormed hs.timed
  have hle := Nat.mul_le_mul_left c.diskPenalty (hm.wellFormed hs.wellFormed).length_server_le
  rw [faults, completions, List.flatMap_append, List.flatMap_append, List.flatMap_singleton,
    List.flatMap_singleton]
  exact ⟨hserved.step c.diskPenalty_pos hstep, hserved.prompt hstep (hm.nextProc ▸ hprompt) hle⟩

/-- The faults are counted by TPI. -/
theorem length_faults (h₀ : c.start R = .ok s₀) (h : (c.machine R).Run s₀ ts s) :
    (faults ts).length = s.stat.tpi := by
  refine Setup.run_invariant (J := fun ts s => (faults ts).length = s.stat.tpi) h₀ h ?_
    fun ts s e s' hr hj hm => ?_
  · obtain ⟨ps, -, rfl⟩ := Setup.start_eq h₀
    rfl
  · rw [faults, List.flatMap_append, List.length_append, ← faults, hj, hm.tmr_tpi.2]
    cases e <;> rfl

/-- In any run, a process which faults gets its page after a disk penalty at least, and after
    as many of them as there are processes at most: a fault which is older has been served. -/
theorem disk_latency (c : Setup) (π : Policy) {s₀ s : Sim π.replace}
    {ts : List (Machine.Transition (Sim π.replace) Event)} (h₀ : c.start π.replace = .ok s₀)
    (h : (c.machine π.replace).Run s₀ ts s) :
    (faults ts).length = s.stat.tpi ∧ ∀ (k : ℕ) (f : Fault × ℕ), (faults ts)[k]? = some f →
      (∀ done : Fault × ℕ, (completions ts)[k]? = some done → done.1 = f.1 ∧
        f.2 + c.diskPenalty ≤ done.2 ∧ done.2 ≤ f.2 + c.diskPenalty * s.ps.nextProc) ∧
      (f.2 + c.diskPenalty * s.ps.nextProc ≤ s.time →
        ∃ done, (completions ts)[k]? = some done) := by
  have hserved := served_of_run h₀ h
  refine ⟨length_faults h₀ h, fun k f hf => ?_⟩
  obtain ⟨done, hdone, hjob, hge, hle⟩ := (prompt_of_run h₀ h).exists_serve hf
  refine ⟨fun done' hdone' => ?_, fun hold => ⟨done, ?_⟩⟩
  · obtain ⟨rest, hrest⟩ := hserved.prefix_serve
    have hlt := (List.getElem?_eq_some_iff.1 hdone').1
    rw [← hrest, List.getElem?_append_left hlt, hdone'] at hdone
    obtain rfl := Option.some.inj hdone
    exact ⟨hjob, hge, hle⟩
  · exact hserved.getElem?_of_le hdone (hle.trans hold)

/-- Two processes, and the last of three faults. -/
theorem disk_latency_sample : ∃ (s₀ s : Sim Policy.fifo.replace) (ts : _) (f done : Fault × ℕ),
    Setup.sample.start Policy.fifo.replace = .ok s₀ ∧
      (Setup.sample.machine Policy.fifo.replace).Returns s₀ ts s ∧ (faults ts)[2]? = some f ∧
      (completions ts)[2]? = some done ∧ f.2 + 2 ≤ done.2 ∧ done.2 ≤ f.2 + 4 := by
  obtain ⟨s₀, ts, s, h₀, h, -, hP⟩ := Setup.exists_run_of_after (R := Policy.fifo.replace)
    (c := .sample) (n := 10) (P := fun s => !s.notDone && s.stat.tpi == 3 && s.ps.nextProc == 2)
    (by decide +kernel)
  obtain ⟨⟨hdone, htpi⟩, hnext⟩ : (s.notDone = false ∧ s.stat.tpi = 3) ∧ s.ps.nextProc = 2 := by
    simpa using hP
  obtain ⟨hlen, hall⟩ := disk_latency .sample .fifo h₀ h
  have hcount := congrArg List.length (served_of_run h₀ h).pending
  rw [List.length_append, List.length_map, List.length_map,
    Sim.server_queue_eq_nil.2 (Sim.notDone_eq_false_iff.1 hdone).2, hlen, htpi] at hcount
  have hf := List.getElem?_eq_getElem (l := faults ts) (i := 2) (by omega)
  have hc := List.getElem?_eq_getElem (l := completions ts) (i := 2)
    (Nat.lt_of_lt_of_eq (Nat.lt_succ_self 2) hcount)
  obtain ⟨-, hge, hle⟩ := (hall 2 _ hf).1 _ hc
  rw [hnext] at hle
  exact ⟨s₀, s, ts, _, _, h₀, ⟨h, hdone⟩, hf, hc, hge, hle⟩

end Pfsim
