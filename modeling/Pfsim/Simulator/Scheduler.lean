import Pfsim.Replace.Policy
import Pfsim.Simulator.Reachable

/-!
# The scheduler

What the queues and the processes are at the head of the simulation loop, in any
run, so that no assertion of the program fails.

* `scheduler_invariant`: every process is in the queue of its status, the runnable
  ones in the order of the file and ready, the blocked ones waiting for a page of
  theirs, the disk being at work for the first one.
-/

namespace Pfsim

variable {R : ReplaceModule} [R.Lawful] {c : Setup} {s s' : Sim R} {e : Event}

/-- The finished processes have no lines left. -/
def Sim.Spent (s : Sim R) : Prop :=
  ∀ p < s.ps.nextProc, (s.ps.procs p).status = .FINISHED →
    (s.ps.procs p).hasLinesRemainingInFile = false

theorem Sim.Move.spent (h : s.Move c e s') (hs : s.WellFormed c) (hspent : s.Spent) :
    s'.Spent := by
  intro q hq hst
  rw [h.nextProc] at hq
  by_cases hproc : e.proc = some q
  · cases e with
    | idle => cases hproc
    | completion p v ppn victim =>
      obtain rfl := Option.some.inj hproc
      rw [h.completion_proc.1] at hst
      cases hst
    | miss r =>
      obtain rfl := Option.some.inj hproc
      obtain ⟨pt, he⟩ := h.miss_proc
      rw [he] at hst
      cases hst
    | hit r =>
      -- Of the three ways a hit ends, only that on the last line leaves the process finished.
      obtain rfl := Option.some.inj hproc
      obtain ⟨queue, hr⟩ := h.runnable_of_hit
      have hrun := hs.ps.status (hr ▸ List.mem_cons_self)
      obtain ⟨w, pt, ⟨-, -, -, he⟩ | ⟨-, -, -, -, he⟩ | ⟨hl, hi, -, he⟩⟩ := h.hit_proc
      · rw [he] at hst
        cases hst
      · rw [he] at hst
        cases hrun.symm.trans hst
      · rw [he]
        exact (hs.ps.placed hq).finished hl hi
  · obtain ⟨pt, he⟩ := h.spared hproc
    rw [he] at hst ⊢
    exact hspent q hq hst

theorem Setup.Reachable.spent (h : c.Reachable R s) : s.Spent := by
  refine (h.invariant (I := Sim.Spent) (fun s₀ h₀ => ?_)
    fun s e s' hs _ hi hm => hm.spent hs hi).2.2
  obtain ⟨ps, hp, rfl⟩ := Setup.start_eq h₀
  obtain ⟨n, -, -, hi⟩ := firstPass_indexed hp
  intro p hp hst
  cases (hi.fresh hp).status.symm.trans hst

/-- At the head of the loop, every unfinished process is in one of the two queues of
    the runnable and of the blocked processes, once, according to its status. The
    runnable processes are in the order of their positions, have distinct process
    numbers, and wait for nothing; the blocked ones wait for a page of their page
    table which is not in memory, and the disk works for the first of them. Every
    process is on a line of its current interval, and has no line left when it has
    finished. Thus no assertion fails. -/
theorem scheduler_invariant (c : Setup) (π : Policy) {s : Sim π.replace}
    (h : c.Reachable π.replace s) :
    (∀ p < s.ps.nextProc, (s.ps.procs p).status ≠ .FINISHED →
      ∃! st, (st = .RUNNABLE ∨ st = .BLOCKED) ∧ p ∈ s.ps.pq st) ∧
    (∀ st, (s.ps.pq st).Nodup ∧
      ∀ p ∈ s.ps.pq st, p < s.ps.nextProc ∧ (s.ps.procs p).status = st) ∧
    (s.ps.pq .RUNNABLE).Pairwise (fun p q =>
      (s.ps.procs p).currentPos ≤ (s.ps.procs q).currentPos ∧
        (s.ps.procs p).pid ≠ (s.ps.procs q).pid) ∧
    (∀ p ∈ s.ps.pq .RUNNABLE,
      (s.ps.procs p).waitTime = 0 ∧ (s.ps.procs p).waitingOnPage = none) ∧
    (∀ p ∈ s.ps.pq .BLOCKED, ∃ vpn v, (s.ps.procs p).waitingOnPage = some v ∧
      (s.ps.procs p).getVirtualPage vpn = some v ∧
      (s.pager.mem.vpages v).pid = (s.ps.procs p).pid ∧
      (s.pager.mem.vpages v).inMemory = false) ∧
    (∀ b bs, s.ps.pq .BLOCKED = b :: bs →
      1 ≤ (s.ps.procs b).waitTime ∧ (s.ps.procs b).waitTime ≤ c.diskPenalty ∧
        ∀ p ∈ bs, (s.ps.procs p).waitTime = c.diskPenalty) ∧
    (∀ p < s.ps.nextProc, (s.ps.procs p).currInterval ≠ .null ∧
      (s.ps.procs p).currInterval.low ≤ (s.ps.procs p).currentline ∧
      (s.ps.procs p).currentline ≤ (s.ps.procs p).currInterval.high) ∧
    (∀ p < s.ps.nextProc, (s.ps.procs p).status = .FINISHED →
      (s.ps.procs p).hasLinesRemainingInFile = false) ∧
    ∀ cond, s.notDone = true → s.step c true ≠ .error (.assertFailed cond) := by
  have hs := h.wellFormed
  have ht := h.timed
  refine ⟨fun p hp hst => ?_, fun st => ⟨hs.ps.nodup st, fun p => hs.ps.mem_pq.1⟩, ?_,
    fun p hp => (hs.settled (hs.ps.lt hp)).ready (hs.ps.status hp), fun p hp => ?_,
    fun b bs hb => ⟨(ht.head hb).1, (ht.head hb).2, ht.rest hb⟩, fun p hp => ?_, h.spent,
    fun cond hr he => ?_⟩
  · -- The queue of an unfinished process is the one of its status.
    refine ⟨(s.ps.procs p).status, ⟨?_, hs.ps.mem_pq.2 ⟨hp, rfl⟩⟩,
      fun st ⟨_, hmem⟩ => (hs.ps.status hmem).symm⟩
    cases h' : (s.ps.procs p).status with
    | RUNNABLE => exact .inl rfl
    | BLOCKED => exact .inr rfl
    | FINISHED => exact absurd h' hst
  · refine (hs.ps.sorted.and (hs.ps.nodup _)).imp_of_mem fun {p q} hp hq ⟨hle, hne⟩ => ⟨hle, ?_⟩
    exact fun hpid => hne (hs.ps.pid_inj (hs.ps.lt hp) (hs.ps.lt hq) hpid)
  · -- The page awaited is live but not resident: its flag is not set.
    have hst := hs.ps.status hp
    have hset := hs.settled (hs.ps.lt hp)
    obtain ⟨_, vpn, _, v, _, hw, hv, hr⟩ := hset.awaits hst
    obtain ⟨hl, hpid, -⟩ := hset.page (by simp [hst]) (PageTable.mem_of_get hv)
    exact ⟨vpn, v, hw, hv, hpid, by simpa using fun hm => hr ⟨hl, hm⟩⟩
  · have hplaced := hs.ps.placed hp
    exact ⟨hplaced.ne_null, hplaced.low_le, hplaced.le_high⟩
  · exact h.step_ne_assertFailed hr cond he

/-- While both processes of the sample are waiting. -/
theorem scheduler_invariant_sample : ∃ s : Sim Policy.fifo.replace,
    Setup.sample.Reachable Policy.fifo.replace s ∧ s.ps.pq .BLOCKED = [0, 1] ∧
      1 ≤ (s.ps.procs 0).waitTime ∧ (s.ps.procs 0).waitTime ≤ 2 ∧ (s.ps.procs 1).waitTime = 2 := by
  obtain ⟨s₀, ts, s, h₀, h, -, hs⟩ := Setup.exists_run_of_after (R := Policy.fifo.replace)
    (c := .sample) (n := 2) (P := fun s => s.ps.pq .BLOCKED == [0, 1]) (by decide +kernel)
  have hb : s.ps.pq .BLOCKED = [0, 1] := by simpa using hs
  have hr := Setup.Reachable.of_run h₀ h
  obtain ⟨-, -, -, -, -, htimer, -⟩ := scheduler_invariant .sample .fifo hr
  obtain ⟨h1, hle, hrest⟩ := htimer 0 [1] hb
  exact ⟨s, hr, hb, h1, hle, hrest 1 (List.mem_singleton_self 1)⟩

end Pfsim
