import Pfsim.Replace.Policy
import Pfsim.Simulator.Quit

/-!
# The lifetime of processes

A process is freed when it finishes, right after it has been put at the end of
the queue of finished processes, and nothing ever leaves that queue. So a
process is live as long as it is not finished (`Sim.Lifetimes`), the queues of
runnable and of blocked processes only have live ones, and the queue of finished
processes only has freed ones, the last of which the next insertion writes to.

* `Sim.Ending`: what the iteration that ends a process is, seen from the state
  before it;
* `linkedLive_iff`: all processes in the queues are live until the first of
  these iterations, and never after it.
-/

namespace Pfsim

namespace Sim

variable {R : ReplaceModule} {c : Setup} {s s' u : Sim R} {e : Event} {r : Reference} {p q : ProcId}

/-- The processes that the queues refer to are live: their elements, and the last
    ones, through which the next insertion writes. -/
def LinkedLive (s : Sim R) : Prop :=
  ∀ st p, p ∈ s.ps.pq st ∨ (s.ps.pq st).getLast? = some p → s.ps.live p = true

/-- The next iteration ends a process: no I/O is over, and the first runnable
    process has the page of its record in memory, on the last line of its last
    interval. -/
def Ending (c : Setup) (s : Sim R) : Prop :=
  s.tick.ioDue = false ∧ ∃ p pid vpn rest, s.ps.peek .RUNNABLE = some p ∧
    fscanf simulatorFormat (c.text.drop (s.position p)) = ⟨2, [pid, vpn], rest⟩ ∧
    (s.ps.procs p).virtualPageInMemory s.pager.mem vpn = true ∧
    (s.ps.procs p).onLastLineInInterval = true ∧ (s.ps.procs p).hasIntervalsRemaining = false

/-- A process is live as long as it is not finished. -/
def Lifetimes (s : Sim R) : Prop :=
  ∀ p < s.ps.nextProc, s.ps.live p = true ↔ (s.ps.procs p).status ≠ .FINISHED

/-! ## Who is live -/

theorem Lifetimes.stays (h : s.Lifetimes) (hs : s.Stays s') : s'.Lifetimes := by
  intro q hq
  rw [hs.procs_live, Ne, hs.finished_iff]
  exact h q (hs.nextProc ▸ hq)

/-- Reading a line frees no process, and finishes none. -/
theorem Lifetimes.reads (h : s.Lifetimes) (hr : s.Reads c r u) : u.Lifetimes := by
  intro q hq
  rw [hr.procs_live, hr.status_eq]
  exact h q (hr.nextProc ▸ hq)

/-- The moves free the processes that finish, and no others. -/
theorem Move.lifetimes [R.Lawful] (h : s.Move c e s') (hs : s.WellFormed c) (hl : s.Lifetimes) :
    s'.Lifetimes := by
  obtain hst | ⟨r, u, hr, hst⟩ | ⟨r, u, rep, pg, hr, rfl, -⟩ := h.stays_cases hs
  · exact hl.stays hst
  · exact (hl.reads hr).stays hst
  · intro q hq
    have hlive : ((u.accessed rep).finished r.p pg).ps.live =
        Function.update u.ps.live r.p false := rfl
    rw [hlive, finished_procs]
    by_cases hqr : q = r.p
    · simp [hqr]
    · rw [Function.update_of_ne hqr, if_neg hqr]
      exact hl.reads hr q hq

/-! ## The finished processes -/

/-- A page is a hit if it is in memory before the iteration. -/
theorem Reads.inMemory_iff [R.Lawful] (h : s.Reads c r u) (hs : s.WellFormed c) :
    (s.ps.procs r.p).virtualPageInMemory s.pager.mem r.vpn = true ↔
      u.pager.mem.Resident r.v := by
  have hpage : (u.ps.procs r.p).pageTable.get r.vpn = some r.v := h.page
  obtain ⟨queue, hq⟩ := h.head
  have hmem : r.p ∈ s.ps.pq .RUNNABLE := hq ▸ List.mem_cons_self
  rw [Process.virtualPageInMemory]
  rcases h.pages_cases with ⟨hpager, htable⟩ | ⟨hrv, ⟨o, ho⟩, hself, -⟩
  · rw [htable] at hpage
    simp only [hpage]
    rw [hpager, Memory.Resident, and_iff_right (hpager ▸ (h.live hs).1)]
  · -- A page made by the iteration is not in memory.
    have hnot : ¬u.pager.mem.Resident r.v := by
      rw [ho, Memory.resident_newPage hs.pager.mem, hrv]
      exact fun hr => absurd hr.1 (by simp [hs.pager.mem.not_live_nextPage])
    refine iff_of_false ?_ hnot
    cases hget : (s.ps.procs r.p).pageTable.get r.vpn with
    | none => simp
    | some v =>
      have hlive := ((hs.settled (hs.ps.lt hmem)).page (by simp [hs.ps.status hmem])
        (PageTable.mem_of_get hget)).1
      have hv : v = r.v := by
        rw [hself, PageTable.get_eq_lookup, List.lookup_append, ← PageTable.get_eq_lookup,
          hget] at hpage
        exact Option.some.inj hpage
      rw [hv, hrv, hs.pager.mem.not_live_nextPage] at hlive
      cases hlive

/-- A reference ends its process if it is a hit, on the last line of the last
    interval. -/
theorem Reads.ending_iff [R.Lawful] (h : s.Reads c r u) (hs : s.WellFormed c) :
    s.Ending c ↔ u.pager.mem.Resident r.v ∧ (u.ps.procs r.p).onLastLineInInterval = true ∧
      (u.ps.procs r.p).hasIntervalsRemaining = false := by
  obtain ⟨queue, hq⟩ := h.head
  obtain ⟨pt, hu⟩ := h.procs r.p
  obtain ⟨rest, hscan, -⟩ := h.scan
  have hpeek : s.ps.peek .RUNNABLE = some r.p := by rw [Processes.peek, hq]; rfl
  have hlast : (u.ps.procs r.p).onLastLineInInterval = (s.ps.procs r.p).onLastLineInInterval := by
    rw [hu]; rfl
  have hint : (u.ps.procs r.p).hasIntervalsRemaining = (s.ps.procs r.p).hasIntervalsRemaining := by
    rw [hu]; rfl
  rw [← h.inMemory_iff hs, hlast, hint]
  constructor
  · rintro ⟨-, p, pid, vpn, rest', hp, hscan', hend⟩
    obtain rfl : r.p = p := Option.some.inj (hpeek.symm.trans hp)
    rw [← h.fpos, hscan] at hscan'
    simp only [Scanned.mk.injEq, List.cons.injEq] at hscan'
    obtain ⟨-, ⟨-, rfl, -⟩, -⟩ := hscan'
    exact hend
  · exact fun hend => ⟨h.notDue, r.p, r.pid, r.vpn, rest, hpeek, h.fpos ▸ hscan, hend⟩

/-- A process is added to the finished ones by the iterations that end one, and
    by no others. -/
theorem Move.pq_finished [R.Lawful] (h : s.Move c e s') (hs : s.WellFormed c) :
    s'.ps.pq .FINISHED = [] ↔ s.ps.pq .FINISHED = [] ∧ ¬s.Ending c := by
  have hkept (hpq : s'.ps.pq .FINISHED = s.ps.pq .FINISHED) (hend : ¬s.Ending c) :
      s'.ps.pq .FINISHED = [] ↔ s.ps.pq .FINISHED = [] ∧ ¬s.Ending c := by
    rw [hpq, and_iff_left hend]
  cases h with
  | completion hq hw =>
    refine hkept (completed_pq_finished.trans (by rw [tick_pq])) fun hend => ?_
    rw [hend.1] at hw
    cases hw
  | idle hr =>
    refine hkept (by rw [skipped, modify, Processes.modify_pq]; exact congrFun tick_pq _) ?_
    rintro ⟨-, p, _, _, _, hp, -⟩
    rw [Processes.peek, hr] at hp
    cases hp
  | @jump r u rep hr hm ha hl hi =>
    refine hkept ((jumped_pq_other (by simp)).trans (congrFun hr.pq _)) fun hend => ?_
    rw [((hr.ending_iff hs).1 hend).2.2] at hi
    cases hi
  | @next r u rep hr hm ha hl =>
    -- The line is either the last one of its interval or not.
    refine hkept (congrFun hr.pq _) fun hend => ?_
    have hlast := ((hr.ending_iff hs).1 hend).2.1
    simp only [Process.hasLinesRemainingInInterval, decide_eq_true_iff] at hl
    simp only [Process.onLastLineInInterval, beq_iff_eq] at hlast
    omega
  | @finish r u rep pg hr hm ha hl hi =>
    rw [finished_pq_finished]
    refine iff_of_false (by simp) fun hend => hend.2 ?_
    exact (hr.ending_iff hs).2 ⟨hm, hl, hi⟩
  | @miss r u hr hm =>
    exact hkept (blocked_pq_finished.trans (congrFun hr.pq _)) fun hend =>
      hm ((hr.ending_iff hs).1 hend).1

/-- The processes in the queues are live if and only if none is finished. -/
theorem Lifetimes.linkedLive_iff_nil [R.Lawful] (h : s.Lifetimes) (hs : s.WellFormed c) :
    s.LinkedLive ↔ s.ps.pq .FINISHED = [] := by
  have hmem {st : ProcessStatus} {p : ProcId} (hp : p ∈ s.ps.pq st) :
      s.ps.live p = true ↔ st ≠ .FINISHED := by
    rw [h p (hs.ps.lt hp), hs.ps.status hp]
  constructor
  · intro hlive
    refine List.eq_nil_iff_forall_not_mem.2 fun p hp => ?_
    exact (hmem hp).1 (hlive .FINISHED p (.inl hp)) rfl
  · intro hnil st p hp
    have hp : p ∈ s.ps.pq st := hp.elim id List.mem_of_getLast?
    refine (hmem hp).2 ?_
    rintro rfl
    rw [hnil] at hp
    cases hp

end Sim

variable {R : ReplaceModule} {c : Setup} {s₀ s : Sim R}

theorem Setup.start_lifetimes (h : c.start R = .ok s₀) :
    s₀.Lifetimes ∧ s₀.ps.pq .FINISHED = [] := by
  obtain ⟨ps, hp, rfl⟩ := Setup.start_eq h
  obtain ⟨n, -, -, hi⟩ := firstPass_indexed hp
  refine ⟨fun p hp => ?_, hi.finished⟩
  have hlive : (Sim.init R c ps).ps.live p = decide (p < ps.nextProc) := hi.live p
  have hlt : p < ps.nextProc := hp
  rw [hlive, decide_eq_true hlt]
  exact iff_of_true rfl (by simp [Sim.init, (hi.fresh hlt).status])

/-- In a run, all the processes that the queues refer to are live if and only if
    no iteration has ended a process. -/
theorem linkedLive_iff (c : Setup) (π : Policy) {s₀ s : Sim π.replace}
    {ts : List (Machine.Transition (Sim π.replace) Event)} (h₀ : c.start π.replace = .ok s₀)
    (h : (c.machine π.replace).Run s₀ ts s) :
    s.LinkedLive ↔ ∀ t ∈ ts, ¬t.src.Ending c := by
  have hrun : s.Lifetimes ∧ (s.ps.pq .FINISHED = [] ↔ ∀ t ∈ ts, ¬t.src.Ending c) := by
    refine Setup.run_invariant (J := fun ts s => s.Lifetimes ∧
      (s.ps.pq .FINISHED = [] ↔ ∀ t ∈ ts, ¬t.src.Ending c)) h₀ h ?_ ?_
    · exact ⟨(Setup.start_lifetimes h₀).1, iff_of_true (Setup.start_lifetimes h₀).2 (by simp)⟩
    · rintro ts s e s' hr ⟨hl, hiff⟩ hm
      refine ⟨hm.lifetimes hr.wellFormed hl, (hm.pq_finished hr.wellFormed).trans ?_⟩
      simp only [List.forall_mem_append, List.forall_mem_singleton, hiff]
  rw [hrun.1.linkedLive_iff_nil (Setup.Reachable.of_run h₀ h).wellFormed, hrun.2]

/-- The second process of the sample is freed after six iterations, before the
    first one is inserted after it. -/
theorem exists_freed : ∃ (s₀ : Sim Policy.fifo.replace) (ts : _) (s : _),
    Setup.sample.start Policy.fifo.replace = .ok s₀ ∧
      (Setup.sample.machine Policy.fifo.replace).Run s₀ ts s ∧ ts.length = 6 ∧
      s.ps.pq .BLOCKED ++ s.ps.pq .RUNNABLE = [0] ∧ s.ps.pq .FINISHED = [1] ∧
      s.ps.live 1 = false := by
  obtain ⟨s₀, ts, s, h₀, h, hn, hs⟩ := Setup.exists_run_of_after (R := Policy.fifo.replace)
    (c := .sample) (n := 6) (P := fun s => s.ps.pq .BLOCKED ++ s.ps.pq .RUNNABLE == [0] &&
      s.ps.pq .FINISHED == [1] && !s.ps.live 1) (by decide +kernel)
  simp only [Bool.and_eq_true, beq_iff_eq, Bool.not_eq_true'] at hs
  exact ⟨s₀, ts, s, h₀, h, hn, hs.1.1, hs.1.2, hs.2⟩

/-- One of these iterations ends it. -/
theorem linkedLive_iff_sample : ∃ (s₀ : Sim Policy.fifo.replace) (ts : _) (s : _),
    (Setup.sample.machine Policy.fifo.replace).Run s₀ ts s ∧ ts.length = 6 ∧
      ∃ t ∈ ts, t.src.Ending Setup.sample := by
  obtain ⟨s₀, ts, s, h₀, h, hn, -, hfinished, hfreed⟩ := exists_freed
  refine ⟨s₀, ts, s, h, hn, ?_⟩
  by_contra hend
  push Not at hend
  have hlive := (linkedLive_iff .sample .fifo h₀ h).2 hend .FINISHED 1 (.inl (by simp [hfinished]))
  rw [hfreed] at hlive
  cases hlive

/-- A queue refers to a freed process, in the sample. -/
theorem not_linkedLive_sample : ¬∀ (c : Setup) (π : Policy) (s : Sim π.replace),
    c.Reachable π.replace s → s.LinkedLive := by
  intro hall
  obtain ⟨s₀, ts, s, h₀, h, -, -, hfinished, hfreed⟩ := exists_freed
  have hlive := hall .sample .fifo s (.of_run h₀ h) .FINISHED 1 (.inl (by simp [hfinished]))
  rw [hfreed] at hlive
  cases hlive

end Pfsim
