import Pfsim.Simulator.Disk

/-!
# Accounting

Every tick of a run goes either to the disk, at work for some fault, or to a
reference run while the disk is idle (`Sim.Charged`). Hence what the time of a
whole run is, in terms of the number of records, which is that of the hits, and
of the number of faults.

* `run_accounts`: the accounts of a run which returns.
-/

namespace Pfsim

/-- The number of hits in an iteration. -/
def Event.hits : Event → ℕ
  | hit _ => 1
  | _ => 0

/-- The number of misses in an iteration. -/
def Event.misses : Event → ℕ
  | miss _ => 1
  | _ => 0

variable {R : ReplaceModule} [R.Lawful] {c : Setup} {s s' s₀ : Sim R} {e : Event}

namespace Sim

omit [R.Lawful] in
theorem Move.tmr_tpi (h : s.Move c e s') :
    s'.stat.tmr = s.stat.tmr + e.hits ∧ s'.stat.tpi = s.stat.tpi + e.misses := by
  cases e with
  | idle => exact ⟨h.stat_idle.2.1, h.stat_idle.2.2⟩
  | completion | hit | miss =>
    rw [h.stat (by simp)]
    simp [Event.counted, Event.hits, Event.misses, Stat.hit, Stat.miss, Stat.default]

omit [R.Lawful] in
theorem action_work (e : Event) (d : ℕ) : e.action.work d = d * e.misses := by
  cases e <;> simp [Event.action, Fcfs.Action.work, Event.misses]

/-- Some ticks have gone to references run while the disk was idle, and all others
    to the disk; all references have been run so if there is a single process. -/
structure Charged (c : Setup) (s : Sim R) : Prop where
  total : ∃ n ≤ s.stat.tmr + s.stat.tpi,
    s.time + (s.server c).work c.diskPenalty = c.diskPenalty * s.stat.tpi + n ∧
      (s.ps.nextProc ≤ 1 → n = s.stat.tmr + s.stat.tpi)
  runnable : s.ps.nextProc ≤ 1 → s.stat.trp = s.stat.tmr + s.stat.tpi

omit [R.Lawful] in
/-- While the disk is idle, an iteration is a reference. -/
theorem Move.reference (h : s.Move c e s') (hb : s.ps.pq .BLOCKED = []) :
    e.hits + e.misses = 1 ∧ s'.time = s.time + 1 := by
  cases e with
  | completion =>
    obtain ⟨bs, hb', -⟩ := h.completion_blocked
    rw [hb] at hb'
    cases hb'
  | idle =>
    obtain ⟨b, bs, hb', -⟩ := h.idle_blocked
    rw [hb] at hb'
    cases hb'
  | hit | miss => exact ⟨rfl, h.time (by simp)⟩

/-- The ticks that start with a runnable process are those of the references, if
    there is a single process. -/
theorem Move.trp_single (h : s.Move c e s') (hs : s.WellFormed c) (h1 : s.ps.nextProc ≤ 1) :
    s'.stat.trp = s.stat.trp + e.hits + e.misses := by
  cases e with
  | idle => exact h.stat_idle.1
  | completion q v ppn victim =>
    obtain ⟨bs, hb, -⟩ := h.completion_blocked
    have hr : s.ps.existsWithStatus .RUNNABLE = false := by
      simp [Processes.existsWithStatus, (hs.single h1).resolve_right (by simp [hb])]
    rw [h.stat (by simp)]
    simp [Event.counted, Stat.default, Event.hits, Event.misses, hr]
  | hit r =>
    obtain ⟨queue, hq⟩ := h.runnable_of_hit
    rw [h.stat (by simp)]
    simp [Event.counted, Stat.hit, Stat.default, Event.hits, Event.misses,
      Processes.existsWithStatus, hq]
  | miss r =>
    obtain ⟨queue, hq, -⟩ := h.runnable_of_miss
    rw [h.stat (by simp)]
    simp [Event.counted, Stat.miss, Stat.default, Event.hits, Event.misses,
      Processes.existsWithStatus, hq]

theorem Move.charged (h : s.Move c e s') (hs : s.WellFormed c) (ht : s.Timed c)
    (hc : s.Charged c) : s'.Charged c := by
  obtain ⟨⟨n, hn, htotal, hsingle⟩, hrunnable⟩ := hc
  obtain ⟨htmr, htpi⟩ := h.tmr_tpi
  refine ⟨?_, fun h1 => ?_⟩
  · obtain ⟨hbusy, hfree⟩ := (h.server hs ht).work fun hne => by
      obtain ⟨b, bs, hb⟩ := List.exists_cons_of_ne_nil (mt server_queue_eq_nil.2 hne)
      rw [Sim.server_left hb]
      exact (ht.head hb).1
    rw [action_work] at hbusy hfree
    have hnow : (s'.server c).now = s'.time ∧ (s.server c).now = s.time := ⟨rfl, rfl⟩
    rw [h.nextProc, htmr, htpi, Nat.mul_add]
    by_cases hb : s.ps.pq .BLOCKED = []
    · obtain ⟨hone, htime⟩ := h.reference hb
      obtain ⟨hw, hw'⟩ := hfree (server_queue_eq_nil.2 hb)
      refine ⟨n + 1, by omega, by omega, fun h1 => ?_⟩
      have := hsingle h1
      omega
    · have hw := hbusy (mt server_queue_eq_nil.1 hb)
      refine ⟨n, by omega, by omega, fun h1 => ?_⟩
      -- A single process does not run while it is blocked.
      have hr := (hs.single h1).resolve_right hb
      have := hsingle h1
      cases e with
      | hit r =>
        obtain ⟨queue, hq⟩ := h.runnable_of_hit
        rw [hr] at hq
        cases hq
      | miss r =>
        obtain ⟨queue, hq, -⟩ := h.runnable_of_miss
        rw [hr] at hq
        cases hq
      | idle | completion => simpa [Event.hits, Event.misses] using this
  · rw [h.nextProc] at h1
    rw [h.trp_single hs h1, htmr, htpi, hrunnable h1]
    omega

end Sim

/-! ## Whole runs -/

theorem Setup.Reachable.charged (h : c.Reachable R s) : s.Charged c := by
  refine (h.invariant (I := Sim.Charged c) (fun s₀ h₀ => ?_)
    fun s e s' hs ht hc hm => hm.charged hs ht hc).2.2
  obtain ⟨ps, hp, rfl⟩ := Setup.start_eq h₀
  obtain ⟨n, -, -, hi⟩ := firstPass_indexed hp
  have hb : (Sim.init R c ps).ps.pq .BLOCKED = [] := hi.blocked
  refine ⟨⟨0, le_rfl, ?_, fun _ => rfl⟩, fun _ => rfl⟩
  rw [Fcfs.Server.work_eq_zero (Sim.server_queue_eq_nil.2 hb)]
  rfl

/-- Every record is a hit, or is left. -/
theorem Setup.Reachable.tmr_add_linesLeft {tr : Trace} (htext : c.text = tr.text)
    (h : c.Reachable R s) : s.stat.tmr + s.linesLeft = tr.length := by
  refine (h.invariant (I := fun s => s.stat.tmr + s.linesLeft = tr.length) (fun s₀ h₀ => ?_)
    fun s e s' hs ht hi hm => ?_).2.2
  · obtain ⟨ps, rfl, hi⟩ := Setup.start_indexed htext h₀
    rw [Setup.linesLeft_start hi]
    exact Nat.zero_add _
  · rw [hm.tmr_tpi.1]
    cases e with
    | hit r =>
      have := hm.linesLeft_hit hs
      simp only [Event.hits]
      omega
    | completion | idle | miss => exact (hm.linesLeft_eq hs (by simp)) ▸ hi

/-- When the loop is over, every record has been a hit. -/
theorem Setup.Reachable.tmr_of_done {tr : Trace} (htext : c.text = tr.text) (h : c.Reachable R s)
    (hdone : s.notDone = false) : s.stat.tmr = tr.length := by
  have hleft : s.linesLeft = 0 := Finset.sum_eq_zero fun p hp => by
    rw [(h.finished hdone (Finset.mem_range.1 hp)).2, List.length_nil]
  have := h.tmr_add_linesLeft htext
  omega

/-- There is a single process if there is a single process number. -/
theorem Setup.Reachable.nextProc_le_one {tr : Trace} (htext : c.text = tr.text)
    (hpid : ∀ k, 1 ≤ k → k ≤ tr.length → tr.pid k = tr.pid 1) (h : c.Reachable R s) :
    s.ps.nextProc ≤ 1 := by
  refine (h.invariant (I := fun s => s.ps.nextProc ≤ 1) (fun s₀ h₀ => ?_)
    fun s e s' _ _ hi hm => hm.nextProc ▸ hi).2.2
  obtain ⟨ps, rfl, hi⟩ := Setup.start_indexed htext h₀
  by_contra hlt
  have h1 : 1 < ps.nextProc := not_le.1 hlt
  have h0 : 0 < ps.nextProc := Nat.zero_lt_of_lt h1
  have hone {p : ProcId} (hp : p < ps.nextProc) : (ps.procs p).pid = tr.pid 1 := by
    obtain ⟨hle, hle'⟩ := hi.firstline_le hp
    rw [hi.pid_eq hp, hpid _ hle hle']
  exact absurd (hi.key_inj h0 h1 (by rw [hone h0, hone h1])) (by decide)

/-- When the loop is over, the time is that of the disk, and of the references run while it
    is idle, which are all of them if there is a single process. -/
theorem Setup.Reachable.time_of_done (h : c.Reachable R s) (hdone : s.notDone = false) :
    s.stat.tpi * c.diskPenalty ≤ s.time ∧
      s.time ≤ s.stat.tmr + s.stat.tpi * (c.diskPenalty + 1) ∧
      (s.ps.nextProc ≤ 1 → s.time = s.stat.tmr + s.stat.tpi * (c.diskPenalty + 1)) := by
  obtain ⟨⟨n, hn, htotal, hsingle⟩, -⟩ := h.charged
  have hempty := (Sim.notDone_eq_false_iff.1 hdone).2
  rw [Fcfs.Server.work_eq_zero (Sim.server_queue_eq_nil.2 hempty), Nat.mul_comm] at htotal
  rw [Nat.mul_succ]
  refine ⟨by omega, by omega, fun hone => ?_⟩
  have := hsingle hone
  omega

/-- The accounts of a run which returns, on a well-formed trace file: every record
    is a hit, every process finishes, and the time is that of the disk, for all
    faults, and of the references run while it is idle, which are all of them if
    there is a single process number. -/
theorem run_accounts (c : Setup) (π : Policy) {tr : Trace} (htext : c.text = tr.text)
    {s₀ s : Sim π.replace} {ts : List (Machine.Transition (Sim π.replace) Event)}
    (h₀ : c.start π.replace = .ok s₀) (h : (c.machine π.replace).Returns s₀ ts s) :
    s.stat.tmr = tr.length ∧
      (∀ p < s.ps.nextProc, (s.ps.procs p).status = .FINISHED) ∧
      s.stat.tpi * c.diskPenalty ≤ s.time ∧
      s.time ≤ tr.length + s.stat.tpi * (c.diskPenalty + 1) ∧
      ((∀ k, 1 ≤ k → k ≤ tr.length → tr.pid k = tr.pid 1) →
        s.time = tr.length + s.stat.tpi * (c.diskPenalty + 1) ∧
        s.stat.trp = tr.length + s.stat.tpi) := by
  have hs : c.Reachable π.replace s := .of_run h₀ h.1
  have hdone : s.notDone = false := h.2
  have hempty := (Sim.notDone_eq_false_iff.1 hdone).2
  have htmr := hs.tmr_of_done htext hdone
  obtain ⟨⟨n, hn, htotal, hsingle⟩, hrunnable⟩ := hs.charged
  rw [Fcfs.Server.work_eq_zero (Sim.server_queue_eq_nil.2 hempty), Nat.mul_comm] at htotal
  rw [Nat.mul_add]
  refine ⟨htmr, fun p hp => (hs.finished hdone hp).1, by omega, by omega, fun hpid => ?_⟩
  have hone := hs.nextProc_le_one htext hpid
  have := hsingle hone
  have := hrunnable hone
  omega

/-- A process alone, which waits for two pages. -/
theorem run_accounts_alone : ∃ (tr : Trace) (s₀ s : Sim Policy.fifo.replace) (ts : _),
    (Setup.debug 2 32 tr.text (by decide) (by decide)).start Policy.fifo.replace = .ok s₀ ∧
      ((Setup.debug 2 32 tr.text (by decide) (by decide)).machine _).Returns s₀ ts s ∧
      s.time = 8 ∧ s.stat.trp = 4 := by
  set tr : Trace := .ofDigits [('1', '1'), ('1', '2')] (by decide) with htr
  obtain ⟨s₀, ts, s, h₀, h, -, hs⟩ := Setup.exists_run_of_after (R := Policy.fifo.replace)
    (c := .debug 2 32 tr.text (by decide) (by decide)) (n := 8)
    (P := fun s => !s.notDone && s.stat.tpi == 2) (by decide +kernel)
  obtain ⟨hs, htpi⟩ : s.notDone = false ∧ s.stat.tpi = 2 := by simpa using hs
  have htext : (Setup.debug 2 32 tr.text (by decide) (by decide)).text = tr.text := rfl
  obtain ⟨-, -, -, -, hone⟩ := run_accounts _ .fifo htext h₀ ⟨h, hs⟩
  obtain ⟨htime, htrp⟩ := hone (by decide +kernel)
  rw [htpi] at htime htrp
  exact ⟨tr, s₀, s, ts, h₀, ⟨h, hs⟩, htime, htrp⟩

end Pfsim
