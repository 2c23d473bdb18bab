import Pfsim.Machine.Stutter
import Pfsim.Replace.Policy
import Pfsim.Simulator.Reachable

/-!
# Fast forward

The simulator jumps over idle time; the plain simulator, which does not, passes it
tick by tick. A jump is a run of ticks of the plain simulator
(`Sim.exists_idle_run`), so that the simulator coalesces its silent steps
(`Setup.coalesces`). The plain simulator takes an iteration for every nanosecond,
which makes its statistics easy to account for (`Setup.plain_accounts`).

* `fast_forward`: both simulators do the same things, at the same times and from
  the same states, and end in the same way, with the statistics accounted for
  nanosecond by nanosecond.
-/

namespace Pfsim

open Machine

variable {R : ReplaceModule} [R.Lawful] {c : Setup} {s s' s₀ : Sim R} {e : Event} {b : ProcId}
  {bs : List ProcId}

namespace Sim

/-! ## A jump, tick by tick -/

/-- After `n` ticks of idle time, `b` being the process to wait for. -/
def idled (s : Sim R) (b : ProcId) (n : ℕ) : Sim R :=
  (s.pass n).modify b fun p => { p with waitTime := p.waitTime - n }

omit [R.Lawful] in
theorem idled_zero : s.idled b 0 = s := by
  simp [idled, modify, pass, Processes.modify, Stat.default]

omit [R.Lawful] in
theorem tick_eq_idled (hb : s.ps.peek .BLOCKED = some b) : s.tick = s.idled b 1 := by
  rw [tick, countDown, show (s.pass CLOCK_TICK).ps.peek .BLOCKED = some b from hb]
  rfl

omit [R.Lawful] in
theorem idled_idled (m n : ℕ) : (s.idled b m).idled b n = s.idled b (m + n) := by
  simp only [idled, modify, pass, Processes.modify, Function.update_self, Function.update_idem,
    Stat.default, Nat.mul_add, Nat.sub_sub, Nat.add_assoc]
  rfl

omit [R.Lawful] in
/-- The jump leaves the simulator as all its ticks do. -/
theorem skipped_eq_idled (hb : s.ps.pq .BLOCKED = b :: bs) (hd : s.tick.ioDue = false) :
    s.tick.skipped b = s.idled b ((s.ps.procs b).waitTime - 1) := by
  have hpeek : s.ps.peek .BLOCKED = some b := by rw [Processes.peek, hb, List.head?_cons]
  have hne := mt (ioDue_tick_iff hb).2 (by simp [hd])
  have hskip {u : Sim R} (hu : (u.ps.procs b).waitTime ≠ 0) :
      u.skipped b = u.idled b ((u.ps.procs b).waitTime - 1) := by
    have hone : (u.ps.procs b).waitTime - ((u.ps.procs b).waitTime - 1) = 1 := by omega
    simp only [skipped, idled, modify, pass, Processes.modify, hone]
  have hwait : (s.tick.ps.procs b).waitTime = (s.ps.procs b).waitTime - 1 := by
    simp [tickedTime_head hb]
  rw [hskip (by rwa [hwait]), hwait, tick_eq_idled hpeek, idled_idled]
  congr 1
  omega

omit [R.Lawful] in
/-- A jump is a run of ticks of the plain simulator. -/
theorem exists_idle_run (hr : s.ps.pq .RUNNABLE = []) (hb : s.ps.pq .BLOCKED = b :: bs) {n : ℕ}
    (hn : n < (s.ps.procs b).waitTime) :
    ∃ us, (c.plainMachine R).Run s us (s.idled b n) ∧ us.length = n ∧
      ∀ u ∈ us, u.lbl = .idle := by
  have hpeek : s.ps.peek .BLOCKED = some b := by rw [Processes.peek, hb, List.head?_cons]
  induction n with
  | zero => exact ⟨[], idled_zero.symm ▸ .start, rfl, by simp⟩
  | succ n ih =>
    obtain ⟨us, hu, hlen, hidle⟩ := ih (by omega)
    have htick : (s.idled b n).tick = s.idled b (n + 1) := by
      rw [tick_eq_idled (s := s.idled b n) hpeek, idled_idled]
    -- The timer is not over yet, and nothing is runnable: this tick is idle as well.
    have hd : (s.idled b (n + 1)).ioDue = false := by
      have hp : (s.idled b (n + 1)).ps.peek .BLOCKED = some b := hpeek
      have hw : ((s.idled b (n + 1)).ps.procs b).waitTime ≠ 0 := by
        simp only [idled, modify, Processes.modify_self]
        exact Nat.sub_ne_zero_of_lt hn
      simpa [ioDue, hp] using hw
    have hstep : (s.idled b n).step c false = .ok (.idle, s.idled b (n + 1)) := by
      have hpr : (s.idled b (n + 1)).ps.peek .RUNNABLE = none := congrArg List.head? hr
      rw [step_eq, htick, hd, hpr]
      rfl
    have hrun : (s.idled b n).notDone = true := by
      have hp : (s.idled b n).ps.pq .BLOCKED = b :: bs := hb
      simp [notDone, Processes.existsWithStatus, hp]
    refine ⟨us ++ [⟨_, _, _⟩], hu.step hrun hstep, by simp [hlen], fun u hu => ?_⟩
    rcases List.mem_append.1 hu with hu | hu
    · exact hidle u hu
    · rw [List.mem_singleton.1 hu]

/-! ## Both simulators -/

omit [R.Lawful] in
/-- Both take the same step, unless all processes are waiting. -/
theorem step_plain (h : s.tick.ioDue = true ∨ s.ps.pq .RUNNABLE ≠ []) :
    s.step c false = s.step c true := by
  rw [step_eq, step_eq]
  cases hd : s.tick.ioDue with
  | true => rw [if_pos rfl, if_pos rfl]
  | false =>
    rw [hd] at h
    obtain ⟨p, queue, hq⟩ := List.exists_cons_of_ne_nil (h.resolve_left (by simp))
    rw [Processes.peek, tick_pq, hq]
    rfl

omit [R.Lawful] in
/-- When they are, the plain simulator passes a tick. -/
theorem step_plain_idle (hd : s.tick.ioDue = false) (hr : s.ps.pq .RUNNABLE = []) :
    s.step c false = .ok (.idle, s.tick) := by
  rw [step_eq, hd, Processes.peek, tick_pq, hr]
  rfl

end Sim

/-- The simulator takes the steps of the plain one, but for its jumps over idle
    time. -/
theorem Setup.coalesces (c : Setup) (R : ReplaceModule) [R.Lawful] :
    Coalesces (c.machine R) (c.plainMachine R) Event.silent fun s => s.WellFormed c := by
  -- The two differ when no I/O is over and no process is runnable.
  have hcase (s : Sim R) (hrun : s.notDone = true) :
      (s.tick.ioDue = true ∨ s.ps.pq .RUNNABLE ≠ []) ∨ s.tick.ioDue = false ∧
        s.ps.pq .RUNNABLE = [] ∧ ∃ b bs, s.ps.pq .BLOCKED = b :: bs := by
    cases hd : s.tick.ioDue with
    | true => exact .inl (.inl rfl)
    | false =>
      by_cases hr : s.ps.pq .RUNNABLE = []
      · exact .inr ⟨rfl, hr, Sim.exists_blocked hrun hr⟩
      · exact .inl (.inr hr)
  refine ⟨fun _ => rfl, fun s stop hs hrun => ?_, fun s e s' hs hrun hstep => ?_⟩
  · change s.step c true = _ ↔ s.step c false = _
    rcases hcase s hrun with h | ⟨hd, hr, b, bs, hb⟩
    · rw [Sim.step_plain h]
    · rw [Sim.step_idle hd hr hb, Sim.step_plain_idle hd hr]
      exact iff_of_false nofun nofun
  · change s.step c true = _ at hstep
    rcases hcase s hrun with h | ⟨hd, hr, b, bs, hb⟩
    · refine .inl ⟨?_, (Sim.step_plain h).trans hstep⟩
      have hm := Sim.move_of_step hs hrun hstep
      cases e with
      | idle =>
        obtain ⟨b, bs, -, hd, hr, -⟩ := hm.idle_blocked
        rw [hd] at h
        exact absurd hr (h.resolve_left (by simp))
      | completion | hit | miss => rfl
    · -- The jump stops one nanosecond before the I/O is over, and so do the ticks of the
      -- plain simulator which it stands for.
      rw [Sim.step_idle hd hr hb] at hstep
      obtain ⟨rfl, rfl⟩ := Prod.mk.inj (Except.ok.inj hstep)
      have hne := mt (Sim.ioDue_tick_iff hb).2 (by simp [hd])
      obtain ⟨us, hu, hlen, hidle⟩ :=
        Sim.exists_idle_run (c := c) (n := (s.ps.procs b).waitTime - 1)
        hr hb (by omega)
      refine .inr ⟨rfl, us, fun hnil => hne ?_, Sim.skipped_eq_idled hb hd ▸ hu, fun u hm => ?_⟩
      · rw [hnil] at hlen
        exact hlen.symm
      · rw [hidle u hm]
        rfl

/-! ## Nanosecond by nanosecond -/

/-- A step of the plain simulator is a move, or a tick of idle time. -/
theorem Sim.plain_cases (hs : s.WellFormed c) (hrun : s.notDone = true)
    (h : s.step c false = .ok (e, s')) :
    s.Move c e s' ∧ e ≠ .idle ∨ e = .idle ∧ s' = s.tick := by
  by_cases hc : s.tick.ioDue = true ∨ s.ps.pq .RUNNABLE ≠ []
  · rw [Sim.step_plain hc] at h
    have hm := Sim.move_of_step hs hrun h
    refine .inl ⟨hm, ?_⟩
    rintro rfl
    obtain ⟨b, bs, -, hd, hr, -⟩ := hm.idle_blocked
    rw [hd] at hc
    exact hc.resolve_left (by simp) hr
  · push Not at hc
    rw [Sim.step_plain_idle (by simpa using hc.1) hc.2] at h
    obtain ⟨rfl, rfl⟩ := Prod.mk.inj (Except.ok.inj h)
    exact .inr ⟨rfl, rfl⟩

/-- What the plain simulator has counted: its steps are the nanoseconds of
    simulated time, in order. -/
structure Accounts (c : Setup) (us : List (Transition (Sim R) Event)) (s : Sim R) : Prop where
  wellFormed : s.WellFormed c
  time : s.time = us.length
  times : us.map (fun t => t.src.time) = List.range us.length
  tmu : s.stat.tmu = (us.map fun t => t.src.pager.mem.howManyAllocPages).sum
  trp : s.stat.trp = us.countP fun t => t.src.ps.existsWithStatus .RUNNABLE
  allocated : ∀ t ∈ us, t.src.pager.mem.howManyAllocPages ≤ c.frames

theorem Setup.plain_accounts (h₀ : c.start R = .ok s₀) {us : List (Transition (Sim R) Event)}
    (h : (c.plainMachine R).Run s₀ us s) : Accounts c us s := by
  refine h.invariant (I := fun _ => True) (J := Accounts c) (fun _ _ => trivial) ?_
    fun us s e s' _ ha hrun hstep => ?_
  · obtain ⟨ps, hp, rfl⟩ := Setup.start_eq h₀
    exact ⟨Setup.start_wellFormed h₀, rfl, rfl, rfl, rfl, by simp⟩
  · have hs := ha.wellFormed
    -- A move other than an idle jump takes a tick, and an idle iteration is a tick alone.
    have hnext : s'.WellFormed c ∧ s'.time = s.time + 1 ∧ s'.stat.tmu = s.tick.stat.tmu ∧
        s'.stat.trp = s.tick.stat.trp := by
      rcases Sim.plain_cases hs hrun hstep with ⟨hm, he⟩ | ⟨rfl, rfl⟩
      · refine ⟨hm.wellFormed hs, hm.time he, ?_⟩
        rw [hm.stat he]
        cases e <;> exact ⟨rfl, rfl⟩
      · exact ⟨hs.tick, Sim.tick_time, rfl, rfl⟩
    obtain ⟨hs', htime, htmu, htrp⟩ := hnext
    refine ⟨hs', ?_, ?_, ?_, ?_, fun t ht => ?_⟩
    · rw [htime, ha.time, List.length_append, List.length_singleton]
    · rw [List.map_append, ha.times, List.length_append, List.length_singleton, List.range_succ,
        ← ha.time]
      rfl
    · rw [htmu, List.map_append, List.sum_append, ← ha.tmu]
      simp [Stat.default]
    · rw [htrp, List.countP_append, ← ha.trp]
      simp [Stat.default, List.countP_singleton, Bool.toNat, Bool.cond_eq_ite]
    · rcases List.mem_append.1 ht with ht | ht
      · exact ha.allocated t ht
      · rw [List.mem_singleton.1 ht, ← hs.memSize]
        exact hs.pager.mem.allocated_le

/-- The simulator and the plain one do the same things: the iterations other than
    those of idle time are the same, from the same states and at the same times,
    and they return, or exit, in the same states. The plain one takes an iteration
    for each nanosecond; on return, the statistics are sums over them. In both, the
    write of a process which finishes into the one which finished before, and is
    freed, is taken to touch nothing else. -/
theorem fast_forward (c : Setup) (π : Policy) {s₀ : Sim π.replace}
    (h₀ : c.start π.replace = .ok s₀) :
    (∀ ts s, (c.machine π.replace).Run s₀ ts s → ∃ us, (c.plainMachine π.replace).Run s₀ us s ∧
      visible Event.silent us = visible Event.silent ts) ∧
    (∀ us r, (c.plainMachine π.replace).Run s₀ us r → ∃ ts s vs,
      (c.machine π.replace).Run s₀ ts s ∧ (c.plainMachine π.replace).Run s vs r ∧
      (∀ v ∈ vs, v.lbl.silent = true) ∧
      visible Event.silent ts = visible Event.silent us) ∧
    (∀ s vis, (∃ ts, (c.machine π.replace).Returns s₀ ts s ∧ visible Event.silent ts = vis) ↔
      ∃ us, (c.plainMachine π.replace).Returns s₀ us s ∧ visible Event.silent us = vis) ∧
    (∀ s stop vis,
      (∃ ts, (c.machine π.replace).Stops s₀ ts s stop ∧ visible Event.silent ts = vis) ↔
      ∃ us, (c.plainMachine π.replace).Stops s₀ us s stop ∧ visible Event.silent us = vis) ∧
    ∀ ts s, (c.machine π.replace).Returns s₀ ts s →
      ∃ us, (c.plainMachine π.replace).Returns s₀ us s ∧
        us.map (fun t => t.src.time) = List.range s.time ∧
        s.stat.tmu = (us.map fun t => t.src.pager.mem.howManyAllocPages).sum ∧
        s.stat.trp = us.countP (fun t => t.src.ps.existsWithStatus .RUNNABLE) ∧
        s.stat.tmu ≤ c.frames * s.time ∧ s.stat.trp ≤ s.time := by
  have hc := c.coalesces π.replace
  have hI : ∀ s, (c.machine π.replace).Reachable s₀ s → s.WellFormed c := fun s hs =>
    Setup.Reachable.wellFormed ⟨s₀, h₀, hs⟩
  refine ⟨fun ts s h => hc.run hI h, fun us r h => ?_, fun s vis => hc.returns_iff hI,
    fun s stop vis => hc.stops_iff hI, fun ts s h => ?_⟩
  · obtain ⟨ts, s, vs, ht, hv, hsil, hvis, -⟩ := hc.run_back hI h
    exact ⟨ts, s, vs, ht, hv, hsil, hvis⟩
  · -- The sums are over the iterations of the plain run which returns in the same state.
    obtain ⟨us, hu, -⟩ := (hc.returns_iff hI).1 ⟨ts, h, rfl⟩
    have ha := Setup.plain_accounts h₀ hu.1
    refine ⟨us, hu, ha.time ▸ ha.times, ha.tmu, ha.trp, ?_, ?_⟩
    · rw [ha.tmu, ha.time, Nat.mul_comm, ← smul_eq_mul,
        ← List.length_map (fun t => t.src.pager.mem.howManyAllocPages)]
      exact List.sum_le_card_nsmul _ _ (by simpa using ha.allocated)
    · rw [ha.trp, ha.time]
      exact List.countP_le_length

/-- With a penalty of `50`, the idle time makes the difference between 12 iterations and 152. -/
theorem fast_forward_sample : ∃ (c : Setup) (s₀ s : Sim Policy.fifo.replace) (ts us : _),
    c.diskPenalty = 50 ∧ c.start Policy.fifo.replace = .ok s₀ ∧
      (c.machine Policy.fifo.replace).Returns s₀ ts s ∧ ts.length = 12 ∧
      (c.plainMachine Policy.fifo.replace).Returns s₀ us s ∧ us.length = 152 ∧
      s.stat.tmu = (us.map fun t => t.src.pager.mem.howManyAllocPages).sum := by
  let c : Setup := .debug 50 32 Setup.sample.text (by decide) Setup.word_pos
  obtain ⟨s₀, ts, s, h₀, h, hlen, hs⟩ := Setup.exists_run_of_after (R := Policy.fifo.replace)
    (c := c) (n := 12) (P := fun s => !s.notDone && s.time == 152) (by decide +kernel)
  obtain ⟨hdone, htime⟩ : s.notDone = false ∧ s.time = 152 := by simpa using hs
  have hret : (c.machine Policy.fifo.replace).Returns s₀ ts s := ⟨h, hdone⟩
  obtain ⟨us, hu, htimes, htmu, -⟩ := (fast_forward c .fifo h₀).2.2.2.2 ts s hret
  have hlen' : us.length = 152 := by
    rw [← List.length_map (fun t => t.src.time), htimes, List.length_range, htime]
  exact ⟨c, s₀, s, ts, us, rfl, h₀, hret, hlen, hu, hlen', htmu⟩

end Pfsim
