import Pfsim.Replace.Policy
import Pfsim.Simulator.Reachable

/-!
# Termination

A fault is retried, and the page it has loaded may be evicted before that, so
nothing obvious decreases until the next hit. But a disk operation is longer than
what a process needs to fault again: while the disk works the runnable processes
fault one after the other, and when there is none left the next one to resume is
alone, and finds its page in memory (`Sim.Primed`). Thus the iterations decrease a
lexicographic rank (`Sim.rank`):

* the lines left to run, which only hits take;
* the runnable processes that are too many to all fault before the disk timer is
  over (`Sim.crowd`);
* whether a process is about to hit;
* the time until the disk timer is over (`Sim.untilDue`).

* `simulation_halts`: from any reachable state, the loop ends.
-/

namespace Pfsim

variable {R : ReplaceModule} [R.Lawful] {c : Setup} {s s' u : Sim R} {e : Event} {r : Reference}
  {q b : ProcId} {bs : List ProcId}

namespace Sim

/-! ## The rank -/

/-- The time until the disk timer is over, or would be if the disk started now. -/
def untilDue (c : Setup) (s : Sim R) : ℕ :=
  match s.ps.peek .BLOCKED with
  | none => c.diskPenalty + 1
  | some b => (s.ps.procs b).waitTime

/-- How many more runnable processes there are than ticks before the disk timer
    is over. -/
def crowd (c : Setup) (s : Sim R) : ℕ := (s.ps.pq .RUNNABLE).length - (s.untilDue c - 1)

/-- The only runnable process `q` is to run next, and the page of the record at its
    position is in memory. -/
structure Primed (c : Setup) (s : Sim R) (q : ProcId) : Prop where
  alone : s.ps.pq .RUNNABLE = [q]
  notDue : s.tick.ioDue = false
  cursor : s.p = some q → s.cursor = (s.ps.procs q).currentPos
  page : ∃ pid vpn rest v,
    fscanf simulatorFormat (c.text.drop (s.ps.procs q).currentPos) = ⟨2, [pid, vpn], rest⟩ ∧
      (s.ps.procs q).getVirtualPage vpn = some v ∧ s.pager.mem.Resident v

open Classical in
/-- What the iterations decrease. -/
noncomputable def rank (c : Setup) (s : Sim R) : ℕ ×ₗ ℕ ×ₗ ℕ ×ₗ ℕ :=
  toLex (s.linesLeft, toLex (s.crowd c, toLex (if ∃ q, s.Primed c q then 0 else 1, s.untilDue c)))

omit [R.Lawful] in
theorem untilDue_cons (hb : s.ps.pq .BLOCKED = b :: bs) :
    s.untilDue c = (s.ps.procs b).waitTime := by
  simp only [untilDue, Processes.peek, hb, List.head?_cons]

omit [R.Lawful] in
theorem untilDue_nil (hb : s.ps.pq .BLOCKED = []) : s.untilDue c = c.diskPenalty + 1 := by
  simp only [untilDue, Processes.peek, hb, List.head?_nil]

omit [R.Lawful] in
theorem ioDue_of_untilDue (h : 2 ≤ s.untilDue c) : s.tick.ioDue = false := by
  cases hb : s.ps.pq .BLOCKED with
  | nil => simp [ioDue, Processes.peek, hb]
  | cons b bs =>
    rw [untilDue_cons hb] at h
    have hd := mt (ioDue_tick_iff hb).1 (by omega)
    simpa using hd

/-! ## Primed processes -/

omit [R.Lawful] in
theorem Primed.runnable_ne_nil (h : s.Primed c q) : s.ps.pq .RUNNABLE ≠ [] := by
  rw [h.alone]
  exact List.cons_ne_nil _ _

omit [R.Lawful] in
theorem Primed.unique {q' : ProcId} (h : s.Primed c q) (hq : s.ps.pq .RUNNABLE = q' :: bs) :
    q' = q := by
  rw [h.alone] at hq
  exact (List.cons.inj hq).1.symm

omit [R.Lawful] in
/-- A reference to a page the process has: nothing changes in memory. -/
theorem Reads.of_page (h : s.Reads c r u) {v : PageId}
    (hv : (s.ps.procs r.p).getVirtualPage r.vpn = some v) : u.pager = s.pager ∧ r.v = v := by
  obtain ⟨rest, -, rfl⟩ := h.scan
  have hread : ((s.tick.reading c r.p r.pid rest).ps.procs r.p).getVirtualPage r.vpn = some v := by
    rw [show (s.tick.reading c r.p r.pid rest).ps = s.tick.ps from rfl, tick_procs]
    exact hv
  have hpaged : (s.tick.reading c r.p r.pid rest).paged r.p r.vpn =
      s.tick.reading c r.p r.pid rest := by
    rw [paged, hread]
  refine ⟨?_, ?_⟩
  · rw [hpaged]
    exact tick_pager
  · have hpage := h.page
    rw [hpaged, hread] at hpage
    exact (Option.some.inj hpage).symm

omit [R.Lawful] in
/-- A primed process does not fault. -/
theorem Primed.not_miss (h : s.Primed c q) : ¬s.Move c (.miss r) s' := by
  intro hm
  cases hm with
  | @miss r u hr hres =>
    obtain ⟨hs, hq⟩ := hr.head
    obtain rfl : r.p = q := h.unique hq
    have hpos : s.position r.p = (s.ps.procs r.p).currentPos := by
      rw [position]
      split
      · next hp => exact h.cursor hp
      · rfl
    obtain ⟨pid, vpn, rest, v, hscan, hv, hvr⟩ := h.page
    obtain ⟨rest', hscan', -⟩ := hr.scan
    rw [hr.fpos, hpos, hscan] at hscan'
    obtain rfl : vpn = r.vpn := (List.cons.inj (List.cons.inj (Scanned.mk.inj hscan').2.1).2).1
    obtain ⟨hpager, rfl⟩ := hr.of_page hv
    exact hres (hpager ▸ hvr)

/-- A process which resumes when no other one is runnable is primed. -/
theorem Move.primed {v : PageId} {ppn : ℕ} {victim : Option PageId}
    (h : s.Move c (.completion q v ppn victim) s') (hs : s.WellFormed c)
    (hr : s.ps.pq .RUNNABLE = []) (hd : s'.tick.ioDue = false) : s'.Primed c q := by
  obtain ⟨hp, hq, hcur, -⟩ := h.completion_proc
  obtain ⟨bs, hb, -, hv, -⟩ := h.completion_blocked
  have hmem : q ∈ s.ps.pq .BLOCKED := hb ▸ List.mem_cons_self
  obtain ⟨pid, vpn, rest, v', hscan, hv', hget, -⟩ :=
    (hs.settled (hs.ps.lt hmem)).awaits (hs.ps.status hmem)
  obtain rfl : v = v' := Option.some.inj (hv.symm.trans hv')
  refine ⟨by rw [hq, hr]; rfl, hd, fun _ => by rw [hcur, hp], pid, vpn, rest, v, ?_, ?_, ?_⟩
  · rw [hp]
    exact hscan
  · rw [hp]
    exact hget
  · exact ((h.loads hs).resident v).2 (.inl rfl)

/-! ## The decrease -/

theorem Move.untilDue_miss (h : s.Move c (.miss r) s') (hs : s.WellFormed c) (ht : s.Timed c) :
    s.untilDue c = s'.untilDue c + 1 ∧ 1 ≤ s'.untilDue c := by
  have hD := c.diskPenalty_pos
  obtain ⟨hb', hw, -⟩ := h.miss_blocked
  cases hb : s.ps.pq .BLOCKED with
  | nil =>
    rw [hb, List.nil_append] at hb'
    rw [untilDue_nil hb, untilDue_cons hb', hw]
    exact ⟨rfl, hD⟩
  | cons b bs =>
    have hne : (Event.miss r).proc ≠ some b :=
      h.proc_ne hs (by simp [hb]) (by rw [hb', hb]; simp)
    rw [hb, List.cons_append] at hb'
    have hlt := ht.head_lt hb h.miss_notDue
    rw [untilDue_cons hb, untilDue_cons hb', (h.spared hne).waitTime, timer_eq (by simp),
      tickedTime_head hb]
    omega

theorem Move.untilDue_completion {v : PageId} {ppn : ℕ} {victim : Option PageId}
    (h : s.Move c (.completion q v ppn victim) s') (hs : s.WellFormed c) (ht : s.Timed c) :
    s.untilDue c = 1 ∧ c.diskPenalty ≤ s'.untilDue c := by
  obtain ⟨bs, hb, hd, -, hb'⟩ := h.completion_blocked
  refine ⟨(untilDue_cons hb).trans (ht.head_eq hb hd), ?_⟩
  cases bs with
  | nil =>
    rw [untilDue_nil hb']
    exact Nat.le_succ _
  | cons a as =>
    have hne : (Event.completion q v ppn victim).proc ≠ some a :=
      h.proc_ne hs (by simp [hb]) (by simp [hb'])
    rw [untilDue_cons hb', h.waitTime_rest hs ht hb (by simp) hne]

/-- When a process resumes, the disk timer, if it runs, is not over within a tick or two,
    unless the disk penalty is short; if it is, with a single process no timer runs. -/
theorem Move.untilDue_resumed (hD : 3 ≤ c.diskPenalty ∨ s.ps.nextProc ≤ 1) {v : PageId} {ppn : ℕ}
    {victim : Option PageId} (h : s.Move c (.completion q v ppn victim) s') (hs : s.WellFormed c)
    (ht : s.Timed c) : 3 ≤ s'.untilDue c ∨ s.ps.pq .RUNNABLE = [] ∧ s'.ps.pq .BLOCKED = [] := by
  obtain ⟨hu, hu'⟩ := h.untilDue_completion hs ht
  rcases hD with hD | h1
  · exact .inl (hD.trans hu')
  · obtain ⟨bs, hb, -⟩ := h.completion_blocked
    obtain ⟨-, hq, -⟩ := h.completion_proc
    refine .inr ⟨(hs.single h1).resolve_right (by simp [hb]), ?_⟩
    refine ((h.wellFormed hs).single (h.nextProc ▸ h1)).resolve_left fun hr => ?_
    have := congrArg List.length (hq.symm.trans hr)
    simp [List.orderedInsert_length] at this

/-- A fault moves a process out of the crowd, and the timer forwards. -/
theorem Move.rank_lt_miss (h : s.Move c (.miss r) s') (hs : s.WellFormed c) (ht : s.Timed c) :
    s'.rank c < s.rank c := by
  obtain ⟨hu, hu'⟩ := h.untilDue_miss hs ht
  obtain ⟨queue, hq, hq'⟩ := h.runnable_of_miss
  have hcrowd : s'.crowd c = s.crowd c := by
    rw [crowd, crowd, hq, hq', hu, List.length_cons]
    omega
  -- The process faults, so it was not primed.
  have hprimed : ¬∃ q, s.Primed c q := fun ⟨q, hp⟩ => hp.not_miss h
  rw [rank, rank, Prod.Lex.toLex_lt_toLex]
  refine .inr ⟨h.linesLeft_eq hs (by simp), ?_⟩
  rw [Prod.Lex.toLex_lt_toLex]
  refine .inr ⟨hcrowd, Prod.Lex.toLex_lt_toLex'.2 ⟨?_, fun _ => by dsimp only; omega⟩⟩
  dsimp only
  rw [if_neg hprimed]
  split <;> omega

/-- With nothing to run, the timer moves forwards. -/
theorem Move.rank_lt_idle (h : s.Move c .idle s') (hs : s.WellFormed c) (ht : s.Timed c) :
    s'.rank c < s.rank c := by
  obtain ⟨b, bs, hb, hd, hr, hpq⟩ := h.idle_blocked
  have hlt := ht.head_lt hb hd
  have hcrowd : s'.crowd c = s.crowd c := by
    rw [crowd, crowd, hpq, hr, List.length_nil, Nat.zero_sub, Nat.zero_sub]
  have hprimed : ¬∃ q, s.Primed c q := fun ⟨q, hp⟩ => hp.runnable_ne_nil hr
  rw [rank, rank, Prod.Lex.toLex_lt_toLex]
  refine .inr ⟨h.linesLeft_eq hs (by simp), ?_⟩
  rw [Prod.Lex.toLex_lt_toLex]
  refine .inr ⟨hcrowd, Prod.Lex.toLex_lt_toLex'.2 ⟨?_, fun _ => ?_⟩⟩ <;> dsimp only
  · rw [if_neg hprimed]
    split <;> omega
  · rw [untilDue_cons hb, untilDue_cons ((congrFun hpq _).trans hb), (h.time_idle hb).2]
    exact hlt

/-- The process which resumes joins the others, who have the time to fault before the
    timer is over, or it is alone and about to hit. -/
theorem Move.rank_lt_completion (hD : 3 ≤ c.diskPenalty ∨ s.ps.nextProc ≤ 1) {v : PageId}
    {ppn : ℕ} {victim : Option PageId} (h : s.Move c (.completion q v ppn victim) s')
    (hs : s.WellFormed c) (ht : s.Timed c) : s'.rank c < s.rank c := by
  obtain ⟨hu, -⟩ := h.untilDue_completion hs ht
  have hu' := h.untilDue_resumed hD hs ht
  obtain ⟨-, hq, -⟩ := h.completion_proc
  have hlen : (s'.ps.pq .RUNNABLE).length = (s.ps.pq .RUNNABLE).length + 1 := by
    rw [hq, List.orderedInsert_length]
  rw [rank, rank, Prod.Lex.toLex_lt_toLex]
  refine .inr ⟨h.linesLeft_eq hs (by simp), ?_⟩
  rw [Prod.Lex.toLex_lt_toLex]
  dsimp only
  rw [crowd, crowd, hlen, hu]
  by_cases hr : s.ps.pq .RUNNABLE = []
  · have hpos := c.diskPenalty_pos
    have hu₂ : 2 ≤ s'.untilDue c := by
      rcases hu' with hu' | ⟨-, hb⟩
      · omega
      · rw [untilDue_nil hb]
        omega
    -- Neither state has a crowd, and the process is primed, which nobody was.
    have hprimed : ¬∃ q, s.Primed c q := fun ⟨q, hp⟩ => hp.runnable_ne_nil hr
    refine .inr ⟨by rw [hr, List.length_nil]; omega, ?_⟩
    rw [if_neg hprimed, if_pos ⟨q, h.primed hs hr (ioDue_of_untilDue hu₂)⟩,
      Prod.Lex.toLex_lt_toLex]
    exact .inl (by simp)
  · -- The timer was about to be over: all the others were in the crowd.
    have hpos := List.length_pos_iff.2 hr
    have hu' := hu'.resolve_right fun h => hr h.1
    left
    omega

/-- Every iteration decreases the rank. -/
theorem Move.rank_lt (hD : 3 ≤ c.diskPenalty ∨ s.ps.nextProc ≤ 1) (h : s.Move c e s')
    (hs : s.WellFormed c) (ht : s.Timed c) : s'.rank c < s.rank c := by
  cases e with
  | hit r =>
    have hlines := h.linesLeft_hit hs
    rw [rank, rank, Prod.Lex.toLex_lt_toLex]
    left
    dsimp only
    omega
  | miss r => exact h.rank_lt_miss hs ht
  | idle => exact h.rank_lt_idle hs ht
  | completion q v ppn victim => exact h.rank_lt_completion hD hs ht

end Sim

/-! ## The end -/

/-- From any reachable state, the loop ends, if the disk penalty is long enough or there is
    a single process: by returning, by an exit, or where what `malloc` left is used. -/
theorem Setup.Reachable.halts (h : c.Reachable R s)
    (hD : 3 ≤ c.diskPenalty ∨ s.ps.nextProc ≤ 1) :
    ∃ ts s', (c.machine R).Returns s ts s' ∨
      (∃ msg, (c.machine R).Stops s ts s' (.exitFailure msg)) ∨
      s'.Unwritten c ∧ ∃ what, (c.machine R).Stops s ts s' (.undefined what) := by
  have hhalts : (c.machine R).Halts s := by
    refine Machine.halts_of_wellFounded (r := (· < ·)) wellFounded_lt (Sim.rank c)
      (I := fun s => s.WellFormed c ∧ s.Timed c ∧ (3 ≤ c.diskPenalty ∨ s.ps.nextProc ≤ 1))
      ⟨h.wellFormed, h.timed, hD⟩ fun s e s' ⟨hs, ht, hD⟩ hr hstep => ?_
    have hm := Sim.move_of_step hs hr hstep
    exact ⟨⟨hm.wellFormed hs, hm.timed hs ht, by rwa [hm.nextProc]⟩, hm.rank_lt hD hs ht⟩
  obtain ⟨ts, s', hret | ⟨stop, hrun, hr, hstop⟩⟩ := hhalts
  · exact ⟨ts, s', .inl hret⟩
  · have hs' : c.Reachable R s' := h.imp fun s₀ h => ⟨h.1, h.2.trans hrun.reachable⟩
    rcases hs'.step_ne_error hr hstop with ⟨msg, rfl⟩ | ⟨hun, what, rfl⟩
    · exact ⟨ts, s', .inr (.inl ⟨msg, hrun, hr, hstop⟩)⟩
    · exact ⟨ts, s', .inr (.inr ⟨hun, what, hrun, hr, hstop⟩)⟩

/-- If it uses nothing that `malloc` left, it ends by returning, or by an exit. -/
theorem Setup.Reachable.ends (h : c.Reachable R s) (hD : 3 ≤ c.diskPenalty ∨ s.ps.nextProc ≤ 1)
    (hun : ∀ s', (c.machine R).Reachable s s' → ¬s'.Unwritten c) :
    ∃ ts s', (c.machine R).Returns s ts s' ∨
      ∃ msg, (c.machine R).Stops s ts s' (.exitFailure msg) := by
  obtain ⟨ts, s', hret | hexit | ⟨hs', what, hrun, -⟩⟩ := h.halts hD
  · exact ⟨ts, s', .inl hret⟩
  · exact ⟨ts, s', .inr hexit⟩
  · exact absurd hs' (hun s' hrun.reachable)

omit [R.Lawful] in
/-- A process is about to be run there. -/
theorem Sim.Unwritten.notDone (h : s.Unwritten c) : s.notDone = true := by
  obtain ⟨p, queue, -, -, -, hq, -⟩ := h.search
  simp [Sim.notDone, Processes.existsWithStatus, hq]

/-- A run which reaches such a state does not end otherwise. -/
theorem Setup.Reachable.not_ends (h : c.Reachable R s) (hrun : (c.machine R).Reachable s u)
    (hun : u.Unwritten c) {ts : List (Machine.Transition (Sim R) Event)} :
    ¬((c.machine R).Returns s ts s' ∨ ∃ msg, (c.machine R).Stops s ts s' (.exitFailure msg)) := by
  have hu : c.Reachable R u := h.imp fun s₀ h => ⟨h.1, h.2.trans hrun⟩
  obtain ⟨us, hus⟩ := hrun
  obtain ⟨what, hwhat⟩ := hun.step_eq hu.wellFormed true
  have hstop : (c.machine R).Stops s us u (.undefined what) := ⟨hus, hun.notDone, hwhat⟩
  rintro (hret | ⟨msg, hexit⟩)
  · exact hstop.not_returns hret
  · cases hstop.unique hexit

/-- From any reachable state, the loop ends, and so it is with the disk penalty of the program,
    and with any of three ticks or more. It ends by returning, or by an exit, exactly if no
    iteration on the way is the first to look into the page table of a process whose root
    `malloc` has not left `NULL` (or, with assertions, to make a page whose overhead it has not
    left `NULL`, under LRU and FIFO). The write of a process which finishes into the one which
    finished before, and is freed, is taken to touch nothing else. -/
theorem simulation_halts (c : Setup) (π : Policy) (hD : 3 ≤ c.diskPenalty) {s : Sim π.replace}
    (h : c.Reachable π.replace s) : (c.machine π.replace).Halts s ∧
      ((∃ ts s', (c.machine π.replace).Returns s ts s' ∨
          ∃ msg, (c.machine π.replace).Stops s ts s' (.exitFailure msg)) ↔
        ∀ s', (c.machine π.replace).Reachable s s' → ¬s'.Unwritten c) := by
  refine ⟨?_, fun ⟨ts, s', hend⟩ u hu hun => h.not_ends hu hun hend, h.ends (.inl hD)⟩
  obtain ⟨ts, s', hret | ⟨msg, hexit⟩ | ⟨-, what, hstop⟩⟩ := h.halts (.inl hD)
  · exact ⟨ts, s', .inl hret⟩
  · exact ⟨ts, s', .inr ⟨_, hexit⟩⟩
  · exact ⟨ts, s', .inr ⟨_, hstop⟩⟩

/-- The penalty of the program, and two processes with a page each. -/
def Setup.shipped : Setup :=
  .debug DISK_PENALTY 32 ['1', ' ', '1', '\n', '2', ' ', '1', '\n'] DISK_PENALTY_pos Setup.word_pos

theorem Setup.shipped_blank : Setup.shipped.Blank := debug_blank _ _

theorem simulation_halts_shipped : ∃ s₀ : Sim Policy.clock.replace,
    Setup.shipped.start Policy.clock.replace = .ok s₀ ∧
      ∃ ts s', (Setup.shipped.machine Policy.clock.replace).Returns s₀ ts s' ∨
        ∃ msg, (Setup.shipped.machine Policy.clock.replace).Stops s₀ ts s' (.exitFailure msg) := by
  obtain ⟨s₀, ts, s, h₀, h, -⟩ := Setup.exists_run_of_after (R := Policy.clock.replace)
    (c := .shipped) (n := 0) (P := fun _ => true) (by decide +kernel)
  exact ⟨s₀, h₀, (simulation_halts .shipped .clock (by decide) ⟨s₀, h₀, .refl⟩).2.2
    fun s _ => Setup.shipped_blank.not_unwritten s⟩

/-- A record whose page number has leading zeros. -/
def Trace.zeros : Trace where
  records := [{
    gap := []
    pidDigits := ['1']
    sep := [' ']
    vpnDigits := List.replicate 1100 '0' ++ ['1']
    gap_space := gap_nil
    sep_space := sep_blank
    sep_ne_nil := blank_ne_nil
    pid_digit := one_isDigit
    vpn_digit x hx := by
      rcases List.mem_append.1 hx with hx | hx
      · rw [List.eq_of_mem_replicate hx]
        rfl
      · exact one_isDigit x hx
    pid_ne_nil := one_ne_nil
    vpn_ne_nil := List.append_ne_nil_of_right_ne_nil _ one_ne_nil
    pid_le := one_le
    vpn_le := by decide +kernel
    pid_ne_zero := one_ne_zero }]
  trailing := ['\n']
  gaps _ hr := absurd hr List.not_mem_nil
  trailing_space := gap_newline

/-- The buffer in which `fscanf` gathers the zeros is freed, and where `malloc` places the root
    of the page table afterwards, they are still there. -/
def Setup.zeros : Setup where
  ndebug := true
  diskPenalty := DISK_PENALTY
  diskPenalty_pos := DISK_PENALTY_pos
  frames := 256
  frames_pos := by decide
  text := Trace.zeros.text
  slot _ := 0
  root _ := 0x3030303030303030
  overhead _ := 0
  tdestroy pt := pt
  tdestroy_perm := PageTable.perm_refl

theorem simulation_halts_fails : ∃ s₀ : Sim Policy.fifo.replace,
    Setup.zeros.start Policy.fifo.replace = .ok s₀ ∧
      ¬∃ ts s', (Setup.zeros.machine Policy.fifo.replace).Returns s₀ ts s' ∨
        ∃ msg, (Setup.zeros.machine Policy.fifo.replace).Stops s₀ ts s' (.exitFailure msg) := by
  obtain ⟨s₀, ts, s, h₀, h, -, hs⟩ := Setup.exists_run_of_after (R := Policy.fifo.replace)
    (c := .zeros) (n := 0) (P := fun s => s.notDone && match s.step Setup.zeros true with
      | .error (.undefined _) => true
      | _ => false) (by decide +kernel)
  obtain ⟨what, hstop⟩ : ∃ what,
      (Setup.zeros.machine Policy.fifo.replace).Stops s₀ ts s (.undefined what) := by
    rw [Bool.and_eq_true] at hs
    obtain ⟨hr, hs⟩ := hs
    split at hs
    · next what hwhat => exact ⟨what, h, hr, hwhat⟩
    · cases hs
  refine ⟨s₀, h₀, ?_⟩
  rintro ⟨us, s', hret | ⟨msg, hexit⟩⟩
  · exact hstop.not_returns hret
  · cases hstop.unique hexit

end Pfsim
