import Pfsim.Machine.Run
import Pfsim.Simulator.Effects
import Pfsim.TraceParser.FirstPass

/-!
# Reachable states

The states at the head of the simulation loop are well formed, whatever the
trace file (`Setup.Reachable.wellFormed`), and so are the timers of the blocked
processes (`Sim.Timed`): the first one is between `1` and the disk penalty, the
others have not started. Thus the iterations of a run are moves
(`Setup.move_of_mem`), and what holds at the start and is preserved by the moves
holds throughout (`Setup.Reachable.invariant`, `Setup.run_invariant`).
-/

namespace Pfsim

variable {R : ReplaceModule} [R.Lawful] {c : Setup} {s s' s₀ : Sim R} {e : Event}

/-! ## The start -/

theorem Process.Fresh.settled {p : Process} (h : p.Fresh) (mem : Memory) : p.Settled c mem where
  keys _ := by rw [h.pageTable]; exact List.nodup_nil
  page _ _ _ hv := by rw [h.pageTable] at hv; cases hv
  awaits hs := by rw [h.status] at hs; cases hs
  ready _ := ⟨h.waitTime, h.waitingOnPage⟩

omit [R.Lawful] in
/-- The simulation starts with the processes of the first pass, which index the
    lines of the trace file. -/
theorem Setup.start_eq (h : c.start R = .ok s₀) :
    ∃ ps, firstPass c.slot c.text = .ok ps ∧ s₀ = .init R c ps := by
  rw [Setup.start] at h
  cases hp : firstPass c.slot c.text with
  | error e =>
    rw [hp] at h
    cases h
  | ok ps =>
    rw [hp, ok_bind] at h
    exact ⟨ps, rfl, (Except.ok.inj h).symm⟩

theorem Setup.start_wellFormed (h : c.start R = .ok s₀) : s₀.WellFormed c := by
  obtain ⟨ps, hp, rfl⟩ := Setup.start_eq h
  obtain ⟨n, hrec, -, hi⟩ := firstPass_indexed hp
  refine ⟨hi.wellFormed (fun k h1 hk => (hrec k h1 hk).1) fun j k hjk _ => lineStart_mono hjk,
    Pager.init_wellFormed c.frames_pos, rfl, fun hp => (hi.fresh hp).settled _⟩

omit [R.Lawful] in
/-- On a well-formed trace file, the processes index its records. -/
theorem Setup.start_indexed {tr : Trace} (htext : c.text = tr.text) (h : c.start R = .ok s₀) :
    ∃ ps, s₀ = .init R c ps ∧ Indexed tr.pid (lineStart tr.text) tr.length ps := by
  obtain ⟨ps, hp, rfl⟩ := Setup.start_eq h
  obtain ⟨ps', hp', hi⟩ := tr.exists_firstPass c.slot
  rw [htext, hp'] at hp
  obtain rfl := Except.ok.inj hp
  exact ⟨ps', rfl, hi⟩

omit [R.Lawful] in
/-- At the start, a process has all its lines left to run. -/
theorem Setup.remaining_start {pid start : ℕ → ℕ} {n : ℕ} {ps : Processes}
    (hi : Indexed pid start n ps) {p : ProcId} (hp : p < ps.nextProc) :
    (Sim.init R c ps).remaining p = (ps.procs p).lineIntervals.lines := by
  have hf := hi.fresh hp
  have hst : (ps.procs p).status ≠ .FINISHED := by simp [hf.status]
  exact (if_neg hst).trans hf.linesLeft

omit [R.Lawful] in
theorem Setup.linesLeft_start {pid start : ℕ → ℕ} {n : ℕ} {ps : Processes}
    (hi : Indexed pid start n ps) : (Sim.init R c ps).linesLeft = n := by
  rw [← hi.sum_length_lines, Sim.linesLeft]
  exact Finset.sum_congr rfl fun p hp => by rw [remaining_start hi (Finset.mem_range.1 hp)]

/-! ## Timers -/

namespace Sim

/-- The disk works for the first of the blocked processes: the others have the
    disk penalty to wait. -/
structure Timed (c : Setup) (s : Sim R) : Prop where
  head : ∀ {q bs}, s.ps.pq .BLOCKED = q :: bs →
    1 ≤ (s.ps.procs q).waitTime ∧ (s.ps.procs q).waitTime ≤ c.diskPenalty
  rest : ∀ {q bs}, s.ps.pq .BLOCKED = q :: bs → ∀ b ∈ bs,
    (s.ps.procs b).waitTime = c.diskPenalty

omit [R.Lawful] in
/-- Before the timer of the first one is over. -/
theorem Timed.head_lt (ht : s.Timed c) {q : ProcId} {bs : List ProcId}
    (hq : s.ps.pq .BLOCKED = q :: bs) (hd : s.tick.ioDue = false) :
    1 < (s.ps.procs q).waitTime := by
  have h1 := (ht.head hq).1
  have hne := mt (ioDue_tick_iff hq).2 (by simp [hd])
  omega

omit [R.Lawful] in
/-- When it is over. -/
theorem Timed.head_eq (ht : s.Timed c) {q : ProcId} {bs : List ProcId}
    (hq : s.ps.pq .BLOCKED = q :: bs) (hd : s.tick.ioDue = true) :
    (s.ps.procs q).waitTime = 1 := by
  have h1 := (ht.head hq).1
  have := (ioDue_tick_iff hq).1 hd
  omega

/-- A blocked process which is not the first one, nor that of the event. -/
theorem Move.waitTime_rest (h : s.Move c e s') (hs : s.WellFormed c) (ht : s.Timed c)
    {q b : ProcId} {bs : List ProcId} (hq : s.ps.pq .BLOCKED = q :: bs) (hb : b ∈ bs)
    (hne : e.proc ≠ some b) : (s'.ps.procs b).waitTime = c.diskPenalty := by
  have hpeek := peek_ne_of_mem hq (hs.ps.nodup _) hb
  rw [(h.spared hne).waitTime, timer, if_neg (by simp [hpeek]), tickedTime_eq hpeek,
    ht.rest hq b hb]

omit [R.Lawful] in
/-- The first one, if it goes on waiting. -/
theorem Move.waitTime_head (h : s.Move c e s') (ht : s.Timed c) {q : ProcId} {bs : List ProcId}
    (hq : s.ps.pq .BLOCKED = q :: bs) (hd : s.tick.ioDue = false) (hne : e.proc ≠ some q) :
    1 ≤ (s'.ps.procs q).waitTime ∧ (s'.ps.procs q).waitTime ≤ c.diskPenalty := by
  have hlt := ht.head_lt hq hd
  have hle := (ht.head hq).2
  rw [(h.spared hne).waitTime, timer, tickedTime_head hq]
  split <;> omega

theorem Move.timed (h : s.Move c e s') (hs : s.WellFormed c) (ht : s.Timed c) : s'.Timed c := by
  have hD := c.diskPenalty_pos
  have hne : ∀ b ∈ s'.ps.pq .BLOCKED, b ∈ s.ps.pq .BLOCKED → e.proc ≠ some b := fun b hb' hb =>
    h.proc_ne hs hb hb'
  cases e with
  | completion p v ppn victim =>
    -- The disk starts with the next process, whose penalty is untouched.
    obtain ⟨bs, hq, -, -, hb⟩ := h.completion_blocked
    have hrest : ∀ b ∈ bs, (s'.ps.procs b).waitTime = c.diskPenalty := fun b hm =>
      h.waitTime_rest hs ht hq hm (hne b (hb ▸ hm) (by simp [hq, hm]))
    refine ⟨fun {b bs'} hb' => ?_, fun {b bs'} hb' a ha => ?_⟩ <;> rw [hb] at hb' <;> subst hb'
    · rw [hrest b (by simp)]
      exact ⟨hD, le_rfl⟩
    · exact hrest a (by simp [ha])
  | idle =>
    obtain ⟨q, bs, hq, hd, -, hb⟩ := h.idle_blocked
    refine ⟨fun {b bs'} hb' => ?_, fun {b bs'} hb' a ha => ?_⟩ <;> rw [hb, hq] at hb' <;>
      obtain ⟨rfl, rfl⟩ := List.cons.inj hb'
    · exact h.waitTime_head ht hq hd (by simp [Event.proc])
    · exact h.waitTime_rest hs ht hq ha (by simp [Event.proc])
  | hit r =>
    have hb := h.hit_blocked
    refine ⟨fun {q bs} hq => ?_, fun {q bs} hq b hm => ?_⟩ <;> have hq' := hb ▸ hq
    · exact h.waitTime_head ht hq' h.hit_notDue (hne q (by simp [hq]) (by simp [hq']))
    · exact h.waitTime_rest hs ht hq' hm (hne b (by simp [hq, hm]) (by simp [hq', hm]))
  | miss r =>
    obtain ⟨hb, hwait, -⟩ := h.miss_blocked
    cases hq : s.ps.pq .BLOCKED with
    | nil =>
      -- The process blocked is the first one, and the disk starts with it.
      rw [hq, List.nil_append] at hb
      refine ⟨fun {q bs} hq' => ?_, fun {q bs} hq' b hb' => ?_⟩ <;> rw [hb] at hq' <;>
        obtain ⟨rfl, rfl⟩ := List.cons.inj hq'
      · rw [hwait]
        exact ⟨hD, le_rfl⟩
      · cases hb'
    | cons q bs =>
      -- It comes after those which are blocked already.
      rw [hq, List.cons_append] at hb
      refine ⟨fun {q' bs'} hq' => ?_, fun {q' bs'} hq' b hm => ?_⟩ <;> rw [hb] at hq' <;>
        obtain ⟨rfl, rfl⟩ := List.cons.inj hq'
      · exact h.waitTime_head ht hq h.miss_notDue (hne q (by simp [hb]) (by simp [hq]))
      · rcases List.mem_append.1 hm with hm | hm
        · exact h.waitTime_rest hs ht hq hm (hne b (by simp [hb, hm]) (by simp [hq, hm]))
        · rw [List.mem_singleton.1 hm, hwait]

end Sim

/-! ## Reachable states -/

omit [R.Lawful] in
theorem Setup.start_timed (h : c.start R = .ok s₀) : s₀.Timed c := by
  obtain ⟨ps, hp, rfl⟩ := Setup.start_eq h
  obtain ⟨n, -, -, hi⟩ := firstPass_indexed hp
  exact ⟨fun hq => (nomatch hi.blocked.symm.trans hq), fun hq => (nomatch hi.blocked.symm.trans hq)⟩

/-- An iteration from a well-formed state, without an exit, is a move. -/
theorem Sim.move_of_step (hs : s.WellFormed c) (hr : s.notDone = true)
    (h : s.step c true = .ok (e, s')) : s.Move c e s' := by
  rcases Sim.step_cases hs hr with ⟨e', s'', h', hm⟩ | ⟨-, msg, h'⟩ | ⟨-, what, h'⟩
  · rw [h'] at h
    cases h
    exact hm
  · cases h'.symm.trans h
  · cases h'.symm.trans h

namespace Setup

/-- What holds at the start of the simulation and is preserved by its moves
    holds throughout. -/
theorem Reachable.invariant {I : Sim R → Prop} (h : c.Reachable R s)
    (h₀ : ∀ s₀, c.start R = .ok s₀ → I s₀)
    (hI : ∀ s e s', s.WellFormed c → s.Timed c → I s → s.Move c e s' → I s') :
    s.WellFormed c ∧ s.Timed c ∧ I s := by
  obtain ⟨s₀, hs₀, h⟩ := h
  refine h.invariant (I := fun s => s.WellFormed c ∧ s.Timed c ∧ I s)
    ⟨start_wellFormed hs₀, start_timed hs₀, h₀ s₀ hs₀⟩ fun s e s' hs hr hstep => ?_
  obtain ⟨hw, ht, hi⟩ := hs
  have hm := Sim.move_of_step hw hr hstep
  exact ⟨hm.wellFormed hw, hm.timed hw ht, hI s e s' hw ht hi hm⟩

theorem Reachable.wellFormed (h : c.Reachable R s) : s.WellFormed c :=
  (h.invariant (I := fun _ => True) (fun _ _ => trivial) fun _ _ _ _ _ _ _ => trivial).1

theorem Reachable.timed (h : c.Reachable R s) : s.Timed c :=
  (h.invariant (I := fun _ => True) (fun _ _ => trivial) fun _ _ _ _ _ _ _ => trivial).2.1

/-- When the loop is over, all processes have finished. -/
theorem Reachable.finished (h : c.Reachable R s) (hr : s.notDone = false) {p : ProcId}
    (hp : p < s.ps.nextProc) : (s.ps.procs p).status = .FINISHED ∧ s.remaining p = [] := by
  have hst : (s.ps.procs p).status = .FINISHED := by
    by_contra hst
    rw [h.wellFormed.notDone_iff.2 ⟨p, hp, hst⟩] at hr
    cases hr
  exact ⟨hst, if_pos hst⟩

omit [R.Lawful] in
theorem Reachable.of_run {ts : List (Machine.Transition (Sim R) Event)} (h₀ : c.start R = .ok s₀)
    (h : (c.machine R).Run s₀ ts s) : c.Reachable R s := ⟨s₀, h₀, ts, h⟩

/-- The iterations of a run are moves. -/
theorem move_of_mem {ts : List (Machine.Transition (Sim R) Event)} (h₀ : c.start R = .ok s₀)
    (h : (c.machine R).Run s₀ ts s) {t : Machine.Transition (Sim R) Event} (ht : t ∈ ts) :
    c.Reachable R t.src ∧ t.src.Move c t.lbl t.dst := by
  obtain ⟨hr, hrun, hs⟩ := h.of_mem ht
  have hr : c.Reachable R t.src := ⟨s₀, h₀, hr⟩
  exact ⟨hr, Sim.move_of_step hr.wellFormed hrun hs⟩

/-- What relates the iterations of a run to the state reached. -/
theorem run_invariant {J : List (Machine.Transition (Sim R) Event) → Sim R → Prop}
    {ts : List (Machine.Transition (Sim R) Event)} (hs₀ : c.start R = .ok s₀)
    (h : (c.machine R).Run s₀ ts s) (h₀ : J [] s₀)
    (hJ : ∀ ts s e s', c.Reachable R s → J ts s → s.Move c e s' → J (ts ++ [⟨s, e, s'⟩]) s') :
    J ts s :=
  h.invariant (I := c.Reachable R) (fun _ h => ⟨s₀, hs₀, h⟩) h₀ fun ts s e s' hs hj hr hstep =>
    hJ ts s e s' hs hj (Sim.move_of_step hs.wellFormed hr hstep)

/-- No assertion fails, and nothing undefined happens but the use of what `malloc` left. -/
theorem Reachable.step_ne_error (h : c.Reachable R s) (hr : s.notDone = true) {stop : Stop}
    (hs : s.step c true = .error stop) :
    (∃ msg, stop = .exitFailure msg) ∨ s.Unwritten c ∧ ∃ what, stop = .undefined what := by
  rcases Sim.step_cases h.wellFormed hr with ⟨e, s', h', -⟩ | ⟨-, msg, h'⟩ | ⟨hun, what, h'⟩
  · cases h'.symm.trans hs
  · exact .inl ⟨msg, Except.error.inj (hs.symm.trans h')⟩
  · exact .inr ⟨hun, what, Except.error.inj (hs.symm.trans h')⟩

theorem Reachable.step_ne_assertFailed (h : c.Reachable R s) (hr : s.notDone = true)
    (cond : String) : s.step c true ≠ .error (.assertFailed cond) := fun he => by
  rcases h.step_ne_error hr he with ⟨msg, hmsg⟩ | ⟨-, what, hwhat⟩
  · cases hmsg
  · cases hwhat

/-- If `malloc` leaves `NULL`, any page can be looked for. -/
theorem Blank.searchable (h : c.Blank) (s : Sim R) (p : ProcId) (vpn : ℕ) :
    s.Searchable c p vpn where
  root _ := h.root p
  overhead _ := ReplaceModule.Lawful.assertOverhead_ok (h.overhead.imp_right fun ho => ho _)

theorem Blank.not_unwritten (h : c.Blank) (s : Sim R) : ¬s.Unwritten c := by
  rintro ⟨-, p, queue, pid, vpn, rest, -, -, hn⟩
  exact hn (h.searchable s p vpn)

/-! ## Execution -/

/-- The debug build, with `frames` pages of memory, on the trace file `text`. -/
def debug (diskPenalty frames : ℕ) (text : List Char) (hd : 0 < diskPenalty)
    (hf : 0 < frames) : Setup where
  ndebug := false
  diskPenalty := diskPenalty
  diskPenalty_pos := hd
  frames := frames
  frames_pos := hf
  text := text
  slot _ := 0
  root _ := 0
  overhead _ := 0
  tdestroy pt := pt
  tdestroy_perm := PageTable.perm_refl

theorem debug_blank {diskPenalty frames : ℕ} {text : List Char} (hd : 0 < diskPenalty)
    (hf : 0 < frames) : (debug diskPenalty frames text hd hf).Blank :=
  ⟨fun _ => rfl, .inr fun _ => rfl⟩

/-- A memory of one word of the bitmap. -/
theorem word_pos : 0 < 32 := by decide

/-- Two processes and three records. -/
def sample : Setup :=
  .debug 2 32 ['1', ' ', '1', '\n', '2', ' ', '1', '\n', '1', ' ', '2', '\n']
    Nat.two_pos word_pos

variable (c R) in
/-- The state after `n` iterations, if there are that many. -/
def after (n : ℕ) : Option (Sim R) := (c.start R).toOption.bind ((c.machine R).after n)

omit [R.Lawful] in
theorem exists_run_all_of_after {n : ℕ} {P Q : Sim R → Bool} (h : (c.after R n).any P = true)
    (hQ : ∀ i < n, (c.after R i).all Q = true) :
    ∃ s₀ ts s, c.start R = .ok s₀ ∧ (c.machine R).Run s₀ ts s ∧ ts.length = n ∧ P s = true ∧
      ∀ t ∈ ts, Q t.src = true := by
  rw [after] at h
  cases h₀ : c.start R with
  | error e => simp [h₀, Except.toOption] at h
  | ok s₀ =>
    have hafter (i : ℕ) : c.after R i = (c.machine R).after i s₀ := by
      rw [after, h₀]
      rfl
    rw [h₀] at h
    obtain ⟨s, hs, hP⟩ := (Option.any_eq_true _ _).1 h
    obtain ⟨ts, ht, hn, hall⟩ := Machine.exists_run_all_of_after (P := fun s => Q s = true) hs
      fun i hi r hr => by
        have := hQ i hi
        rw [hafter, hr] at this
        exact this
    exact ⟨s₀, ts, s, rfl, ht, hn, hP, hall⟩

omit [R.Lawful] in
theorem exists_run_of_after {n : ℕ} {P : Sim R → Bool} (h : (c.after R n).any P = true) :
    ∃ s₀ ts s, c.start R = .ok s₀ ∧ (c.machine R).Run s₀ ts s ∧ ts.length = n ∧ P s = true := by
  obtain ⟨s₀, ts, s, h₀, ht, hn, hP, -⟩ :=
    exists_run_all_of_after (Q := fun _ => true) h fun _ _ => by simp
  exact ⟨s₀, ts, s, h₀, ht, hn, hP⟩

omit [R.Lawful] in
/-- The run of so many iterations and another one, which satisfies `P`. -/
theorem exists_run_concat_of_after {n : ℕ} {P : Sim R → Event → Sim R → Bool}
    (h : (c.after R n).any (fun s =>
      s.notDone && (s.step c true).toOption.any fun w => P s w.1 w.2) = true) :
    ∃ s₀ ts s e s', c.start R = .ok s₀ ∧ (c.machine R).Run s₀ (ts ++ [⟨s, e, s'⟩]) s' ∧
      P s e s' = true := by
  obtain ⟨s₀, ts, s, h₀, ht, -, hs⟩ := exists_run_of_after h
  rw [Bool.and_eq_true] at hs
  obtain ⟨hr, hs⟩ := hs
  obtain ⟨w, hw, hP⟩ := (Option.any_eq_true _ _).1 hs
  exact ⟨s₀, ts, s, w.1, w.2, h₀, ht.step hr (toOption_eq_some.1 hw), hP⟩

end Setup

end Pfsim
