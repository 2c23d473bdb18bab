import Pfsim.Simulator.Sync

/-!
# Preemption

The end of an I/O may put a process in front of the one which runs. The position
saved for the latter is that of its last fault or of the start of its interval,
while it has gone on since then. It resumes where it stopped if it was still at
the position saved.

* `Sim.Move.anchored`: what is known of the position saved for the process which
  runs, whatever happens (`Sim.Anchored`);
* `Sim.Move.parked`: a process which does not run keeps its position and its line;
* `preempted_resumes`: a process preempted at the position saved for it resumes on
  its current line, and no other one does in a run undisturbed so far;
* `preempted_repeats`: otherwise, lines may be run again.
-/

namespace Pfsim

variable {R : ReplaceModule} [R.Lawful] {c : Setup} {s s' s₀ u : Sim R} {e : Event}
  {r : Reference} {p q : ProcId} {tr : Trace} {ts : List (Machine.Transition (Sim R) Event)}

namespace Sim

/-! ## The position saved for the process which runs -/

/-- The cursor is not before the position saved for the process which runs. If it
    is there, an I/O has just ended, or it is the position of the current line. -/
structure Anchored (c : Setup) (tr : Trace) (s : Sim R) : Prop where
  le : ∀ {p}, s.Active p → (s.ps.procs p).currentPos ≤ s.cursor
  meet : ∀ {p}, s.Active p → s.cursor = (s.ps.procs p).currentPos →
    (∀ b ∈ s.ps.peek .BLOCKED, (s.ps.procs b).waitTime = c.diskPenalty) ∨
      tr.At (s.ps.procs p).currentPos (s.ps.procs p).currentline
  lone : c.diskPenalty = 1 → ∀ b ∈ s.ps.pq .BLOCKED, s.p = some b

omit [R.Lawful] in
theorem Reads.lt_cursor (h : s.Reads c r u) : r.fpos < u.cursor := by
  obtain ⟨rest, hscan, hcursor, -⟩ := h.scanned
  have hlt := simulatorFormat_length_lt hscan
  rw [List.length_drop] at hlt
  omega

/-- The process which runs after an iteration did so before, but for the one the
    iteration is about. -/
theorem Move.active_cases (h : s.Move c e s') (hs : s.WellFormed c) (ha : s'.Active q) :
    e.proc = some q ∨ s.Active q ∧ ∃ p v ppn victim, e = .completion p v ppn victim := by
  by_cases hq : e.proc = some q
  · exact .inl hq
  · have ha' : s.Active q := by
      by_contra hn
      exact h.not_active hs hq hn ha
    exact .inr ⟨ha', h.completion_of_active ha' hq⟩

omit [R.Lawful] in
/-- With a penalty of a tick, no process is blocked when a reference is run. -/
theorem Timed.blocked_eq_nil (ht : s.Timed c) (hD : c.diskPenalty = 1)
    (hd : s.tick.ioDue = false) : s.ps.pq .BLOCKED = [] := by
  cases hb : s.ps.pq .BLOCKED with
  | nil => rfl
  | cons b bs =>
    have hlt := ht.head_lt hb hd
    have hle := (ht.head hb).2
    omega

/-- After the end of an I/O, the disk starts anew. -/
theorem Move.anchored_completion {v : PageId} {ppn : ℕ} {victim : Option PageId}
    (h : s.Move c (.completion q v ppn victim) s') (hs : s.WellFormed c) (ht : s.Timed c)
    (hanc : s.Anchored c tr) : s'.Anchored c tr := by
  obtain ⟨bs, hb, -, -, hb'⟩ := h.completion_blocked
  obtain ⟨hproc, -, hcursor, hp⟩ := h.completion_proc
  refine ⟨fun {p} ha => ?_, fun {p} ha _ => .inl fun b hpeek => ?_, fun hD b hbs => ?_⟩
  · rcases h.active_cases hs ha with hq | ⟨ha', -⟩
    · obtain rfl := Option.some.inj hq
      rw [hcursor, hproc]
    · -- The process which ran before is still in front.
      obtain ⟨hne, hpeek⟩ := h.peek_completion hs ha'.2
      have hlt : ¬(s.ps.procs q).currentPos < (s.ps.procs p).currentPos := fun hlt => by
        rw [if_pos hlt] at hpeek
        exact hne (Option.some.inj (hpeek.symm.trans ha.2))
      rw [hcursor, (h.spared fun e => hne (Option.some.inj e)).currentPos]
      exact not_lt.1 hlt
  · have hmem : b ∈ bs := hb' ▸ List.mem_of_mem_head? hpeek
    exact h.waitTime_rest hs ht hb hmem (h.proc_ne hs (by simp [hb, hmem]) (hb' ▸ hmem))
  · rw [hp]
    exact hanc.lone hD b (by simp [hb, hb' ▸ hbs])

omit [R.Lawful] in
/-- A process is not before the position saved for it. -/
theorem Anchored.le_fpos (hanc : s.Anchored c tr) (hu : s.Reads c r u) :
    (s.ps.procs r.p).currentPos ≤ r.fpos := by
  rw [hu.fpos_eq, nextPos]
  split
  · next ha => exact hanc.le ha
  · exact le_rfl

/-- After a hit, its process is at the start of its next interval, or past the
    position saved for it. -/
theorem Move.anchored_hit (h : s.Move c (.hit r) s') (hs : s.WellFormed c) (hi : s.Indexed tr)
    (hanc : s.Anchored c tr) (ha : s'.Active q) :
    (s'.ps.procs q).currentPos < s'.cursor ∨ (s'.ps.procs q).currentPos = s'.cursor ∧
      tr.At (s'.ps.procs q).currentPos (s'.ps.procs q).currentline := by
  obtain rfl : r.p = q := by
    rcases h.active_cases hs ha with hq | ⟨-, _, _, _, _, he⟩
    · exact Option.some.inj hq
    · cases he
  obtain ⟨queue, hr⟩ := h.runnable_of_hit
  have hp : r.p < s.ps.nextProc := hs.ps.lt (hr ▸ List.mem_cons_self)
  obtain ⟨w, pt, ⟨hj, -, hcursor, he⟩ | ⟨-, -, -, ⟨u, hu, hcursor⟩, he⟩ |
    ⟨-, -, hp', -⟩⟩ := h.hit_proc
  · rw [hcursor, he]
    exact .inr ⟨rfl, hi.at_jump hs.ps hp hj⟩
  · rw [hcursor, he]
    exact .inl ((hanc.le_fpos hu).trans_lt hu.lt_cursor)
  · rw [ha.1] at hp'
    cases hp'

theorem Move.anchored (h : s.Move c e s') (hs : s.WellFormed c) (ht : s.Timed c)
    (hi : s.Indexed tr) (hanc : s.Anchored c tr) : s'.Anchored c tr := by
  cases e with
  | completion q v ppn victim => exact h.anchored_completion hs ht hanc
  | idle =>
    -- Nothing runs after an idle iteration, nor after a fault.
    have hna {p : ProcId} : ¬s'.Active p := fun ha => by
      rcases h.active_cases hs ha with hq | ⟨-, _, _, _, _, he⟩
      · cases hq
      · cases he
    obtain ⟨b, bs, -, -, -, hpq⟩ := h.idle_blocked
    refine ⟨fun ha => absurd ha hna, fun ha => absurd ha hna, fun hD b hbs => ?_⟩
    rw [h.p_idle]
    exact hanc.lone hD b (hpq ▸ hbs)
  | hit r =>
    have hkey {p : ProcId} (ha : s'.Active p) := h.anchored_hit hs hi hanc ha
    refine ⟨fun ha => ?_, fun ha hmeet => ?_, fun hD b hbs => ?_⟩
    · rcases hkey ha with hlt | ⟨heq, -⟩
      · exact hlt.le
      · exact heq.le
    · rcases hkey ha with hlt | ⟨-, hat⟩
      · exact absurd hmeet hlt.ne'
      · exact .inr hat
    · rw [h.hit_blocked, ht.blocked_eq_nil hD h.hit_notDue] at hbs
      cases hbs
  | miss r =>
    have hna {p : ProcId} : ¬s'.Active p := fun ha => by
      rcases h.active_cases hs ha with hq | ⟨-, _, _, _, _, he⟩
      · obtain rfl := Option.some.inj hq
        exact h.miss_not_active hs ha
      · cases he
    refine ⟨fun ha => absurd ha hna, fun ha => absurd ha hna, fun hD b hbs => ?_⟩
    rw [h.miss_blocked.1, ht.blocked_eq_nil hD h.miss_notDue] at hbs
    rw [List.mem_singleton.1 hbs, h.p_miss]

/-- Undisturbed, the position saved for the process which runs is that of its
    current line only if the cursor is there. -/
theorem Move.strict (h : s.Move c e s') (hs : s.WellFormed c) (hi : s.Indexed tr)
    (hanc : s.Anchored c tr) (hun : ¬s.Disturbed) (hsync : s.Synced tr) (ha : s'.Active q) :
    s'.cursor = (s'.ps.procs q).currentPos ∨
      ¬tr.At (s'.ps.procs q).currentPos (s'.ps.procs q).currentline := by
  rcases h.active_cases hs ha with hq | ⟨ha', p, v, ppn, victim, rfl⟩
  · cases e with
    | idle => cases hq
    | completion p v ppn victim =>
      obtain rfl := Option.some.inj hq
      obtain ⟨hproc, -, hcursor, -⟩ := h.completion_proc
      exact .inl (by rw [hcursor, hproc])
    | miss r =>
      obtain rfl := Option.some.inj hq
      exact absurd ha (h.miss_not_active hs)
    | hit r =>
      obtain rfl := Option.some.inj hq
      obtain ⟨w, pt, ⟨-, -, hcursor, he⟩ | ⟨-, -, -, ⟨u, hu, -⟩, he⟩ | ⟨-, -, hp', -⟩⟩ :=
        h.hit_proc
      · exact .inl (by rw [hcursor, he])
      · obtain ⟨hat, h1, hn, -⟩ := hu.at_line hs hi hsync
        rw [he]
        dsimp only [Process.nextLine]
        rw [← hu.line]
        exact .inr (hat.not_at_succ h1 hn (hanc.le_fpos hu))
      · rw [ha.1] at hp'
        cases hp'
  · -- The process whose I/O is over is not put in front.
    obtain ⟨bs, hb, hd, -⟩ := h.completion_blocked
    obtain ⟨hne, hpeek⟩ := h.peek_completion hs ha'.2
    refine absurd ⟨hd, q, ha', fun b hb' ⟨hlt, _⟩ => ?_⟩ hun
    rw [Processes.peek, hb] at hb'
    obtain rfl := Option.some.inj hb'
    rw [if_pos hlt] at hpeek
    exact hne (Option.some.inj (hpeek.symm.trans ha.2))

omit [R.Lawful] in
/-- The position saved for the process which runs, if the cursor is there when an I/O
    ends, is that of its current line: the disk did not start just now. -/
theorem Move.at_preempted {v : PageId} {ppn : ℕ} {victim : Option PageId}
    (h : s.Move c (.completion q v ppn victim) s') (ht : s.Timed c) (hanc : s.Anchored c tr)
    (ha : s.Active p) (hne : q ≠ p) (hpos : s.cursor = (s.ps.procs p).currentPos) :
    tr.At (s.ps.procs p).currentPos (s.ps.procs p).currentline := by
  obtain ⟨bs, hb, hd, -⟩ := h.completion_blocked
  refine (hanc.meet ha hpos).resolve_left fun hfull => ?_
  -- Otherwise the penalty is of a tick, and the process blocked is the one which ran.
  have hD : c.diskPenalty = 1 := by
    rw [← hfull q (by rw [Processes.peek, hb, List.head?_cons]; rfl), ht.head_eq hb hd]
  have hq := hanc.lone hD q (hb ▸ List.mem_cons_self)
  exact hne (Option.some.inj (hq.symm.trans ha.1))

/-! ## A process which does not run -/

/-- The process `p` is runnable, but another one runs; its position and its line
    are saved. -/
structure Parked (p : ProcId) (pos line : ℕ) (s : Sim R) : Prop where
  runnable : p ∈ s.ps.pq .RUNNABLE
  not_active : ¬s.Active p
  currentPos : (s.ps.procs p).currentPos = pos
  currentline : (s.ps.procs p).currentline = line

/-- It keeps them until it runs a reference. -/
theorem Move.parked {pos line : ℕ} (h : s.Move c e s') (hs : s.WellFormed c)
    (hp : s.Parked p pos line) (hr : ∀ r, e.reference = some r → r.p ≠ p) :
    s'.Parked p pos line := by
  have hproc : e.proc ≠ some p := fun he => by
    cases e with
    | idle => cases he
    | completion q v ppn victim =>
      obtain rfl := Option.some.inj he
      obtain ⟨bs, hb, -⟩ := h.completion_blocked
      exact hs.ps.disjoint (by simp) hp.runnable (hb ▸ List.mem_cons_self)
    | hit r | miss r => exact hr r rfl (Option.some.inj he)
  have hspared := h.spared hproc
  refine ⟨?_, h.not_active hs hproc hp.not_active, hspared.currentPos.trans hp.currentPos,
    hspared.currentline.trans hp.currentline⟩
  rw [(h.wellFormed hs).ps.mem_pq, h.nextProc, hspared.status]
  exact hs.ps.mem_pq.1 hp.runnable

omit [R.Lawful] in
/-- If the position is that of its line, it resumes with the record of this line. -/
theorem Parked.resumes {pos line : ℕ} (hp : s.Parked r.p pos line) (htext : c.text = tr.text)
    (hu : s.Reads c r u) (hat : tr.At pos line) (h1 : 1 ≤ line) (hn : line ≤ tr.length) :
    r.fpos = pos ∧ r.line = line ∧ r.pid = tr.pid r.line ∧ r.vpn = tr.vpn r.line := by
  have hline : r.line = line := hu.line.trans hp.currentline
  have hfpos : r.fpos = pos := by
    rw [hu.fpos_eq, nextPos_of_not_active hp.not_active, hp.currentPos]
  subst hline hfpos
  obtain ⟨hpid, hvpn, -⟩ := hu.record htext hat h1 hn
  exact ⟨rfl, rfl, hpid, hvpn⟩

end Sim

/-! ## Reachable states -/

theorem Setup.Reachable.anchored (htext : c.text = tr.text) (h : c.Reachable R s) :
    s.Anchored c tr := by
  refine (h.invariant (I := fun s => s.Indexed tr ∧ s.Anchored c tr) (fun s₀ h₀ => ?_)
    fun s e s' hs ht hi hm => ⟨hm.indexed hi.1, hm.anchored hs ht hi.1 hi.2⟩).2.2.2
  refine ⟨Reachable.indexed htext ⟨s₀, h₀, .refl⟩, ?_⟩
  obtain ⟨ps, rfl, hi⟩ := Setup.start_indexed htext h₀
  have hstart {p : ProcId} (ha : (Sim.init R c ps).Active p) :
      (Sim.init R c ps).cursor = (ps.procs p).currentPos ∧
        tr.At (ps.procs p).currentPos (ps.procs p).currentline := by
    have hp : p < ps.nextProc := by
      have hmem : p ∈ ps.pq .RUNNABLE := List.mem_of_mem_head? ha.2
      rwa [hi.runnable, List.mem_range] at hmem
    obtain ⟨hat, hpos⟩ := Setup.at_start (R := R) (c := c) hi hp
    rw [Sim.nextPos_of_active ha] at hpos
    exact ⟨hpos, hat⟩
  refine ⟨fun ha => (hstart ha).1.ge, fun ha _ => .inr (hstart ha).2, fun _ b hb => ?_⟩
  rw [show (Sim.init R c ps).ps.pq .BLOCKED = ps.pq .BLOCKED from rfl, hi.blocked] at hb
  cases hb

/-- In an undisturbed run, the position saved for the process which runs is that of
    its current line only if the cursor is there. -/
theorem strict_of_run (htext : c.text = tr.text) (h₀ : c.start R = .ok s₀)
    (h : (c.machine R).Run s₀ ts s) (hun : ∀ t ∈ ts, ¬t.src.Disturbed) (ha : s.Active p)
    (hat : tr.At (s.ps.procs p).currentPos (s.ps.procs p).currentline) :
    s.cursor = (s.ps.procs p).currentPos := by
  rcases List.eq_nil_or_concat' ts with rfl | ⟨ts, t, rfl⟩
  · obtain rfl := Machine.Run.nil_iff.1 h
    obtain ⟨ps, rfl, hi⟩ := Setup.start_indexed htext h₀
    have hmem : p ∈ ps.pq .RUNNABLE := List.mem_of_mem_head? ha.2
    rw [hi.runnable, List.mem_range] at hmem
    obtain ⟨-, hpos⟩ := Setup.at_start (R := R) (c := c) hi hmem
    rwa [Sim.nextPos_of_active ha] at hpos
  · obtain ⟨u, hts, ht⟩ := h.split
    obtain ⟨rfl, -, -, hdst⟩ := ht.cons
    obtain rfl := Machine.Run.nil_iff.1 hdst
    obtain ⟨hr, hm⟩ := Setup.move_of_mem h₀ h (List.mem_append_right _ (List.mem_singleton_self t))
    have hsync := synced_of_run htext h₀ hts fun t ht => hun t (List.mem_append_left _ ht)
    have hun := hun t (List.mem_append_right _ (List.mem_singleton_self t))
    rcases hm.strict hr.wellFormed (hr.indexed htext) (hr.anchored htext) hun hsync ha with he | hne
    · exact he
    · exact absurd hat hne

/-- A parked process remains so in a run, until it runs a reference. -/
theorem parked_of_run {pos line : ℕ} (hr : c.Reachable R s) (hp : s.Parked p pos line)
    (h : (c.machine R).Run s ts s') (hts : ∀ t ∈ ts, ∀ r, t.lbl.reference = some r → r.p ≠ p) :
    s'.Parked p pos line := by
  obtain ⟨s₀, h₀, hs₀⟩ := hr
  refine h.invariant (I := c.Reachable R) (J := fun ts s => (∀ t ∈ ts, ∀ r,
    t.lbl.reference = some r → r.p ≠ p) → s.Parked p pos line)
    (fun u hu => ⟨s₀, h₀, hs₀.elim fun us h => hu.elim fun vs h' => ⟨_, h.trans h'⟩⟩)
    (fun _ => hp) (fun ts s e s' hs hj hrun hstep hts => ?_) hts
  have hm := Sim.move_of_step hs.wellFormed hrun hstep
  exact hm.parked hs.wellFormed (hj fun t ht => hts t (List.mem_append_left _ ht))
    (hts ⟨s, e, s'⟩ (List.mem_append_right _ (List.mem_singleton_self _)))

/-- In any run, let the end of an I/O put its process `q` in front of the process
    `p` which runs. If the cursor is at the position saved for `p`, this is the
    position of the record of its current line; until `p` runs again, it keeps this
    position and this line, and the reference it resumes with is the one of this
    record. In a run undisturbed so far, this is so in no other case. -/
theorem preempted_resumes (c : Setup) (π : Policy) {tr : Trace} (htext : c.text = tr.text)
    {s₀ s : Sim π.replace} {ts us : List (Machine.Transition (Sim π.replace) Event)}
    {t : Machine.Transition (Sim π.replace) Event} (h₀ : c.start π.replace = .ok s₀)
    (h : (c.machine π.replace).Run s₀ (ts ++ t :: us) s) {p q : ProcId} {v : PageId} {ppn : ℕ}
    {victim : Option PageId} (he : t.lbl = .completion q v ppn victim) (ha : t.src.Active p)
    (hlt : (t.src.ps.procs q).currentPos < (t.src.ps.procs p).currentPos) :
    (t.src.cursor = (t.src.ps.procs p).currentPos →
      tr.At (t.dst.ps.procs p).currentPos (t.dst.ps.procs p).currentline ∧
        ((∀ t' ∈ us, ∀ r, t'.lbl.reference = some r → r.p ≠ p) →
          (s.ps.procs p).currentPos = (t.dst.ps.procs p).currentPos ∧
            (s.ps.procs p).currentline = (t.dst.ps.procs p).currentline ∧
            ∀ e s' r, s.notDone = true → s.step c true = .ok (e, s') → e.reference = some r →
              r.p = p → r.fpos = (t.dst.ps.procs p).currentPos ∧
                r.line = (t.dst.ps.procs p).currentline ∧
                r.pid = tr.pid r.line ∧ r.vpn = tr.vpn r.line)) ∧
      ((∀ t' ∈ ts, ¬t'.src.Disturbed) →
        tr.At (t.dst.ps.procs p).currentPos (t.dst.ps.procs p).currentline →
          t.src.cursor = (t.src.ps.procs p).currentPos) := by
  obtain ⟨hr, hm⟩ := Setup.move_of_mem h₀ h (List.mem_append_right _ List.mem_cons_self)
  obtain ⟨u, hts, htus⟩ := h.split
  obtain ⟨rfl, hrun, hstep, hus⟩ := htus.cons
  have hs := hr.wellFormed
  rw [he] at hm
  obtain ⟨hne, hpark⟩ := hm.preempted hs ha hlt
  have hspared := hm.spared fun e => hne (Option.some.inj e)
  rw [hspared.currentPos, hspared.currentline]
  refine ⟨fun hpos => ?_, fun hun => strict_of_run htext h₀ hts hun ha⟩
  have hdst : c.Reachable π.replace t.dst := ⟨s₀, h₀, _, hts.step hrun hstep⟩
  have hat := hm.at_preempted hr.timed (hr.anchored htext) ha hne hpos
  refine ⟨hat, fun hrest => ?_⟩
  -- It is parked until it runs again.
  have hmem : p ∈ t.dst.ps.pq .RUNNABLE := by
    rw [hdst.wellFormed.ps.mem_pq, hm.nextProc, hspared.status, ← hs.ps.mem_pq]
    exact List.mem_of_mem_head? ha.2
  have hparked := parked_of_run hdst
    ⟨hmem, hpark, hspared.currentPos, hspared.currentline⟩ hus hrest
  refine ⟨hparked.currentPos, hparked.currentline, fun e s' r hrun' hstep' her hrp => ?_⟩
  have hs' : c.Reachable π.replace s := .of_run h₀ h
  obtain ⟨u, hu⟩ := (Sim.move_of_step hs'.wellFormed hrun' hstep').reads her
  obtain ⟨h1, hn, -⟩ := (hr.indexed htext).current hs.ps (hs.ps.lt (List.mem_of_mem_head? ha.2))
  subst hrp
  exact hparked.resumes htext hu hat h1 hn

/-- The second process has just jumped to its next interval when it is preempted. -/
theorem preempted_resumes_jump : ∃ (tr : Trace) (s₀ : Sim Policy.lru.replace) (ts : _) (t : _),
    (Setup.debug 3 32 tr.text (by decide) (by decide)).start Policy.lru.replace = .ok s₀ ∧
      ((Setup.debug 3 32 tr.text (by decide) (by decide)).machine _).Run s₀ (ts ++ [t]) t.dst ∧
      t.src.Active 1 ∧ tr.At (t.dst.ps.procs 1).currentPos (t.dst.ps.procs 1).currentline := by
  set tr : Trace := .ofDigits [('1', '1'), ('1', '2'), ('2', '1'), ('2', '1'), ('1', '1'),
    ('2', '1')] (by decide) with htr
  obtain ⟨s₀, ts, s, e, s', h₀, h, hs⟩ := Setup.exists_run_concat_of_after
    (R := Policy.lru.replace) (c := .debug 3 32 tr.text (by decide) (by decide)) (n := 9)
    (P := fun s e s' => e.reference.isNone && e.proc.any fun q => decide (s.Active 1 ∧
      (s.ps.procs q).currentPos < (s.ps.procs 1).currentPos ∧
        s.cursor = (s.ps.procs 1).currentPos)) (by decide +kernel)
  rw [Bool.and_eq_true, Option.isNone_iff_eq_none] at hs
  obtain ⟨hnone, hs⟩ := hs
  obtain ⟨q, hq, hs⟩ := (Option.any_eq_true _ _).1 hs
  obtain ⟨ha, hlt, hpos⟩ := of_decide_eq_true hs
  obtain ⟨v, ppn, victim, rfl⟩ := Event.eq_completion hq hnone
  have htext : (Setup.debug 3 32 tr.text (by decide) (by decide)).text = tr.text := rfl
  exact ⟨tr, s₀, ts, _, h₀, h, ha, ((preempted_resumes _ .lru htext h₀ h rfl ha hlt).1 hpos).1⟩

/-- The second process has run its first two lines, at the third and fourth records,
    since it was loaded when it is preempted. It resumes with its third line, but at
    the third record. -/
theorem preempted_repeats : ∃ (tr : Trace) (c : Setup) (s₀ s u : Sim Policy.fifo.replace)
    (ts us : _) (t : _) (q v ppn victim : _), tr.Distinct ∧ c.text = tr.text ∧ 32 ∣ c.frames ∧
      c.start Policy.fifo.replace = .ok s₀ ∧
      (c.machine Policy.fifo.replace).Run s₀ (ts ++ t :: us) s ∧
      t.lbl = .completion q v ppn victim ∧ t.src.Active 1 ∧
      (t.src.ps.procs q).currentPos < (t.src.ps.procs 1).currentPos ∧
      ¬tr.At (t.dst.ps.procs 1).currentPos (t.dst.ps.procs 1).currentline ∧
      ∃ r, s.step c true = .ok (.hit r, u) ∧ r.p = 1 ∧ r.line = 5 ∧ tr.At r.fpos 3 := by
  set tr : Trace := .ofDigits [('1', '1'), ('1', '2'), ('2', '1'), ('2', '1'), ('2', '1'),
    ('2', '1'), ('2', '1'), ('2', '1')] (by decide) with htr
  set c : Setup := .debug 3 32 tr.text (by decide) (by decide) with hc
  obtain ⟨s₀, ts, s, e, s', h₀, h, hs⟩ := Setup.exists_run_concat_of_after
    (R := Policy.fifo.replace) (c := c) (n := 9)
    (P := fun s e s' => e.reference.isNone && (e.proc.any fun q => decide (s.Active 1 ∧
      (s.ps.procs q).currentPos < (s.ps.procs 1).currentPos ∧
        ¬tr.At (s'.ps.procs 1).currentPos (s'.ps.procs 1).currentline)) &&
      ((c.machine _).after 1 s').any fun w => (w.step c true).toOption.any fun x =>
        (x.1.hitOf 1).any fun r => decide (r.line = 5 ∧ tr.At r.fpos 3)) (by decide +kernel)
  rw [Bool.and_eq_true, Bool.and_eq_true, Option.isNone_iff_eq_none] at hs
  obtain ⟨⟨hnone, hpre⟩, hnext⟩ := hs
  -- An iteration which is about a process but makes no reference is a completion.
  obtain ⟨q, hq, hpre⟩ := (Option.any_eq_true _ _).1 hpre
  obtain ⟨ha, hlt, hat⟩ := of_decide_eq_true hpre
  obtain ⟨v, ppn, victim, rfl⟩ := Event.eq_completion hq hnone
  obtain ⟨w, hw, hhit⟩ := (Option.any_eq_true _ _).1 hnext
  obtain ⟨us, hus, -⟩ := Machine.exists_run_of_after hw
  obtain ⟨x, hx, hhit⟩ := (Option.any_eq_true _ _).1 hhit
  obtain ⟨r, hr, hhit⟩ := (Option.any_eq_true _ _).1 hhit
  obtain ⟨hline, hfpos⟩ := of_decide_eq_true hhit
  obtain ⟨hr, hp⟩ := Event.hitOf_eq_some.1 hr
  have hstep : w.step c true = .ok (.hit r, x.2) := by rw [← hr, toOption_eq_some.1 hx]
  have h' := h.trans hus
  rw [List.append_assoc, List.singleton_append] at h'
  exact ⟨tr, c, s₀, w, x.2, ts, us, _, q, v, ppn, victim, by decide +kernel, rfl, ⟨1, rfl⟩, h₀,
    h', rfl, ha, hlt, hat, r, hstep, hp, hline, hfpos⟩

end Pfsim
