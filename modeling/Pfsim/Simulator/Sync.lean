import Pfsim.Simulator.Position
import Pfsim.TraceParser.Pids

/-!
# Lines and records

In a run whose iterations are undisturbed (`Sim.Disturbed`), every process is at
the record of its current line (`Sim.Synced`). Thus the trace is run exactly
once, and in order.

* `Sim.Move.synced`: an undisturbed iteration keeps the processes so;
* `lines_of_run`: in any run, the lines of the hits of a process are its lines,
  in order, those which are left apart;
* `records_in_order`: undisturbed, the records read are those of these lines;
* `record_of_another`: otherwise, a process may run a record of another one.
-/

namespace Pfsim

variable {R : ReplaceModule} [R.Lawful] {c : Setup} {s s' s₀ u : Sim R} {e : Event}
  {r : Reference} {p q : ProcId} {tr : Trace}

namespace Sim

/-- The reference `r` is on the current line of its process, and reads the record
    of this line. -/
structure ReadsCurrent (tr : Trace) (s : Sim R) (r : Reference) : Prop where
  line : r.line = (s.ps.procs r.p).currentline
  fpos : tr.At r.fpos r.line
  pid : r.pid = tr.pid r.line
  vpn : r.vpn = tr.vpn r.line
  own : r.pid = (s.ps.procs r.p).pid

/-- Every process that has not finished is at the record of its current line. -/
def Synced (tr : Trace) (s : Sim R) : Prop :=
  ∀ p < s.ps.nextProc, (s.ps.procs p).status ≠ .FINISHED →
    tr.At (s.nextPos p) (s.ps.procs p).currentline

omit [R.Lawful] in
/-- The number of a process is that of the lines with its key. -/
theorem Indexed.pid_eq (hi : s.Indexed tr) (hpids : tr.Distinct) (hp : p < s.ps.nextProc) {k : ℕ}
    (h1 : 1 ≤ k) (hk : k ≤ tr.length) :
    pidKey (tr.pid k) = pidKey (s.ps.procs p).pid ↔ tr.pid k = (s.ps.procs p).pid := by
  obtain ⟨j, hj1, hj, hpid⟩ := hi.pid hp
  rw [hpid]
  exact ⟨fun e => hpids k h1 hk j hj1 hj (pidKey_eq_iff.1 e), fun e => by rw [e]⟩

/-- The process of a reference is runnable. -/
theorem Reads.status (h : s.Reads c r u) (hs : s.WellFormed c) :
    r.p < s.ps.nextProc ∧ (s.ps.procs r.p).status = .RUNNABLE := by
  obtain ⟨queue, hq⟩ := h.head
  have hmem : r.p ∈ s.ps.pq .RUNNABLE := hq ▸ List.mem_cons_self
  exact ⟨hs.ps.lt hmem, hs.ps.status hmem⟩

/-- In sync, a reference is at the record of its line. -/
theorem Reads.at_line (h : s.Reads c r u) (hs : s.WellFormed c) (hi : s.Indexed tr)
    (hsync : s.Synced tr) :
    tr.At r.fpos r.line ∧ 1 ≤ r.line ∧ r.line ≤ tr.length ∧
      pidKey (tr.pid r.line) = pidKey (s.ps.procs r.p).pid := by
  obtain ⟨hp, hst⟩ := h.status hs
  rw [h.fpos_eq, h.line]
  exact ⟨hsync _ hp (by simp [hst]), hi.current hs.ps hp⟩

/-- So it reads this record. -/
theorem Reads.current (h : s.Reads c r u) (htext : c.text = tr.text) (hpids : tr.Distinct)
    (hs : s.WellFormed c) (hi : s.Indexed tr) (hsync : s.Synced tr) : s.ReadsCurrent tr r := by
  obtain ⟨hat, h1, hn, hkey⟩ := h.at_line hs hi hsync
  obtain ⟨hpid, hvpn, -⟩ := h.record htext hat h1 hn
  exact ⟨h.line, hat, hpid, hvpn,
    hpid.trans ((hi.pid_eq hpids (h.status hs).1 h1 hn).1 hkey)⟩

/-- In sync, the first process is where the record of its line is. -/
theorem Synced.at_position (hsync : s.Synced tr) (hs : s.WellFormed c) {queue : List ProcId}
    (hq : s.ps.pq .RUNNABLE = q :: queue) : tr.At (s.position q) (s.ps.procs q).currentline := by
  have hmem : q ∈ s.ps.pq .RUNNABLE := hq ▸ List.mem_cons_self
  have hat := hsync _ (hs.ps.lt hmem) (by simp [hs.ps.status hmem])
  rwa [Sim.nextPos_eq_position hq] at hat

/-- So there is a record there. -/
theorem Synced.exists_record (hsync : s.Synced tr) (htext : c.text = tr.text) (hs : s.WellFormed c)
    (hi : s.Indexed tr) {queue : List ProcId} (hq : s.ps.pq .RUNNABLE = q :: queue) :
    ∃ pid vpn rest,
      fscanf simulatorFormat (c.text.drop (s.position q)) = ⟨2, [pid, vpn], rest⟩ := by
  have hmem : q ∈ s.ps.pq .RUNNABLE := hq ▸ List.mem_cons_self
  obtain ⟨h1, hn, -⟩ := hi.current hs.ps (hs.ps.lt hmem)
  exact ⟨_, _, _, htext ▸ (hsync.at_position hs hq).fscanf h1 hn⟩

/-- The position of a process after an iteration about it: if it is not on its way
    to the next line, it is at the position saved for it. -/
theorem Move.nextPos_completion {v : PageId} {ppn : ℕ} {victim : Option PageId}
    (h : s.Move c (.completion q v ppn victim) s') (hs : s.WellFormed c) :
    s'.nextPos q = s.nextPos q := by
  obtain ⟨bs, hb, -⟩ := h.completion_blocked
  obtain ⟨hproc, -, hcursor, -⟩ := h.completion_proc
  have ha : ¬s.Active q := fun ha =>
    hs.ps.disjoint (by simp) (hb ▸ List.mem_cons_self) (List.mem_of_mem_head? ha.2)
  have hpos : (s'.ps.procs q).currentPos = (s.ps.procs q).currentPos := by rw [hproc]
  rw [nextPos_of_not_active ha, nextPos, hcursor, hpos, ite_self]

theorem Move.nextPos_miss (h : s.Move c (.miss r) s') (hs : s.WellFormed c) :
    s'.nextPos r.p = r.fpos := by
  obtain ⟨-, -, -, hpos⟩ := h.miss_blocked
  rw [nextPos_of_not_active (h.miss_not_active hs), hpos]

/-- An undisturbed iteration keeps the processes in sync. -/
theorem Move.synced (h : s.Move c e s') (htext : c.text = tr.text) (hs : s.WellFormed c)
    (hi : s.Indexed tr) (hun : ¬s.Disturbed) (hsync : s.Synced tr) : s'.Synced tr := by
  intro q hq hst
  rw [h.nextProc] at hq
  by_cases hproc : e.proc = some q
  · cases e with
    | idle => cases hproc
    | completion p v ppn victim =>
      obtain rfl := Option.some.inj hproc
      obtain ⟨bs, hb, -⟩ := h.completion_blocked
      have hst' := hs.ps.status (hb ▸ List.mem_cons_self)
      rw [h.nextPos_completion hs, h.completion_proc.1]
      exact hsync _ hq (by simp [hst'])
    | miss r =>
      obtain rfl := Option.some.inj hproc
      obtain ⟨u, hu⟩ := h.reads rfl
      obtain ⟨pt, he⟩ := h.miss_proc
      rw [h.nextPos_miss hs, he]
      dsimp only
      rw [← hu.line]
      exact (hu.at_line hs hi hsync).1
    | hit r =>
      obtain rfl := Option.some.inj hproc
      obtain ⟨w, pt, ⟨hj, -, hcursor, he⟩ | ⟨-, hp', hpq, ⟨u, hu, hcursor⟩, he⟩ |
        ⟨-, -, -, he⟩⟩ := h.hit_proc
      · -- At its next interval, wherever it is in the queue.
        have hpos : s'.nextPos r.p = (s.ps.procs r.p).jumpToNextInterval.currentPos := by
          rw [nextPos, hcursor, he, ite_self]
        rw [hpos, he]
        exact hi.at_jump hs.ps hq hj
      · -- On its next line, at the head of the queue still.
        obtain ⟨queue, hr⟩ := hu.head
        have ha : s'.Active r.p := ⟨hp', by rw [Processes.peek, hpq, hr, List.head?_cons]⟩
        rw [nextPos_of_active ha, hcursor, he]
        dsimp only [Process.nextLine]
        rw [← hu.line]
        obtain ⟨hat, h1, hn, -⟩ := hu.at_line hs hi hsync
        exact (hu.record htext hat h1 hn).2.2
      · rw [he] at hst
        exact absurd rfl hst
  · have hspared := h.spared hproc
    rw [h.nextPos_eq hs hun hproc, hspared.currentline]
    exact hsync _ hq (hspared.status ▸ hst)

omit [R.Lawful] in
/-- No message if the records read are of the process. -/
theorem Move.stderr_eq (h : s.Move c e s')
    (hr : ∀ r, e.reference = some r → r.pid = (s.ps.procs r.p).pid) : s'.stderr = s.stderr := by
  cases h with
  | completion => exact tick_stderr
  | idle => exact tick_stderr
  | jump h | next h | finish h | miss h =>
    obtain ⟨rest, -, -, hstderr⟩ := h.scanned
    exact hstderr (hr _ rfl)

end Sim

/-! ## Whole runs -/

/-- The hit of the process `p`, if the iteration is one. -/
def Event.hitOf (p : ProcId) : Event → Option Reference
  | hit r => if r.p = p then some r else none
  | _ => none

theorem Event.hitOf_eq_some : e.hitOf p = some r ↔ e = .hit r ∧ r.p = p := by
  cases e with
  | completion | idle | miss => exact iff_of_false (by rintro ⟨⟩) (by rintro ⟨⟨⟩, -⟩)
  | hit r' =>
    rw [hitOf, hit.injEq]
    constructor
    · intro h
      split at h
      · next hp =>
        obtain rfl := Option.some.inj h
        exact ⟨rfl, hp⟩
      · cases h
    · rintro ⟨rfl, hp⟩
      rw [if_pos hp]

theorem Event.reference_of_hitOf (h : e.hitOf p = some r) : e.reference = some r := by
  rw [(Event.hitOf_eq_some.1 h).1, reference]

/-- The hits of the process `p` in a run. -/
def hitsOf (p : ProcId) (ts : List (Machine.Transition (Sim R) Event)) : List Reference :=
  ts.filterMap fun t => t.lbl.hitOf p

variable {ts : List (Machine.Transition (Sim R) Event)}

omit [R.Lawful] in
theorem Setup.start_synced (htext : c.text = tr.text) (h : c.start R = .ok s₀) :
    s₀.Synced tr := by
  obtain ⟨ps, rfl, hi⟩ := Setup.start_indexed htext h
  intro p hp _
  obtain ⟨hat, hpos⟩ := Setup.at_start (R := R) (c := c) hi hp
  rw [hpos]
  exact hat

/-- In an undisturbed run, the processes are in sync. -/
theorem synced_of_run (htext : c.text = tr.text) (h₀ : c.start R = .ok s₀)
    (h : (c.machine R).Run s₀ ts s) (hun : ∀ t ∈ ts, ¬t.src.Disturbed) : s.Synced tr := by
  refine Setup.run_invariant (J := fun ts s => (∀ t ∈ ts, ¬t.src.Disturbed) → s.Synced tr) h₀ h
    (fun _ => Setup.start_synced htext h₀) (fun ts s e s' hs hj hm hun => ?_) hun
  have hsync := hj fun t ht => hun t (List.mem_append_left _ ht)
  have hun : ¬s.Disturbed := hun ⟨s, e, s'⟩ (List.mem_append_right _ (List.mem_singleton_self _))
  exact hm.synced htext hs.wellFormed (hs.indexed htext) hun hsync

/-- The records read are those of the lines of the processes. -/
theorem current_of_run (htext : c.text = tr.text) (hpids : tr.Distinct) (h₀ : c.start R = .ok s₀)
    (h : (c.machine R).Run s₀ ts s) (hun : ∀ t ∈ ts, ¬t.src.Disturbed) :
    s.stderr = [] ∧ ∀ t ∈ ts, ∀ r, t.lbl.reference = some r → t.src.ReadsCurrent tr r := by
  have hcurrent : ∀ t ∈ ts, ∀ r, t.lbl.reference = some r → t.src.ReadsCurrent tr r := by
    intro t ht r he
    obtain ⟨us, vs, rfl⟩ := List.append_of_mem ht
    obtain ⟨u, hus, hvs⟩ := h.split
    obtain ⟨rfl, -⟩ := hvs.cons
    have hsync := synced_of_run htext h₀ hus fun t ht => hun t (List.mem_append_left _ ht)
    obtain ⟨hs, hm⟩ := Setup.move_of_mem h₀ h ht
    obtain ⟨u, hu⟩ := hm.reads he
    exact hu.current htext hpids hs.wellFormed (hs.indexed htext) hsync
  refine ⟨?_, hcurrent⟩
  refine Setup.run_invariant (J := fun ts s => (∀ t ∈ ts, ∀ r, t.lbl.reference = some r →
    t.src.ReadsCurrent tr r) → s.stderr = []) h₀ h (fun _ => ?_)
    (fun ts s e s' hs hj hm hread => ?_) hcurrent
  · obtain ⟨ps, -, rfl⟩ := Setup.start_eq h₀
    rfl
  · have hread' : ∀ r, e.reference = some r → s.ReadsCurrent tr r :=
      hread ⟨s, e, s'⟩ (List.mem_append_right _ (List.mem_singleton_self _))
    rw [hm.stderr_eq fun r he => (hread' r he).own]
    exact hj fun t ht => hread t (List.mem_append_left _ ht)

/-- In any run, the lines of the hits of a process are those of its key, in order,
    up to those it has left. -/
theorem lines_of_run (htext : c.text = tr.text) (h₀ : c.start R = .ok s₀)
    (h : (c.machine R).Run s₀ ts s) (hp : p < s.ps.nextProc) :
    (hitsOf p ts).map Reference.line ++ s.remaining p =
      (List.range' 1 tr.length).filter fun k => pidKey (tr.pid k) = pidKey (s.ps.procs p).pid := by
  refine Setup.run_invariant (J := fun ts s => ∀ {p}, p < s.ps.nextProc →
    (hitsOf p ts).map Reference.line ++ s.remaining p = (List.range' 1 tr.length).filter fun k =>
      pidKey (tr.pid k) = pidKey (s.ps.procs p).pid) h₀ h (fun {p} hp => ?_)
    (fun ts s e s' hs hj hm {p} hp => ?_) hp
  · obtain ⟨ps, rfl, hi⟩ := Setup.start_indexed htext h₀
    exact (Setup.remaining_start hi hp).trans (hi.lines_eq hp)
  · rw [(hm.index_eq p).2, ← hj (hm.nextProc ▸ hp), hitsOf, List.filterMap_append, List.map_append,
      List.append_assoc]
    refine congrArg (_ ++ ·) ?_
    by_cases he : ∃ r, e = .hit r ∧ r.p = p
    · obtain ⟨r, rfl, rfl⟩ := he
      rw [hm.remaining_hit hs.wellFormed]
      simp [Event.hitOf]
    · have hnone : e.hitOf p = none :=
        Option.eq_none_iff_forall_ne_some.2 fun r hr => he ⟨r, Event.hitOf_eq_some.1 hr⟩
      rw [hm.remaining_eq hs.wellFormed fun r hr hpr => he ⟨r, hr, hpr.symm⟩]
      simp [hnone]

/-- The trace is run exactly once and in order, in a run whose iterations are
    undisturbed. The record of every reference is that of the current line of its
    process, of which it bears the number, no message is printed, and a reference
    always finds a record, be it only to use what `malloc` left. The pages of the hits of a
    process are those of its records, in order, and all of them when the run returns. -/
theorem records_in_order (c : Setup) (π : Policy) {tr : Trace} (htext : c.text = tr.text)
    (hpids : tr.Distinct) {s₀ s : Sim π.replace}
    {ts : List (Machine.Transition (Sim π.replace) Event)} (h₀ : c.start π.replace = .ok s₀)
    (h : (c.machine π.replace).Run s₀ ts s) (hun : ∀ t ∈ ts, ¬t.src.Disturbed) :
    (∀ t ∈ ts, ∀ r, t.lbl.reference = some r → t.src.ReadsCurrent tr r) ∧
      s.stderr = [] ∧
      (s.notDone = true → s.tick.ioDue = false → (∃ e s', s.step c true = .ok (e, s')) ∨
        s.Unwritten c ∧ ∀ h, s.ps.peek .RUNNABLE = some h →
          tr.At (s.position h) (s.ps.procs h).currentline) ∧
      ∀ p < s.ps.nextProc,
        (hitsOf p ts).map Reference.vpn <+:
          ((List.range' 1 tr.length).filter fun k => tr.pid k = (s.ps.procs p).pid).map tr.vpn ∧
        (s.notDone = false → (hitsOf p ts).map Reference.vpn =
          ((List.range' 1 tr.length).filter
            fun k => tr.pid k = (s.ps.procs p).pid).map tr.vpn) := by
  have hr := Setup.Reachable.of_run h₀ h
  have hs := hr.wellFormed
  have hi := hr.indexed htext
  have hsync := synced_of_run htext h₀ h hun
  obtain ⟨hquiet, hread⟩ := current_of_run htext hpids h₀ h hun
  refine ⟨hread, hquiet, fun hrun hd => ?_, fun p hp => ?_⟩
  · rcases Sim.step_cases hs hrun with ⟨e, s', hok, -⟩ | ⟨hexit, -⟩ | ⟨hunw, -⟩
    · exact .inl ⟨e, s', hok⟩
    -- There is a record where the first process is.
    · cases hexit with
      | noFrame hd' =>
        rw [hd] at hd'
        cases hd'
      | noRecord _ hq hscan =>
        obtain ⟨pid, vpn, rest, hrec⟩ := hsync.exists_record htext hs hi hq
        exact absurd hrec (hscan pid vpn rest)
    · refine .inr ⟨hunw, fun p hp => ?_⟩
      obtain ⟨queue, hq⟩ := List.head?_eq_some_iff.1 hp
      exact hsync.at_position hs hq
  · -- The pages read are those of the lines.
    have hvpn : (hitsOf p ts).map Reference.vpn =
        ((hitsOf p ts).map Reference.line).map tr.vpn := by
      rw [List.map_map]
      refine List.map_congr_left fun r hr => ?_
      obtain ⟨t, ht, he⟩ := List.mem_filterMap.1 hr
      exact (hread t ht r (Event.reference_of_hitOf he)).vpn
    have hlines := lines_of_run htext h₀ h hp
    have hown : ((List.range' 1 tr.length).filter fun k =>
        pidKey (tr.pid k) = pidKey (s.ps.procs p).pid) =
        (List.range' 1 tr.length).filter fun k => tr.pid k = (s.ps.procs p).pid := by
      refine List.filter_congr fun k hk => ?_
      obtain ⟨h1, hk⟩ := List.mem_range'_1.1 hk
      rw [decide_eq_decide]
      exact hi.pid_eq hpids hp h1 (by omega)
    rw [← hown, ← hlines, hvpn]
    refine ⟨(List.prefix_append _ _).map _, fun hdone => ?_⟩
    rw [(hr.finished hdone hp).2, List.append_nil]

/-- Two processes, one record each, and then another one of the first. -/
theorem records_in_order_sample : ∃ (tr : Trace) (s₀ s : Sim Policy.clock.replace) (ts : _),
    (Setup.debug 2 32 tr.text (by decide) (by decide)).start Policy.clock.replace = .ok s₀ ∧
      ((Setup.debug 2 32 tr.text (by decide) (by decide)).machine _).Returns s₀ ts s ∧
      (hitsOf 0 ts).map Reference.vpn = [1, 2] := by
  set tr : Trace := .ofDigits [('1', '1'), ('2', '1'), ('1', '2')] (by decide) with htr
  obtain ⟨s₀, ts, s, h₀, h, -, hs, hun⟩ := Setup.exists_run_all_of_after
    (R := Policy.clock.replace) (c := .debug 2 32 tr.text (by decide) (by decide)) (n := 10)
    (P := fun s => !s.notDone && decide (0 < s.ps.nextProc) && (s.ps.procs 0).pid == 1)
    (Q := fun s => !decide s.Disturbed) (by decide +kernel) (by decide +kernel)
  obtain ⟨⟨hs, hp⟩, hpid⟩ : (s.notDone = false ∧ 0 < s.ps.nextProc) ∧ (s.ps.procs 0).pid = 1 := by
    simpa using hs
  have htext : (Setup.debug 2 32 tr.text (by decide) (by decide)).text = tr.text := rfl
  obtain ⟨-, -, -, hall⟩ := records_in_order _ .clock htext (by decide +kernel) h₀ h
    fun t ht => by simpa using hun t ht
  have hvpn := (hall 0 hp).2 hs
  rw [hpid] at hvpn
  exact ⟨tr, s₀, s, ts, h₀, ⟨h, hs⟩, hvpn.trans (by decide +kernel)⟩

/-- While the first process runs its three records, the I/O of the second one
    takes the cursor to its own. -/
theorem record_of_another : ∃ (tr : Trace) (c : Setup) (s₀ s : Sim Policy.lru.replace) (ts : _),
    tr.Distinct ∧ c.text = tr.text ∧ 32 ∣ c.frames ∧ c.start Policy.lru.replace = .ok s₀ ∧
      (c.machine Policy.lru.replace).Run s₀ ts s ∧ s.stderr ≠ [] ∧
      ∃ t ∈ ts, ∃ r, t.lbl = .hit r ∧ r.line = (t.src.ps.procs r.p).currentline ∧
        ¬tr.At r.fpos r.line ∧ r.pid ≠ (t.src.ps.procs r.p).pid := by
  set tr : Trace := .ofDigits [('1', '1'), ('1', '1'), ('1', '1'), ('2', '1')] (by decide) with htr
  set c : Setup := .debug 2 32 tr.text (by decide) (by decide) with hc
  obtain ⟨s₀, ts, s, e, s', h₀, h, hs⟩ := Setup.exists_run_concat_of_after
    (R := Policy.lru.replace) (c := c) (n := 5)
    (P := fun s e s' => (e.hitOf 0).any fun r => decide (s'.stderr ≠ [] ∧
      r.line = (s.ps.procs r.p).currentline ∧ ¬tr.At r.fpos r.line ∧
        r.pid ≠ (s.ps.procs r.p).pid)) (by decide +kernel)
  obtain ⟨r, hr, hs⟩ := (Option.any_eq_true _ _).1 hs
  obtain ⟨hstderr, hline, hat, hpid⟩ := of_decide_eq_true hs
  exact ⟨tr, c, s₀, s', _, by decide +kernel, rfl, ⟨1, rfl⟩, h₀, h, hstderr, _,
    List.mem_append_right _ (List.mem_singleton_self _), r, (Event.hitOf_eq_some.1 hr).1, hline,
    hat, hpid⟩

end Pfsim
