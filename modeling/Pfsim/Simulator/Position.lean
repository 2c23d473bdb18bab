import Pfsim.Simulator.Reachable

/-!
# Positions in the trace file

There is a single cursor for all processes. The process which runs is at the
cursor; the others are at the position saved for them (`Sim.nextPos`). An
iteration may only move a process it is not about by ending an I/O while that
process runs (`Sim.Disturbed`), since this takes the cursor away from it.

* `Sim.Reads.fpos_eq`: a reference is read at the position of its process;
* `Sim.Move.nextPos_eq`: an undisturbed iteration leaves the positions of the
  other processes as they are;
* `Setup.Reachable.indexed`: the processes index the records of the trace file.
-/

namespace Pfsim

/-- The reference run by an iteration, if any. -/
def Event.reference : Event → Option Reference
  | hit r | miss r => some r
  | _ => none

/-- An iteration about a process which runs no reference is the end of an I/O. -/
theorem Event.eq_completion {e : Event} {p : ProcId} (hp : e.proc = some p)
    (hr : e.reference = none) : ∃ v ppn victim, e = .completion p v ppn victim := by
  cases e with
  | completion p v ppn victim =>
    obtain rfl := Option.some.inj hp
    exact ⟨v, ppn, victim, rfl⟩
  | idle => cases hp
  | hit | miss => cases hr

namespace Sim

variable {R : ReplaceModule} {c : Setup} {s s' u : Sim R} {e : Event} {r : Reference} {p q : ProcId}

/-- The process `p` ran last, and is to run next. -/
def Active (s : Sim R) (p : ProcId) : Prop := s.p = some p ∧ s.ps.peek .RUNNABLE = some p

instance (s : Sim R) (p : ProcId) : Decidable (s.Active p) := inferInstanceAs (Decidable (_ ∧ _))

/-- Where the next line of the process `p` is to be read. -/
def nextPos (s : Sim R) (p : ProcId) : ℕ :=
  if s.Active p then s.cursor else (s.ps.procs p).currentPos

theorem nextPos_of_active (h : s.Active p) : s.nextPos p = s.cursor := if_pos h

theorem nextPos_of_not_active (h : ¬s.Active p) : s.nextPos p = (s.ps.procs p).currentPos :=
  if_neg h

theorem nextPos_eq_position {queue : List ProcId} (hq : s.ps.pq .RUNNABLE = p :: queue) :
    s.nextPos p = s.position p := by
  have ha : s.Active p ↔ s.p = some p := by simp [Active, Processes.peek, hq]
  rw [position, nextPos, if_congr ha rfl rfl]

/-- An I/O is over while the process `h` runs, unless the process of this I/O
    takes its place and the position saved for `h` is where it is. -/
def Disturbed (s : Sim R) : Prop :=
  s.tick.ioDue = true ∧ ∃ h, s.Active h ∧ ∀ q, s.ps.peek .BLOCKED = some q →
    ¬((s.ps.procs q).currentPos < (s.ps.procs h).currentPos ∧
      s.cursor = (s.ps.procs h).currentPos)

instance (s : Sim R) : Decidable s.Disturbed :=
  decidable_of_iff (s.tick.ioDue = true ∧ ∃ h ∈ s.p, s.Active h ∧ ∀ q ∈ s.ps.peek .BLOCKED,
    ¬((s.ps.procs q).currentPos < (s.ps.procs h).currentPos ∧
      s.cursor = (s.ps.procs h).currentPos)) (by
    refine and_congr_right fun _ => exists_congr fun h => ⟨fun ⟨_, ha, hq⟩ => ⟨ha, hq⟩, ?_⟩
    exact fun ⟨ha, hq⟩ => ⟨ha.1, ha, hq⟩)

/-! ## What is read -/

namespace Reads

/-- A record is read at the cursor, which is moved past it. -/
theorem scanned (h : s.Reads c r u) : ∃ rest,
    fscanf simulatorFormat (c.text.drop r.fpos) = ⟨2, [r.pid, r.vpn], rest⟩ ∧
      u.cursor = c.text.length - rest.length ∧
      (r.pid = (s.ps.procs r.p).pid → u.stderr = s.stderr) := by
  obtain ⟨rest, hscan, rfl⟩ := h.scan
  refine ⟨rest, hscan, paged_cursor, fun hpid => paged_stderr.trans ?_⟩
  rw [reading, tick_procs, if_neg (not_not.2 hpid), tick_stderr]

/-- A reference is read at the position of its process. -/
theorem fpos_eq (h : s.Reads c r u) : r.fpos = s.nextPos r.p := by
  obtain ⟨queue, hq⟩ := h.head
  rw [h.fpos, nextPos_eq_position hq]

end Reads

theorem Move.reads (h : s.Move c e s') (he : e.reference = some r) : ∃ u, s.Reads c r u := by
  cases h with
  | completion | idle => cases he
  | jump h | next h | finish h | miss h =>
    obtain rfl := Option.some.inj he
    exact ⟨_, h⟩

/-! ## The active process -/

/-- Only the end of an I/O can be about another process than the one which runs. -/
theorem Move.completion_of_active (h : s.Move c e s') (ha : s.Active q) (hq : e.proc ≠ some q) :
    ∃ p v ppn victim, e = .completion p v ppn victim := by
  have hpeek : s.ps.peek .RUNNABLE = some q := ha.2
  cases e with
  | completion p v ppn victim => exact ⟨p, v, ppn, victim, rfl⟩
  | idle =>
    obtain ⟨b, bs, -, -, hr, -⟩ := h.idle_blocked
    rw [Processes.peek, hr] at hpeek
    cases hpeek
  | hit r =>
    obtain ⟨queue, hr⟩ := h.runnable_of_hit
    rw [Processes.peek, hr] at hpeek
    exact absurd hpeek hq
  | miss r =>
    obtain ⟨queue, hr, -⟩ := h.runnable_of_miss
    rw [Processes.peek, hr] at hpeek
    exact absurd hpeek hq

/-- The process which ran last, after a reference. -/
theorem Move.p_of_reference (h : s.Move c e s') (he : e.reference = some r) :
    s'.p = some r.p ∨ s'.p = none := by
  cases h with
  | completion | idle => cases he
  | jump h | next h | miss h =>
    obtain rfl := Option.some.inj he
    exact .inl h.p_eq
  | finish h =>
    exact .inr rfl

theorem Move.p_miss (h : s.Move c (.miss r) s') : s'.p = some r.p := by
  cases h with
  | miss h => exact h.p_eq

theorem Move.p_idle (h : s.Move c .idle s') : s'.p = s.p := by
  cases h with
  | idle => exact tick_p

/-- The first runnable process, after the end of an I/O: the one which resumes if
    it is before the first one, which remains so otherwise. -/
theorem Move.peek_completion [R.Lawful] {v : PageId} {ppn : ℕ} {victim : Option PageId}
    (h : s.Move c (.completion p v ppn victim) s') (hs : s.WellFormed c)
    (hq : s.ps.peek .RUNNABLE = some q) :
    p ≠ q ∧ s'.ps.peek .RUNNABLE = some (if (s.ps.procs p).currentPos < (s.ps.procs q).currentPos
      then p else q) := by
  obtain ⟨queue, hr⟩ := List.head?_eq_some_iff.1 hq
  obtain ⟨bs, hb, -⟩ := h.completion_blocked
  obtain ⟨hproc, hrun, -⟩ := h.completion_proc
  have hp : p ≠ q := fun e =>
    hs.ps.disjoint (by simp) (hb ▸ List.mem_cons_self) (e ▸ hr ▸ List.mem_cons_self)
  have hbefore : s'.ps.Before p q ↔ (s.ps.procs p).currentPos < (s.ps.procs q).currentPos := by
    rw [Processes.Before, hproc, (h.spared fun e => hp (Option.some.inj e)).currentPos]
  refine ⟨hp, ?_⟩
  rw [Processes.peek, hrun, hr, List.orderedInsert_cons, if_congr hbefore rfl rfl]
  split <;> rfl

/-- A process that does not run still does not after an iteration about another. -/
theorem Move.not_active [R.Lawful] (h : s.Move c e s') (hs : s.WellFormed c)
    (hq : e.proc ≠ some q) (ha : ¬s.Active q) : ¬s'.Active q := by
  rintro ⟨hp', hpeek⟩
  cases e with
  | completion p v ppn victim =>
    obtain ⟨-, hrun, -, hp⟩ := h.completion_proc
    have hne : p ≠ q := fun e => hq (congrArg some e)
    cases hr : s.ps.pq .RUNNABLE with
    | nil =>
      rw [Processes.peek, hrun, hr] at hpeek
      exact hne (Option.some.inj hpeek)
    | cons x queue =>
      have hx : s.ps.peek .RUNNABLE = some x := by rw [Processes.peek, hr, List.head?_cons]
      rw [(h.peek_completion hs hx).2] at hpeek
      split at hpeek
      · exact hne (Option.some.inj hpeek)
      · exact ha ⟨hp ▸ hp', Option.some.inj hpeek ▸ hx⟩
  | idle =>
    obtain ⟨b, bs, -, -, hr, hpq⟩ := h.idle_blocked
    rw [Processes.peek, hpq, hr] at hpeek
    cases hpeek
  | hit r | miss r =>
    rcases h.p_of_reference rfl with hp | hp
    · exact hq (hp.symm.trans hp')
    · rw [hp] at hp'
      cases hp'

/-- After a miss, its process does not run. -/
theorem Move.miss_not_active [R.Lawful] (h : s.Move c (.miss r) s') (hs : s.WellFormed c) :
    ¬s'.Active r.p := fun ha => by
  obtain ⟨hb, -⟩ := h.miss_blocked
  have hmem : r.p ∈ s'.ps.pq .BLOCKED := by simp [hb]
  exact (h.wellFormed hs).ps.disjoint (by simp) hmem (List.mem_of_mem_head? ha.2)

/-- The end of an I/O may take its place from the process which runs. -/
theorem Move.preempted [R.Lawful] {v : PageId} {ppn : ℕ} {victim : Option PageId}
    (h : s.Move c (.completion p v ppn victim) s') (hs : s.WellFormed c) (ha : s.Active q)
    (hlt : (s.ps.procs p).currentPos < (s.ps.procs q).currentPos) : p ≠ q ∧ ¬s'.Active q := by
  obtain ⟨hp, hpeek⟩ := h.peek_completion hs ha.2
  rw [if_pos hlt] at hpeek
  exact ⟨hp, fun ha' => hp (Option.some.inj (hpeek.symm.trans ha'.2))⟩

/-- An undisturbed iteration leaves the positions of the other processes as they
    are. -/
theorem Move.nextPos_eq [R.Lawful] (h : s.Move c e s') (hs : s.WellFormed c) (hun : ¬s.Disturbed)
    (hq : e.proc ≠ some q) : s'.nextPos q = s.nextPos q := by
  have hpos := (h.spared hq).currentPos
  by_cases ha : s.Active q
  · obtain ⟨p, v, ppn, victim, rfl⟩ := h.completion_of_active ha hq
    obtain ⟨bs, hb, hd, -⟩ := h.completion_blocked
    obtain ⟨hlt, hcursor⟩ : (s.ps.procs p).currentPos < (s.ps.procs q).currentPos ∧
        s.cursor = (s.ps.procs q).currentPos := by
      by_contra hne
      refine hun ⟨hd, q, ha, fun b hb' => ?_⟩
      rw [Processes.peek, hb] at hb'
      exact Option.some.inj hb' ▸ hne
    rw [nextPos_of_not_active (h.preempted hs ha hlt).2, nextPos_of_active ha, hpos, hcursor]
  · rw [nextPos_of_not_active (h.not_active hs hq ha), nextPos_of_not_active ha, hpos]

/-! ## The lines of a process -/

/-- The processes index the records of the trace file. -/
structure Indexed (tr : Trace) (s : Sim R) : Prop where
  pid : ∀ {p}, p < s.ps.nextProc → ∃ k, 1 ≤ k ∧ k ≤ tr.length ∧ (s.ps.procs p).pid = tr.pid k
  indexes : ∀ {p}, p < s.ps.nextProc → ∀ i ∈ (s.ps.procs p).lineIntervals.intervals,
    (s.ps.procs p).Indexes tr.pid (lineStart tr.text) tr.length i

variable {tr : Trace}

theorem Move.indexed (h : s.Move c e s') (hi : s.Indexed tr) : s'.Indexed tr := by
  refine ⟨fun {p} hp => ?_, fun {p} hp i him => ?_⟩
  all_goals obtain ⟨hl, hpid⟩ := h.index_eq p
  · rw [hpid]
    exact hi.pid (h.nextProc ▸ hp)
  · rw [hl] at him
    obtain ⟨hrun, hle, hpos, hkey⟩ := hi.indexes (h.nextProc ▸ hp) i him
    exact ⟨hrun, hle, hpos, hkey.trans (by rw [hpid])⟩

/-- A process jumps to the record of its next line. -/
theorem Indexed.at_jump (hi : s.Indexed tr) (hs : s.ps.WellFormed) (hp : p < s.ps.nextProc)
    (hj : (s.ps.procs p).hasIntervalsRemaining = true) :
    tr.At (s.ps.procs p).jumpToNextInterval.currentPos
      (s.ps.procs p).jumpToNextInterval.currentline :=
  (hi.indexes hp _ ((hs.placed hp).jumpToNextInterval hj).first_mem).at_low

/-- The current line of a process is a record with the key of its process number. -/
theorem Indexed.current (hi : s.Indexed tr) (hs : s.ps.WellFormed) (hp : p < s.ps.nextProc) :
    1 ≤ (s.ps.procs p).currentline ∧ (s.ps.procs p).currentline ≤ tr.length ∧
      pidKey (tr.pid (s.ps.procs p).currentline) = pidKey (s.ps.procs p).pid := by
  have hplaced := hs.placed hp
  obtain ⟨hrun, hle, -, hkey⟩ := hi.indexes hp _ hplaced.first_mem
  refine ⟨hrun.one_le.trans hplaced.low_le, hplaced.le_high.trans hle, ?_⟩
  rw [hrun.same _ hplaced.low_le hplaced.le_high, hkey]

/-- A reference at the record of its line reads it, and leaves the cursor at the
    next record. -/
theorem Reads.record (h : s.Reads c r u) (htext : c.text = tr.text) (hat : tr.At r.fpos r.line)
    (h1 : 1 ≤ r.line) (hn : r.line ≤ tr.length) :
    r.pid = tr.pid r.line ∧ r.vpn = tr.vpn r.line ∧ tr.At u.cursor (r.line + 1) := by
  obtain ⟨rest, hscan, hcursor, -⟩ := h.scanned
  rw [htext, hat.fscanf h1 hn] at hscan
  obtain ⟨-, hvalues, hrest⟩ := Scanned.mk.inj hscan
  obtain ⟨hpid, hvpn⟩ : tr.pid r.line = r.pid ∧ tr.vpn r.line = r.vpn := by simpa using hvalues
  refine ⟨hpid.symm, hvpn.symm, ?_⟩
  rw [hcursor, htext, ← hrest]
  exact Trace.At.next tr r.line

end Sim

theorem Setup.Reachable.indexed {R : ReplaceModule} [R.Lawful] {c : Setup} {s : Sim R}
    {tr : Trace} (htext : c.text = tr.text) (h : c.Reachable R s) : s.Indexed tr := by
  refine (h.invariant (I := Sim.Indexed tr) (fun s₀ h₀ => ?_)
    fun s e s' _ _ hi hm => hm.indexed hi).2.2
  obtain ⟨ps, rfl, hi⟩ := Setup.start_indexed htext h₀
  exact ⟨fun hp => ⟨_, (hi.firstline_le hp).1, (hi.firstline_le hp).2, hi.pid_eq hp⟩, hi.indexes⟩

/-! ## The start -/

/-- At the start, every process is at its first record. -/
theorem Setup.at_start {R : ReplaceModule} {c : Setup} {tr : Trace} {ps : Processes}
    (hi : Pfsim.Indexed tr.pid (lineStart tr.text) tr.length ps) {p : ProcId}
    (hp : p < ps.nextProc) :
    tr.At (ps.procs p).currentPos (ps.procs p).currentline ∧
      (Sim.init R c ps).nextPos p = (ps.procs p).currentPos := by
  have hle := hi.firstline_le hp
  refine ⟨?_, ?_⟩
  · rw [hi.currentPos_eq hp, (hi.fresh hp).currentline]
    exact Trace.at_lineStart hle.1 hle.2
  · by_cases ha : (Sim.init R c ps).Active p
    · -- The first process is at the first line.
      have hpeek : (ps.pq .RUNNABLE).head? = some p := ha.2
      obtain rfl : p = 0 := by
        rw [hi.runnable, List.head?_range, if_neg (Nat.ne_zero_of_lt hp)] at hpeek
        exact (Option.some.inj hpeek).symm
      rw [Sim.nextPos_of_active ha, hi.currentPos_eq hp, hi.firstline_zero hp]
      rfl
    · exact Sim.nextPos_of_not_active ha

end Pfsim
