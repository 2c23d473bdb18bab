import Pfsim.Simulator.Sync
import Pfsim.TraceParser.Renaming

/-!
# Boundaries

A process may be taken to the records of another one (`record_of_another`), but never in the
middle of a record: the positions saved are those of records, and the cursor is at a
record or at the end of the file (`Sim.Bounded`), whatever happens.

* `records_whole`: so every reference is to the page of some record of the file, and only the
  end of the file cannot be read.
-/

namespace Pfsim

variable {R : ReplaceModule} [R.Lawful] {c : Setup} {s s' u : Sim R} {e : Event}
  {r : Reference} {tr : Trace} {p q : ProcId}

/-- The position of a record. -/
def Trace.Starts (tr : Trace) (pos : ℕ) : Prop := ∃ k, 1 ≤ k ∧ k ≤ tr.length ∧ tr.At pos k

/-- The position of a record, or the end. -/
def Trace.Boundary (tr : Trace) (pos : ℕ) : Prop := tr.Starts pos ∨ tr.At pos (tr.length + 1)

theorem Trace.boundary_of_at {pos k : ℕ} (h : tr.At pos k) (h1 : 1 ≤ k)
    (hk : k ≤ tr.length + 1) : tr.Boundary pos := by
  rcases Nat.lt_or_ge tr.length k with hlt | hle
  · obtain rfl : k = tr.length + 1 := Nat.le_antisymm hk hlt
    exact .inr h
  · exact .inl ⟨k, h1, hle, h⟩

namespace Sim

/-- The cursor and the positions saved for the processes are where records start, or end. -/
structure Bounded (tr : Trace) (s : Sim R) : Prop where
  cursor : tr.Boundary s.cursor
  saved : ∀ p < s.ps.nextProc, (s.ps.procs p).status ≠ .FINISHED →
    tr.Starts (s.ps.procs p).currentPos

omit [R.Lawful] in
theorem Bounded.nextPos (h : s.Bounded tr) (hp : p < s.ps.nextProc)
    (hst : (s.ps.procs p).status ≠ .FINISHED) : tr.Boundary (s.nextPos p) := by
  rw [Sim.nextPos]
  split
  · exact h.cursor
  · exact .inl (h.saved p hp hst)

omit [R.Lawful] in
/-- A process jumps to a record. -/
theorem Indexed.starts_jump (hi : s.Indexed tr) (hs : s.ps.WellFormed) (hp : p < s.ps.nextProc)
    (hj : (s.ps.procs p).hasIntervalsRemaining = true) :
    tr.Starts (s.ps.procs p).jumpToNextInterval.currentPos := by
  have hplaced := (hs.placed hp).jumpToNextInterval hj
  obtain ⟨hrun, hle, -⟩ := hi.indexes hp _ hplaced.first_mem
  exact ⟨_, hrun.one_le.trans hplaced.low_le, hplaced.le_high.trans hle, hi.at_jump hs hp hj⟩

/-- A reference reads a record, and leaves the cursor after it. -/
theorem Bounded.reads (h : s.Bounded tr) (htext : c.text = tr.text) (hs : s.WellFormed c)
    (hr : s.Reads c r u) : ∃ k, (1 ≤ k ∧ k ≤ tr.length) ∧ tr.At r.fpos k ∧
      r.pid = tr.pid k ∧ r.vpn = tr.vpn k ∧ tr.At u.cursor (k + 1) := by
  obtain ⟨hp, hst⟩ := hr.status hs
  obtain ⟨rest, hscan, hcursor, -⟩ := hr.scanned
  rw [htext] at hscan hcursor
  rcases hr.fpos_eq ▸ h.nextPos hp (by simp [hst]) with ⟨k, h1, hk, hat⟩ | hend
  · rw [hat.fscanf h1 hk] at hscan
    obtain ⟨-, hvalues, hrest⟩ := Scanned.mk.inj hscan
    obtain ⟨hpid, hvpn⟩ : tr.pid k = r.pid ∧ tr.vpn k = r.vpn := by simpa using hvalues
    exact ⟨k, ⟨h1, hk⟩, hat, hpid.symm, hvpn.symm, by rw [hcursor, ← hrest]; exact .next tr k⟩
  · rw [hend.fscanf_past (Nat.lt_succ_self _)] at hscan
    cases hscan

omit [R.Lawful] in
/-- A reference leaves the cursor after its record, or takes it to another interval. -/
theorem Move.cursor_of_reference (h : s.Move c e s') (he : e.reference = some r) :
    ∃ u, s.Reads c r u ∧ (s'.cursor = u.cursor ∨
      (s.ps.procs r.p).hasIntervalsRemaining = true ∧
        s'.cursor = (s.ps.procs r.p).jumpToNextInterval.currentPos) := by
  cases h with
  | completion | idle => cases he
  | @jump r u rep h hm ha hl hi =>
    obtain rfl := Option.some.inj he
    obtain ⟨pt, hproc⟩ := h.procs r.p
    have hp : (u.accessed rep).ps.procs r.p = _ := hproc
    refine ⟨u, h, .inr ⟨?_, ?_⟩⟩
    · rw [hproc] at hi
      exact hi
    · rw [jumped, hp]
      rfl
  | next h | finish h | miss h =>
    obtain rfl := Option.some.inj he
    exact ⟨_, h, .inl rfl⟩

/-- The cursor moves to where a record ends, or to a position saved. -/
theorem Move.bounded_cursor (h : s.Move c e s') (htext : c.text = tr.text) (hs : s.WellFormed c)
    (hi : s.Indexed tr) (hb : s.Bounded tr) : tr.Boundary s'.cursor := by
  cases e with
  | idle =>
    cases h with
    | @idle b => exact (tick_cursor (s := s)).symm ▸ hb.cursor
  | completion p v ppn victim =>
    obtain ⟨bs, hqueue, -⟩ := h.completion_blocked
    have hmem : p ∈ s.ps.pq .BLOCKED := hqueue ▸ List.mem_cons_self
    rw [h.completion_proc.2.2.1]
    exact .inl (hb.saved p (hs.ps.lt hmem) (by simp [hs.ps.status hmem]))
  | hit r | miss r =>
    obtain ⟨u, hu, hcursor | ⟨hj, hcursor⟩⟩ := h.cursor_of_reference rfl <;> rw [hcursor]
    · obtain ⟨k, ⟨h1, hk⟩, -, -, -, hat⟩ := hb.reads htext hs hu
      exact Trace.boundary_of_at hat (Nat.succ_pos k) (Nat.succ_le_succ hk)
    · exact .inl (hi.starts_jump hs.ps (hu.status hs).1 hj)

/-- The position saved for a process changes when it faults, to that of the record read, and
    when it jumps. -/
theorem Move.bounded_saved (h : s.Move c e s') (htext : c.text = tr.text) (hs : s.WellFormed c)
    (hi : s.Indexed tr) (hb : s.Bounded tr) (hq : q < s.ps.nextProc)
    (hst : (s'.ps.procs q).status ≠ .FINISHED) : tr.Starts (s'.ps.procs q).currentPos := by
  by_cases hproc : e.proc = some q
  · cases e with
    | idle => cases hproc
    | completion p v ppn victim =>
      obtain rfl := Option.some.inj hproc
      obtain ⟨bs, hqueue, -⟩ := h.completion_blocked
      have hst' := hs.ps.status (hqueue ▸ List.mem_cons_self)
      rw [h.completion_proc.1]
      exact hb.saved p hq (by simp [hst'])
    | miss r =>
      obtain rfl := Option.some.inj hproc
      obtain ⟨u, hu⟩ := h.reads rfl
      obtain ⟨k, ⟨h1, hk⟩, hat, -⟩ := hb.reads htext hs hu
      rw [h.miss_blocked.2.2.2]
      exact ⟨k, h1, hk, hat⟩
    | hit r =>
      obtain rfl := Option.some.inj hproc
      obtain ⟨u, hu⟩ := h.reads rfl
      obtain ⟨w, pt, ⟨hj, -, -, he⟩ | ⟨-, -, -, -, he⟩ | ⟨-, -, -, he⟩⟩ := h.hit_proc
      · rw [he]
        exact hi.starts_jump hs.ps hq hj
      · rw [he]
        exact hb.saved r.p hq (by simp [(hu.status hs).2])
      · rw [he] at hst
        exact absurd rfl hst
  -- A process which has no part in the iteration keeps its position.
  · have hspared := h.spared hproc
    rw [hspared.currentPos]
    exact hb.saved q hq (hspared.status ▸ hst)

theorem Move.bounded (h : s.Move c e s') (htext : c.text = tr.text) (hs : s.WellFormed c)
    (hi : s.Indexed tr) (hb : s.Bounded tr) : s'.Bounded tr where
  cursor := h.bounded_cursor htext hs hi hb
  saved _ hq hst := h.bounded_saved htext hs hi hb (h.nextProc ▸ hq) hst

end Sim

/-! ## Reachable states -/

theorem Setup.Reachable.bounded (htext : c.text = tr.text) (h : c.Reachable R s) :
    s.Bounded tr := by
  refine (h.invariant (I := fun s => s.Indexed tr ∧ s.Bounded tr) (fun s₀ h₀ => ?_)
    fun s e s' hs _ hi hm => ⟨hm.indexed hi.1, hm.bounded htext hs hi.1 hi.2⟩).2.2.2
  refine ⟨Reachable.indexed htext ⟨s₀, h₀, .refl⟩, ?_⟩
  obtain ⟨ps, rfl, hi⟩ := Setup.start_indexed htext h₀
  refine ⟨?_, fun p hp _ => ?_⟩
  · exact Trace.boundary_of_at (Trace.at_of_drop rfl) le_rfl (Nat.succ_pos _)
  · have hle := hi.firstline_le hp
    refine ⟨_, hle.1, hle.2, ?_⟩
    change tr.At (ps.procs p).currentPos _
    rw [hi.currentPos_eq hp]
    exact Trace.at_lineStart hle.1 hle.2

/-- On a well-formed trace file, no record is torn: in any run, even if processes run records
    of others, every reference reads, where a record starts, the numbers of this record, the
    positions saved for the processes are those of records, and if a line cannot be read
    it is because the end of the file has been reached. -/
theorem records_whole (c : Setup) (π : Policy) {tr : Trace} (htext : c.text = tr.text)
    {s₀ s : Sim π.replace} {ts : List (Machine.Transition (Sim π.replace) Event)}
    (h₀ : c.start π.replace = .ok s₀) (h : (c.machine π.replace).Run s₀ ts s) :
    (∀ t ∈ ts, ∀ r, t.lbl.reference = some r →
      ∃ k, (1 ≤ k ∧ k ≤ tr.length) ∧ tr.At r.fpos k ∧ r.pid = tr.pid k ∧ r.vpn = tr.vpn k) ∧
    (∀ p < s.ps.nextProc, (s.ps.procs p).status ≠ .FINISHED →
      ∃ k, 1 ≤ k ∧ k ≤ tr.length ∧ tr.At (s.ps.procs p).currentPos k) ∧
    ∀ msg, s.notDone = true → s.tick.ioDue = false →
      s.step c true = .error (.exitFailure msg) → tr.At s.cursor (tr.length + 1) := by
  have hr := Setup.Reachable.of_run h₀ h
  refine ⟨fun t ht r he => ?_, (hr.bounded htext).saved, fun msg hrun hdue herr => ?_⟩
  · obtain ⟨hs, hm⟩ := Setup.move_of_mem h₀ h ht
    obtain ⟨u, hu⟩ := hm.reads he
    obtain ⟨k, hk, hat, hpid, hvpn, -⟩ := (hs.bounded htext).reads htext hs.wellFormed hu
    exact ⟨k, hk, hat, hpid, hvpn⟩
  · have hs := hr.wellFormed
    rcases Sim.step_cases hs hrun with ⟨e, s', hok, -⟩ | ⟨hexit, -⟩ | ⟨-, what, hwhat⟩
    · cases hok.symm.trans herr
    case inr.inr => cases hwhat.symm.trans herr
    cases hexit with
    | noFrame hw => cases hw.symm.trans hdue
    | @noRecord p queue _ hq hscan =>
      have hmem : p ∈ s.ps.pq .RUNNABLE := hq ▸ List.mem_cons_self
      have hst : (s.ps.procs p).status ≠ .FINISHED := by simp [hs.ps.status hmem]
      -- There is a record at all the positions but the end, and only the cursor may be there.
      have hnot : ¬tr.Starts (s.position p) := fun ⟨k, h1, hk, hat⟩ =>
        hscan _ _ _ (htext ▸ hat.fscanf h1 hk)
      rw [← Sim.nextPos_eq_position hq, Sim.nextPos] at hnot
      split at hnot
      · exact (hr.bounded htext).cursor.resolve_left hnot
      · exact absurd ((hr.bounded htext).saved p (hs.ps.lt hmem) hst) hnot

/-- A process which runs the record of another one, a whole one still. -/
theorem records_whole_another : ∃ (tr : Trace) (c : Setup) (s₀ s : Sim Policy.lru.replace) (ts : _),
    c.text = tr.text ∧ c.start Policy.lru.replace = .ok s₀ ∧
      (c.machine Policy.lru.replace).Run s₀ ts s ∧
      ∃ t ∈ ts, ∃ r, t.lbl = .hit r ∧ ¬tr.At r.fpos r.line ∧
        ∃ k, (1 ≤ k ∧ k ≤ tr.length) ∧ tr.At r.fpos k ∧ r.pid = tr.pid k ∧ r.vpn = tr.vpn k := by
  let tr : Trace := .ofDigits [('1', '1'), ('1', '1'), ('1', '1'), ('2', '1')] (by decide +kernel)
  let c : Setup := .debug 2 32 tr.text Nat.two_pos Setup.word_pos
  obtain ⟨s₀, ts, s, e, s', h₀, h, hs⟩ := Setup.exists_run_concat_of_after
    (R := Policy.lru.replace) (c := c) (n := 5)
    (P := fun _ e _ => (e.hitOf 0).any fun r => !decide (tr.At r.fpos r.line)) (by decide +kernel)
  obtain ⟨r, hr, hs⟩ := (Option.any_eq_true _ _).1 hs
  have hmem : (⟨s, e, s'⟩ : Machine.Transition _ _) ∈ ts ++ [⟨s, e, s'⟩] :=
    List.mem_append_right _ (List.mem_singleton_self _)
  exact ⟨tr, c, s₀, s', _, rfl, h₀, h, _, hmem, r, (Event.hitOf_eq_some.1 hr).1,
    by simpa using hs, (records_whole c .lru rfl h₀ h).1 _ hmem r (Event.reference_of_hitOf hr)⟩

end Pfsim
