import Pfsim.Simulator.Accounting
import Pfsim.Simulator.Quit
import Pfsim.Simulator.Sync
import Pfsim.Simulator.Termination

/-!
# A single process

On a well-formed trace file with a single process number, nothing disturbs the process: it
is always at the record after those it has hit (`Setup.Reachable.currentline_single`),
whether it reads it (`Sim.Reads.vpn_single`) or waits for its page
(`Setup.Reachable.awaited_single`). If every frame has a bit, the simulation returns
(`Setup.Blank.returns_single`).
-/

namespace Pfsim

variable {R : ReplaceModule} [R.Lawful] {c : Setup} {s s' s₀ u : Sim R} {e : Event} {r : Reference}
  {p : ProcId} {tr : Trace}

/-- There is a single process number. -/
def Trace.Single (tr : Trace) : Prop := ∀ k, 1 ≤ k → k ≤ tr.length → tr.pid k = tr.pid 1

/-- There is nothing behind it in the queue. -/
theorem Sim.WellFormed.runnable_single (hs : s.WellFormed c) (h1 : s.ps.nextProc ≤ 1)
    {queue : List ProcId} (hq : s.ps.pq .RUNNABLE = p :: queue) : queue = [] := by
  have hzero {q : ProcId} (hmem : q ∈ s.ps.pq .RUNNABLE) : q = 0 :=
    Nat.lt_one_iff.1 ((hs.ps.lt hmem).trans_le h1)
  refine List.eq_nil_iff_forall_not_mem.2 fun q hmem => ?_
  have hnd := hs.ps.nodup .RUNNABLE
  rw [hq] at hnd hzero
  rw [hzero List.mem_cons_self, ← hzero (List.mem_cons_of_mem p hmem)] at hnd
  exact (List.nodup_cons.1 hnd).1 hmem

/-- With a single process, no I/O is over while it runs. -/
theorem Sim.WellFormed.undisturbed (hs : s.WellFormed c) (h1 : s.ps.nextProc ≤ 1) :
    ¬s.Disturbed := by
  rintro ⟨hd, h, ha, -⟩
  obtain ⟨q, bs, hb⟩ := Sim.exists_blocked_of_ioDue hd
  have hr := (hs.single h1).resolve_right (by simp [hb])
  have hpeek := ha.2
  rw [Processes.peek, hr] at hpeek
  cases hpeek

/-- So it is always at the record of its current line. -/
theorem Setup.Reachable.synced (htext : c.text = tr.text) (h : c.Reachable R s)
    (h1 : s.ps.nextProc ≤ 1) : s.Synced tr := by
  refine (h.invariant (I := fun s => s.Indexed tr ∧ (s.ps.nextProc ≤ 1 → s.Synced tr))
    (fun s₀ h₀ => ⟨?_, fun _ => Setup.start_synced htext h₀⟩) fun s e s' hs _ hi hm => ?_).2.2.2 h1
  · exact Setup.Reachable.indexed htext ⟨s₀, h₀, .refl⟩
  · refine ⟨hm.indexed hi.1, fun h1 => ?_⟩
    rw [hm.nextProc] at h1
    exact hm.synced htext hs hi.1 (hs.undisturbed h1) (hi.2 h1)

/-- The lines left are those after the hits. -/
theorem Setup.Reachable.remaining_single (htext : c.text = tr.text) (hpid : tr.Single)
    (h : c.Reachable R s) (hp : p < s.ps.nextProc) :
    s.remaining p = List.range' (s.stat.tmr + 1) (tr.length - s.stat.tmr) := by
  have hone := h.nextProc_le_one htext hpid
  refine (h.invariant (I := fun s => s.ps.nextProc ≤ 1 → ∀ p < s.ps.nextProc, s.remaining p =
    List.range' (s.stat.tmr + 1) (tr.length - s.stat.tmr)) (fun s₀ h₀ _ p hp => ?_)
    fun s e s' hs _ hi hm h1 p hp => ?_).2.2 hone p hp
  · -- At the start, all the lines are those of the only process.
    obtain ⟨ps, rfl, hi⟩ := Setup.start_indexed htext h₀
    rw [Setup.remaining_start hi hp, hi.lines_eq hp]
    refine List.filter_eq_self.2 fun k hk => decide_eq_true ?_
    obtain ⟨h1, hk⟩ := List.mem_range'_1.1 hk
    obtain ⟨hf, hf'⟩ := hi.firstline_le hp
    rw [hi.pid_eq hp, hpid k h1 (by omega), hpid _ hf hf']
  · rw [hm.nextProc] at h1 hp
    have hleft := hi h1 p hp
    rw [hm.tmr_tpi.1]
    cases e with
    | completion | idle | miss =>
      rw [hm.remaining_eq hs (by simp), hleft]
      rfl
    | hit r =>
      obtain ⟨queue, hq⟩ := hm.runnable_of_hit
      have hr : r.p = p := by
        have := hs.ps.lt (hq ▸ List.mem_cons_self : r.p ∈ s.ps.pq .RUNNABLE)
        exact (Nat.lt_one_iff.1 (this.trans_le h1)).trans (Nat.lt_one_iff.1 (hp.trans_le h1)).symm
      subst hr
      rw [hm.remaining_hit hs] at hleft
      obtain ⟨n, hn⟩ := Nat.exists_eq_succ_of_ne_zero
        (show tr.length - s.stat.tmr ≠ 0 by
          intro h0
          rw [h0] at hleft
          cases hleft)
      rw [hn, List.range'_succ] at hleft
      rw [(List.cons.inj hleft).2, Event.hits]
      congr 1
      omega

/-- The line of a process is the first one left. -/
theorem Setup.Reachable.currentline_single (htext : c.text = tr.text) (hpid : tr.Single)
    (h : c.Reachable R s) (hp : p < s.ps.nextProc) (hst : (s.ps.procs p).status ≠ .FINISHED) :
    (s.ps.procs p).currentline = s.stat.tmr + 1 := by
  have hleft := h.remaining_single htext hpid hp
  have hle := (h.wellFormed.ps.placed hp).le_high
  obtain ⟨n, hn⟩ := Nat.exists_eq_succ_of_ne_zero
    (show (s.ps.procs p).currInterval.high + 1 - (s.ps.procs p).currentline ≠ 0 by omega)
  rw [Sim.remaining, if_neg hst, Process.linesLeft, hn, List.range'_succ, List.cons_append] at hleft
  cases hm : tr.length - s.stat.tmr with
  | zero =>
    rw [hm] at hleft
    cases hleft
  | succ m =>
    rw [hm, List.range'_succ] at hleft
    exact (List.cons.inj hleft).1

/-- The simulation goes on as long as there are records left. -/
theorem Setup.Reachable.tmr_lt_iff (htext : c.text = tr.text) (hpid : tr.Single)
    (h : c.Reachable R s) : s.stat.tmr < tr.length ↔ s.notDone = true := by
  have hw := h.wellFormed
  refine ⟨fun hlt => by_contra fun hdone => ?_, fun hr => ?_⟩
  · exact hlt.ne (h.tmr_of_done htext (by simpa using hdone))
  · obtain ⟨p, hp, hst⟩ := hw.notDone_iff.1 hr
    have hle := ((h.indexed htext).current hw.ps hp).2.1
    rwa [h.currentline_single htext hpid hp hst] at hle

/-- If every frame has a bit, and `malloc` leaves `NULL`, the simulation returns. -/
theorem Setup.Blank.returns_single (hb : c.Blank) (htext : c.text = tr.text) (hpid : tr.Single)
    (h32 : 32 ∣ c.frames) :
    ∃ s₀ ts s, c.start R = .ok s₀ ∧ (c.machine R).Returns s₀ ts s := by
  obtain ⟨ps, hps, -⟩ := tr.exists_firstPass c.slot
  have h₀ : c.start R = .ok (.init R c ps) := by rw [Setup.start, htext, hps, ok_bind]
  have hreach : c.Reachable R (.init R c ps) := ⟨_, h₀, .refl⟩
  have hone := hreach.nextProc_le_one htext hpid
  obtain ⟨ts, s, h | ⟨msg, h, hr, hstop⟩⟩ :=
    hreach.ends (.inr hone) fun s _ => hb.not_unwritten s
  · exact ⟨_, ts, s, h₀, h⟩
  -- None of the exits can happen.
  have hs := Setup.Reachable.of_run h₀ h
  have hw := hs.wellFormed
  exfalso
  rcases Sim.step_cases hw hr with ⟨e, s', hok, -⟩ | ⟨hexit, -⟩ | ⟨hun, -⟩
  · exact absurd (hok.symm.trans hstop) (by simp)
  · cases hexit with
    | noFrame _ hfull hfree =>
      have hlt : s.pager.mem.allocated < s.pager.mem.memSize := by
        simpa [Memory.hasFreePage] using hfree
      rw [s.pager.mem.tracked_eq_iff.2 (hw.memSize.symm ▸ h32)] at hfull
      omega
    | noRecord _ hq hscan =>
      obtain ⟨pid, vpn, rest, hrec⟩ :=
        (hs.synced htext (hs.nextProc_le_one htext hpid)).exists_record
        htext hw (hs.indexed htext) hq
      exact hscan pid vpn rest hrec
  · exact hb.not_unwritten s hun

/-- The page numbers of the records, from the first one. -/
def Trace.references (tr : Trace) (k : ℕ) : ℕ := tr.vpn (k + 1)

/-- A reference is to the page of the line after the hits. -/
theorem Sim.Reads.vpn_single (h : s.Reads c r u) (htext : c.text = tr.text) (hpid : tr.Single)
    (hs : c.Reachable R s) : r.line = s.stat.tmr + 1 ∧ r.vpn = tr.references s.stat.tmr := by
  have hw := hs.wellFormed
  obtain ⟨hp, hst⟩ := h.status hw
  have hline := hs.currentline_single htext hpid hp (by simp [hst])
  obtain ⟨hat, h1, hn, -⟩ := h.at_line hw (hs.indexed htext)
    (hs.synced htext (hs.nextProc_le_one htext hpid))
  rw [h.line, hline]
  refine ⟨rfl, ?_⟩
  rw [(h.record htext hat h1 hn).2.1, h.line, hline]
  rfl

/-- The page a process waits for is that of the same line. -/
theorem Setup.Reachable.awaited_single (htext : c.text = tr.text) (hpid : tr.Single)
    (hs : c.Reachable R s) (hp : p ∈ s.ps.pq .BLOCKED) {v : PageId}
    (hv : (s.ps.procs p).waitingOnPage = some v) :
    (s.pager.mem.vpages v).vpn = tr.references s.stat.tmr := by
  have hw := hs.wellFormed
  have hlt := hw.ps.lt hp
  have hst := hw.ps.status hp
  obtain ⟨pid, vpn, rest, v', hscan, hv', hget, -⟩ := (hw.settled hlt).awaits hst
  obtain rfl : v = v' := Option.some.inj (hv.symm.trans hv')
  have hone := hs.nextProc_le_one htext hpid
  have hinactive : ¬s.Active p := fun ha =>
    hw.ps.disjoint (by simp) hp (List.mem_of_mem_head? ha.2)
  have hat := hs.synced htext hone p hlt (by simp [hst])
  rw [Sim.nextPos_of_not_active hinactive] at hat
  obtain ⟨h1, hn, -⟩ := (hs.indexed htext).current hw.ps hlt
  rw [htext, hat.fscanf h1 hn, hs.currentline_single htext hpid hlt (by simp [hst])] at hscan
  obtain ⟨-, rfl⟩ : _ ∧ tr.vpn (s.stat.tmr + 1) = vpn := by simpa using (Scanned.mk.inj hscan).2.1
  exact ((hw.settled hlt).page (by simp [hst]) (PageTable.mem_of_get hget)).2.2

/-- With a single process, its pages are known by their numbers. -/
theorem Sim.WellFormed.eq_of_vpn (hs : s.WellFormed c) (ho : s.Owned) (h1 : s.ps.nextProc ≤ 1)
    {v w : PageId} (hv : s.pager.mem.live v = true) (hw : s.pager.mem.live w = true)
    (he : (s.pager.mem.vpages v).vpn = (s.pager.mem.vpages w).vpn) : v = w := by
  obtain ⟨p, hp, hst, hpv⟩ := ho v hv
  obtain ⟨q, hq, -, hqw⟩ := ho w hw
  obtain rfl : p = q :=
    (Nat.lt_one_iff.1 (hp.trans_le h1)).trans (Nat.lt_one_iff.1 (hq.trans_le h1)).symm
  obtain ⟨⟨k, _⟩, hk, rfl⟩ := List.mem_map.1 hpv
  obtain ⟨⟨k', _⟩, hk', rfl⟩ := List.mem_map.1 hqw
  have hset := hs.settled hp
  have hkey : k = k' := (hset.page hst hk).2.2.symm.trans (he.trans (hset.page hst hk').2.2)
  exact congrArg Prod.snd (List.inj_on_of_nodup_map (hset.keys hst) hk hk' hkey)

end Pfsim
