import Pfsim.Paging.Algorithm
import Pfsim.Simulator.Single

/-!
# A process alone, and a replacement algorithm

With a single process, the simulator runs the replacement algorithm of its build on the
page numbers of the trace file: a reference which is a miss is run again once its page is
loaded, and is then a hit.

A build *implements* an algorithm (`Implements`) if a view of its pager as a state of the
algorithm is kept by the operations. Then the simulation goes through the states of the
algorithm (`Sim.Follows`), and it reports the faults of the algorithm
(`Setup.Reachable.tpi_of_implements`).
-/

namespace Pfsim

/-- The live pages are known by their numbers. -/
def Memory.Numbered (m : Memory) : Prop :=
  ∀ u v, m.live u = true → m.live v = true → (m.vpages u).vpn = (m.vpages v).vpn → u = v

/-- The operations of a build are those of an algorithm on page numbers, along a view of
    the pager as a state of the algorithm. -/
structure Implements (c : Setup) (R : ReplaceModule) [R.Lawful] (A : Paging.Algorithm ℕ) where
  View : Pager R → A.State → Prop
  init : View (.init R c.frames) A.init
  mem_iff {pg : Pager R} {a : A.State} {n : ℕ} : pg.WellFormed → View pg a →
    (n ∈ A.mem a ↔ ∃ v, pg.mem.Resident v ∧ (pg.mem.vpages v).vpn = n)
  new {pg : Pager R} {a : A.State} (pid vpn : ℕ) : pg.WellFormed → View pg a →
    View (pg.newVPage pid vpn).1 a
  access {pg : Pager R} {a : A.State} {v : PageId} {rep : R.State} : pg.WellFormed →
    pg.mem.Numbered → View pg a → pg.mem.Resident v →
    R.notifyPageAccess c.ndebug pg.mem pg.rep (pg.mem.vpages v).overhead = .ok rep →
    View ⟨pg.mem, rep⟩ (A.hit (pg.mem.vpages v).vpn a)
  load {s : Sim R} {a : A.State} {v : PageId} {ppn : ℕ} {victim : Option PageId} {pg : Pager R}
    {rep : R.State} : s.WellFormed c → View s.pager a → s.pager.mem.live v = true →
    ¬s.pager.mem.Resident v → s.findFrame c = .ok (ppn, victim, pg) →
    R.notifyPageLoad c.ndebug (pg.mem.loaded v ppn) pg.rep (pg.mem.vpages v).overhead = .ok rep →
    View ⟨pg.mem.loaded v ppn, rep⟩ (A.load (s.pager.mem.vpages v).vpn a)

namespace Sim

variable {R : ReplaceModule} [R.Lawful] {A : Paging.Algorithm ℕ} {c : Setup} {s s' u : Sim R}
  {e : Event} {r : Reference} {tr : Trace} {a : A.State}

/-- Reading a line may make a page. -/
theorem Reads.view (h : s.Reads c r u) (hs : s.WellFormed c) (I : Implements c R A)
    (hv : I.View s.pager a) : I.View u.pager a := by
  obtain ⟨rest, -, rfl⟩ := h.scan
  have hpager : (s.tick.reading c r.p r.pid rest).pager = s.pager := tick_pager
  rw [paged]
  split
  · rwa [hpager]
  · rw [hpager]
    exact I.new _ _ hs.pager hv

/-- The pages of the only process are known by their numbers. -/
theorem numbered (hs : s.WellFormed c) (ho : s.Owned) (h1 : s.ps.nextProc ≤ 1) :
    s.pager.mem.Numbered := fun _ _ hu hv he => hs.eq_of_vpn ho h1 hu hv he

/-! ## Following the algorithm -/

/-- The references run so far are those of the algorithm, all faults of which are accounted
    for. -/
inductive Follows (I : Implements c R A) (tr : Trace) (s : Sim R) : Prop
  /-- The last reference was a hit, after which the process may have finished. -/
  | ready (hb : s.ps.pq .BLOCKED = [])
      (hview : s.ps.pq .RUNNABLE ≠ [] → I.View s.pager (A.state tr.references s.stat.tmr))
      (htpi : s.stat.tpi = A.faults tr.references s.stat.tmr)
  /-- The next reference has been a miss, and its page is being loaded. -/
  | waiting (hb : s.ps.pq .BLOCKED ≠ [])
      (hview : I.View s.pager (A.state tr.references s.stat.tmr))
      (hnew : tr.references s.stat.tmr ∉ A.mem (A.state tr.references s.stat.tmr))
      (htpi : s.stat.tpi = A.faults tr.references (s.stat.tmr + 1))
  /-- Its page has been loaded, and the reference is run again. -/
  | loaded (hr : s.ps.pq .RUNNABLE ≠ [])
      (hview : I.View s.pager
        (A.load (tr.references s.stat.tmr) (A.state tr.references s.stat.tmr)))
      (hres : ∃ v, s.pager.mem.Resident v ∧ (s.pager.mem.vpages v).vpn = tr.references s.stat.tmr)
      (hnew : tr.references s.stat.tmr ∉ A.mem (A.state tr.references s.stat.tmr))
      (htpi : s.stat.tpi = A.faults tr.references (s.stat.tmr + 1))

variable {I : Implements c R A}

/-- The end of an I/O loads the page missed. -/
theorem Follows.completion {p : ProcId} {v : PageId} {ppn : ℕ} {victim : Option PageId}
    (h : s.Follows I tr) (htext : c.text = tr.text) (hpid : tr.Single) (hs : c.Reachable R s)
    (hm : s.Move c (.completion p v ppn victim) s') : s'.Follows I tr := by
  have hw := hs.wellFormed
  have hone := hs.nextProc_le_one htext hpid
  obtain ⟨htmr, htpi'⟩ := hm.tmr_tpi
  have hrun : s'.ps.pq .RUNNABLE ≠ [] := by
    cases hm
    rw [completed_pq_runnable]
    exact List.ne_nil_of_mem ((List.mem_orderedInsert _).2 (.inl rfl))
  cases hm with
  | @completion _ bs _ _ _ pg rep hq hd hv hf hl =>
    have hmem : p ∈ s.ps.pq .BLOCKED := hq ▸ List.mem_cons_self
    cases h with
    | ready hb => simp [hb] at hq
    -- The only process would be both runnable and blocked.
    | loaded hr => exact absurd (hw.single hone) (by simp [hr, hq])
    | waiting _ hview hnew htpi =>
      obtain ⟨hlive, -, hres⟩ := hw.awaited hmem hv
      have hfr := findFrame_ok hw hf
      have hvpn := hs.awaited_single htext hpid hmem hv
      refine .loaded hrun ?_ ⟨v, ?_, ?_⟩ ?_ ?_
      · have := I.load hw hview hlive hres hf hl
        rw [hvpn] at this
        rw [htmr]
        exact this
      · exact (Memory.resident_loaded ((hfr.keeps v).live.trans hlive)).2 (.inr rfl)
      · rw [htmr]
        exact Memory.vpn_loaded.trans ((hfr.keeps v).vpn.trans hvpn)
      · rwa [htmr]
      · rw [htmr, htpi']
        exact htpi

/-- A miss is that of a page the algorithm does not have in memory. -/
theorem Follows.miss (h : s.Follows I tr) (htext : c.text = tr.text) (hpid : tr.Single)
    (hs : c.Reachable R s) (hm : s.Move c (.miss r) s') : s'.Follows I tr := by
  have hw := hs.wellFormed
  have hone := hs.nextProc_le_one htext hpid
  obtain ⟨htmr, htpi'⟩ := hm.tmr_tpi
  cases hm with
  | @miss _ u hu hm =>
    obtain ⟨queue, hq⟩ := hu.head
    have hvpn := (hu.vpn_single htext hpid hs).2
    have hw' := hu.wellFormed hw
    obtain ⟨hlive, -, hvpn'⟩ := hu.live hw
    -- No page of this number is in memory.
    have hnone : ¬∃ v, u.pager.mem.Resident v ∧
        (u.pager.mem.vpages v).vpn = tr.references s.stat.tmr := fun ⟨v, hv, he⟩ => hm <| by
      rwa [← numbered hw' (hs.owned.reads hw hu) (hu.nextProc ▸ hone) v r.v hv.1 hlive
        (he.trans (hvpn.symm.trans hvpn'.symm))]
    cases h with
    | waiting hb => exact absurd (hw.single hone) (by simp [hb, hq])
    | loaded hr hview hres =>
      obtain ⟨v, hv, he⟩ := hres
      exact absurd ((I.mem_iff hw'.pager (hu.view hw I hview)).1
        ((I.mem_iff hw.pager hview).2 ⟨v, hv, he⟩)) hnone
    | ready hb hview htpi =>
      have hview := hu.view hw I (hview (by simp [hq]))
      have hnew := mt (I.mem_iff hw'.pager hview).1 hnone
      refine .waiting (by simp) ?_ ?_ ?_
      · rw [htmr]
        exact hview
      · rwa [htmr]
      · rw [htpi', htpi, htmr]
        exact (Paging.Algorithm.faults_succ_of_notMem hnew).symm

/-- What a hit leaves, before the process goes on or finishes. -/
theorem Follows.of_hit {rep : R.State} (h : s.Follows I tr) (htext : c.text = tr.text)
    (hpid : tr.Single) (hs : c.Reachable R s) (hu : s.Reads c r u) (hm : u.pager.mem.Resident r.v)
    (ha : R.notifyPageAccess c.ndebug u.pager.mem u.pager.rep (u.pager.mem.vpages r.v).overhead =
      .ok rep) :
    I.View (u.accessed rep).pager (A.state tr.references (s.stat.tmr + 1)) ∧
      s.stat.tpi = A.faults tr.references (s.stat.tmr + 1) := by
  have hw := hs.wellFormed
  have hone := hs.nextProc_le_one htext hpid
  obtain ⟨queue, hq⟩ := hu.head
  have hw' := hu.wellFormed hw
  have hvpn : (u.pager.mem.vpages r.v).vpn = tr.references s.stat.tmr :=
    (hu.live hw).2.2.trans (hu.vpn_single htext hpid hs).2
  have haccess {a : A.State} (hview : I.View s.pager a) :
      I.View (u.accessed rep).pager (A.hit (tr.references s.stat.tmr) a) := by
    rw [← hvpn]
    exact I.access hw'.pager (numbered hw' (hs.owned.reads hw hu) (hu.nextProc ▸ hone))
      (hu.view hw I hview) hm ha
  cases h with
  | waiting hb => exact absurd (hw.single hone) (by simp [hb, hq])
  | loaded hr hview hres hnew htpi =>
    exact ⟨Paging.Algorithm.state_succ_of_notMem hnew ▸ haccess hview, htpi⟩
  | ready hb hview htpi =>
    have hview := hview (by simp [hq])
    have hmem : tr.references s.stat.tmr ∈ A.mem (A.state tr.references s.stat.tmr) :=
      (I.mem_iff hw'.pager (hu.view hw I hview)).2 ⟨r.v, hm, hvpn⟩
    exact ⟨Paging.Algorithm.state_succ_of_mem hmem ▸ haccess hview,
      htpi.trans (Paging.Algorithm.faults_succ_of_mem hmem).symm⟩

theorem Follows.hit (h : s.Follows I tr) (htext : c.text = tr.text) (hpid : tr.Single)
    (hs : c.Reachable R s) (hm : s.Move c (.hit r) s') : s'.Follows I tr := by
  have hw := hs.wellFormed
  have hone := hs.nextProc_le_one htext hpid
  obtain ⟨htmr, htpi⟩ := hm.tmr_tpi
  have hb : s'.ps.pq .BLOCKED = [] := by
    obtain ⟨queue, hq⟩ := hm.runnable_of_hit
    exact hm.hit_blocked.trans ((hw.single hone).resolve_left (by simp [hq]))
  suffices hkey : (s'.ps.pq .RUNNABLE ≠ [] →
      I.View s'.pager (A.state tr.references (s.stat.tmr + 1))) ∧
        s.stat.tpi = A.faults tr.references (s.stat.tmr + 1) by
    have htmr : s'.stat.tmr = s.stat.tmr + 1 := htmr
    have htpi : s'.stat.tpi = s.stat.tpi := htpi
    exact .ready hb (htmr ▸ hkey.1) (htmr ▸ htpi ▸ hkey.2)
  cases hm with
  | jump hu hm ha | next hu hm ha =>
    obtain ⟨hview, htpi⟩ := h.of_hit htext hpid hs hu hm ha
    exact ⟨fun _ => hview, htpi⟩
  | @finish _ u rep pg hu hm ha =>
    refine ⟨fun hne => absurd ?_ hne, (h.of_hit htext hpid hs hu hm ha).2⟩
    obtain ⟨queue, hq⟩ := hu.head
    have hq' : u.ps.pq .RUNNABLE = r.p :: queue := hu.pq ▸ hq
    rw [finished_pq_runnable]
    exact congrArg List.tail (hq'.trans (by rw [hw.runnable_single hone hq]))

theorem Move.follows (h : s.Move c e s') (htext : c.text = tr.text) (hpid : tr.Single)
    (hs : c.Reachable R s) (hst : s.Follows I tr) : s'.Follows I tr := by
  cases e with
  | completion => exact hst.completion htext hpid hs h
  | hit => exact hst.hit htext hpid hs h
  | miss => exact hst.miss htext hpid hs h
  | idle =>
    have hone := hs.nextProc_le_one htext hpid
    obtain ⟨b, bs, hb, -, -, hb'⟩ := h.idle_blocked
    obtain ⟨htmr, htpi⟩ := h.tmr_tpi
    have hpager : s'.pager = s.pager := by
      cases h
      exact tick_pager
    cases hst with
    | ready hb0 => simp [hb0] at hb
    | loaded hr => exact absurd (hs.wellFormed.single hone) (by simp [hr, hb])
    | waiting hne hview hnew htpi' =>
      refine .waiting (hb' ▸ hne) ?_ ?_ ?_
      · rw [hpager, htmr]
        exact hview
      · rwa [htmr]
      · rw [htpi, htmr]
        exact htpi'

end Sim

/-! ## Whole runs -/

namespace Setup.Reachable

variable {R : ReplaceModule} [R.Lawful] {A : Paging.Algorithm ℕ} {c : Setup} {s : Sim R}
  {tr : Trace}

theorem follows (I : Implements c R A) (htext : c.text = tr.text) (hpid : tr.Single)
    (h : c.Reachable R s) : s.Follows I tr := by
  obtain ⟨s₀, h₀, ts, h⟩ := h
  refine Setup.run_invariant (J := fun _ s => s.Follows I tr) h₀ h ?_
    fun ts s e s' hs hi hm => hm.follows htext hpid hs hi
  obtain ⟨ps, rfl, hi⟩ := Setup.start_indexed htext h₀
  exact .ready hi.blocked (fun _ => I.init) rfl

/-- At the end, the faults are those of the algorithm. -/
theorem tpi_of_implements (I : Implements c R A) (htext : c.text = tr.text) (hpid : tr.Single)
    (h : c.Reachable R s) (hdone : s.notDone = false) :
    s.stat.tpi = A.faults tr.references tr.length := by
  have hempty := Sim.notDone_eq_false_iff.1 hdone
  cases h.follows I htext hpid with
  | ready hb hview htpi => rw [htpi, h.tmr_of_done htext hdone]
  | waiting hb => exact absurd hempty.2 hb
  | loaded hr => exact absurd hempty.1 hr

end Setup.Reachable

end Pfsim
