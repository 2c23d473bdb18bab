import Pfsim.Simulator.Accounting
import Pfsim.Simulator.Quit
import Pfsim.Simulator.Twin

/-!
# While memory is not full

As long as no victim is asked for, the replacement module has no say: the simulations with
two policies go through the same states, but for what the modules keep (`Sim.Same`). And a
page loaded stays in memory until its process finishes (`Sim.Loaded`), so that each page
is missed once, when it is made.

* `policy_irrelevant`: all of this, for whole runs.
-/

namespace Pfsim

/-- In the iteration, the replacement module is asked for a victim. -/
def Sim.AsksVictim {R : ReplaceModule} (s : Sim R) : Prop :=
  s.tick.ioDue = true ∧ s.tick.pager.mem.hasFreePage = false

/-- The page missed in an iteration. -/
def Event.missed : Event → Option PageId
  | miss r => some r.v
  | _ => none

/-! ## Pages stay in memory -/

namespace Sim

variable {R : ReplaceModule} {c : Setup} {s s' u : Sim R} {e : Event} {r : Reference} {p q : ProcId}

/-- All pages of the unfinished processes are in memory, but for those awaited. -/
def Loaded (s : Sim R) : Prop :=
  ∀ p < s.ps.nextProc, (s.ps.procs p).status ≠ .FINISHED →
    ∀ v ∈ s.pages p, s.pager.mem.Resident v ∨ (s.ps.procs p).waitingOnPage = some v

/-- As long as no page is made, and none leaves memory. -/
theorem Loaded.mono (h : s.Loaded) (hn : s'.ps.nextProc = s.ps.nextProc)
    (hmem : ∀ v, s.pager.mem.Resident v → s'.pager.mem.Resident v)
    (hprocs : ∀ q, (s'.ps.procs q).pageTable = (s.ps.procs q).pageTable ∧
      (s'.ps.procs q).waitingOnPage = (s.ps.procs q).waitingOnPage ∧
      ((s'.ps.procs q).status ≠ .FINISHED → (s.ps.procs q).status ≠ .FINISHED)) :
    s'.Loaded := by
  intro p hp hst v hv
  obtain ⟨htable, hwait, hstatus⟩ := hprocs p
  rw [pages, htable] at hv
  exact (h p (hn ▸ hp) (hstatus hst) v hv).imp (hmem v) hwait.trans

theorem Loaded.tick (h : s.Loaded) : s.tick.Loaded :=
  h.mono tick_nextProc (fun v => by rw [tick_pager]; exact id) fun q => by
    rw [tick_procs]
    exact ⟨rfl, rfl, id⟩

/-- Only one process is changed, and it goes on waiting for the same page. -/
theorem Loaded.of_procs (h : s.Loaded) {P : Process} (hn : s'.ps.nextProc = s.ps.nextProc)
    (hmem : ∀ v, s.pager.mem.Resident v → s'.pager.mem.Resident v)
    (hprocs : ∀ q, s'.ps.procs q = if q = p then P else s.ps.procs q)
    (ht : P.pageTable = (s.ps.procs p).pageTable)
    (hw : P.waitingOnPage = (s.ps.procs p).waitingOnPage)
    (hst : P.status ≠ .FINISHED → (s.ps.procs p).status ≠ .FINISHED) : s'.Loaded := by
  refine h.mono hn hmem fun q => ?_
  rw [hprocs]
  split
  · next hq =>
    rw [hq]
    exact ⟨ht, hw, hst⟩
  · exact ⟨rfl, rfl, id⟩

/-- Reading a line whose page is in memory. -/
theorem Loaded.reads [R.Lawful] (h : s.Loaded) (hs : s.WellFormed c) (hr : s.Reads c r u)
    (hm : u.pager.mem.Resident r.v) : u.Loaded := by
  obtain ⟨hpager, htable⟩ := hr.pager_of_resident hs hm
  refine h.mono hr.nextProc (fun v => by rw [hpager]; exact id) fun q => ⟨htable q, ?_⟩
  obtain ⟨pt, he⟩ := hr.procs q
  rw [he]
  exact ⟨rfl, id⟩

/-- A page missed is made then, if the others are in memory. -/
theorem Loaded.made [R.Lawful] (h : s.Loaded) (hs : s.WellFormed c) (hr : s.Reads c r u)
    (hm : ¬u.pager.mem.Resident r.v) : r.v = s.pager.mem.nextPage ∧
      (∃ o, u.pager.mem = s.pager.mem.newPage (s.ps.procs r.p).pid r.vpn o) ∧
      u.pages r.p = s.pages r.p ++ [r.v] ∧ ∀ q ≠ r.p, u.pages q = s.pages q := by
  rcases hr.pages_cases with ⟨hpager, htable⟩ | ⟨hv, ho, hself, hothers⟩
  · -- The page was there: it should be in memory.
    obtain ⟨queue, hq⟩ := hr.head
    have hmem : r.p ∈ s.ps.pq .RUNNABLE := hq ▸ List.mem_cons_self
    have hst := hs.ps.status hmem
    have hpage : r.v ∈ s.pages r.p := by
      rw [pages, ← htable]
      exact List.mem_map_of_mem (PageTable.mem_of_get hr.page)
    rcases h r.p (hs.ps.lt hmem) (by simp [hst]) r.v hpage with hres | hwait
    · exact absurd (hpager ▸ hres) hm
    · rw [((hs.settled (hs.ps.lt hmem)).ready hst).2] at hwait
      cases hwait
  · refine ⟨hv, ho, ?_, fun q hq => by rw [pages, hothers q hq, pages]⟩
    rw [pages, hself, List.map_append]
    rfl

/-- The end of an I/O: the page awaited is the one loaded. -/
theorem Loaded.completed [R.Lawful] (h : s.Loaded) (hs : s.WellFormed c)
    (hq : q ∈ s.ps.pq .BLOCKED) {v : PageId} (hv : (s.ps.procs q).waitingOnPage = some v)
    (ppn : ℕ) (rep : R.State) : (s.tick.completed q ⟨s.pager.mem.loaded v ppn, rep⟩).Loaded := by
  intro p hlt hst u hu
  change (s.pager.mem.loaded v ppn).Resident u ∨ _
  rw [Memory.resident_loaded (hs.awaited hq hv).1]
  rw [pages, completed_procs, tick_procs, tick_procs] at hu
  rw [completed_procs, tick_procs, tick_procs] at hst ⊢
  have hp : p < s.ps.nextProc := lt_of_lt_of_eq hlt tick_nextProc
  split at hu
  · next hpq =>
    subst hpq
    have hblocked := hs.ps.status hq
    rcases h p hp (by simp [hblocked]) u hu with hres | hwait
    · exact .inl (.inl hres)
    · exact .inl (.inr (Option.some.inj (hwait.symm.trans hv)))
  · next hpq =>
    rw [if_neg hpq] at hst ⊢
    exact (h p hp hst u hu).imp .inl id

/-- The end of a process: the pages freed are not those of the other ones. -/
theorem Loaded.finished [R.Lawful] (h : s.Loaded) (hs : s.WellFormed c)
    (hp : p ∈ s.ps.pq .RUNNABLE) {rep : R.State} {pg : Pager R}
    (hfr : Pager.Freed (s.pages p) (s.accessed rep).pager pg) :
    ((s.accessed rep).finished p pg).Loaded := by
  intro q hlt hst v hv
  rw [finished_procs] at hst ⊢
  rw [pages, finished_procs] at hv
  split at hv
  · rw [if_pos ‹_›] at hst
    exact absurd rfl hst
  · next hqp =>
    rw [if_neg hqp] at hst ⊢
    have hnot : v ∉ s.pages p :=
      hs.notMem_pages (hs.ps.lt hp) hlt hqp (by simp [hs.ps.status hp]) hst hv
    exact (h q hlt hst v hv).imp (fun hres => (hfr.resident v).2 ⟨hres, hnot⟩) id

/-- A miss: the process waits for the page made. -/
theorem Loaded.blocked [R.Lawful] (h : s.Loaded) (hs : s.WellFormed c) (hr : s.Reads c r u)
    (hm : ¬u.pager.mem.Resident r.v) : (u.blocked c r.p r.v r.fpos).Loaded := by
  obtain ⟨-, ⟨o, ho⟩, hself, hothers⟩ := h.made hs hr hm
  have hres {v : PageId} (hv : s.pager.mem.Resident v) : u.pager.mem.Resident v := by
    rw [ho]
    exact (Memory.resident_newPage hs.pager.mem).2 hv
  intro p hp hst v hvp
  rw [pages, blocked_procs] at hvp
  rw [blocked_procs] at hst ⊢
  have hlt : p < s.ps.nextProc := lt_of_lt_of_eq hp hr.nextProc
  obtain ⟨pt, he⟩ := hr.procs p
  split at hvp
  · next hpr =>
    subst hpr
    have hvp : v ∈ u.pages r.p := hvp
    rw [hself, List.mem_append, List.mem_singleton] at hvp
    have hrun : (s.ps.procs r.p).status = .RUNNABLE := by
      have := hr.runnable hs
      rwa [he] at this
    rw [if_pos rfl]
    rcases hvp with hvp | rfl
    · -- A runnable process waits for no page.
      rcases h r.p hlt (by simp [hrun]) v hvp with hr' | hwait
      · exact .inl (hres hr')
      · rw [((hs.settled hlt).ready hrun).2] at hwait
        cases hwait
    · exact .inr rfl
  · next hpr =>
    rw [if_neg hpr, he] at hst
    rw [if_neg hpr, he]
    have hvp : v ∈ u.pages p := hvp
    rw [hothers p hpr] at hvp
    exact (h p hlt hst v hvp).imp hres id

/-- Unless a victim is asked for, the pages stay in memory, and those missed are made. -/
theorem Move.loaded [R.Lawful] (h : s.Move c e s') (hs : s.WellFormed c) (hl : s.Loaded)
    (hroom : ¬s.AsksVictim) : s'.Loaded ∧ s'.pager.mem.nextPage = s.pager.mem.nextPage + e.misses ∧
      ∀ v ∈ e.missed, v = s.pager.mem.nextPage := by
  cases h with
  | @completion q bs v ppn victim pg rep hb hw hv hf hload =>
    -- The page awaited goes to a free frame, and puts no other page out.
    have hfree : s.pager.mem.hasFreePage = true := by
      by_contra hfull
      exact hroom ⟨hw, by rw [tick_pager]; simpa using hfull⟩
    rcases (findFrame_ok hs hf).cases with ⟨-, -, rfl⟩ | ⟨hfull, -⟩
    · exact ⟨hl.completed hs (hb ▸ List.mem_cons_self) hv ppn rep, rfl, nofun⟩
    · rw [hfree] at hfull
      cases hfull
  | @idle b bs =>
    have hpager : (s.tick.skipped b).pager = s.pager := tick_pager
    exact ⟨hl.tick.of_procs rfl (fun _ => id) (fun _ => skipped_procs) rfl rfl id,
      by rw [hpager]; rfl, nofun⟩
  | @jump r u rep hr hm ha =>
    have hnext := congrArg (·.mem.nextPage) (hr.pager_of_resident hs hm).1
    exact ⟨(hl.reads hs hr hm).of_procs rfl (fun _ => id) (fun _ => jumped_procs) rfl rfl
      (by simp [hr.runnable hs]), hnext, nofun⟩
  | @next r u rep hr hm ha =>
    have hnext := congrArg (·.mem.nextPage) (hr.pager_of_resident hs hm).1
    exact ⟨(hl.reads hs hr hm).of_procs rfl (fun _ => id) (fun _ => Processes.modify_procs _) rfl
      rfl id, hnext, nofun⟩
  | @finish r u rep pg hr hm ha hlast hi hf =>
    have hnext := congrArg (·.mem.nextPage) (hr.pager_of_resident hs hm).1
    obtain ⟨-, -, hfr⟩ := hr.freed hs hm ha hf
    obtain ⟨queue, hq⟩ := hr.head
    exact ⟨(hl.reads hs hr hm).finished (hr.wellFormed hs) (hr.pq ▸ hq ▸ List.mem_cons_self) hfr,
      hfr.nextPage.trans hnext, nofun⟩
  | @miss r u hr hm =>
    obtain ⟨hv, ⟨o, ho⟩, -⟩ := hl.made hs hr hm
    exact ⟨hl.blocked hs hr hm, congrArg Memory.nextPage ho,
      fun v hv' => (Option.some.inj hv').symm.trans hv⟩

end Sim

/-! ## Policies -/

/-- The same state, but for what the replacement modules keep. -/
structure Sim.Same {R R' : ReplaceModule} (s : Sim R) (s' : Sim R') : Prop where
  time : s'.time = s.time
  p : s'.p = s.p
  cursor : s'.cursor = s.cursor
  ps : s'.ps = s.ps
  stat : s'.stat = s.stat
  stderr : s'.stderr = s.stderr
  memory : s'.pager.mem.memory = s.pager.mem.memory
  allocated : s'.pager.mem.allocated = s.pager.mem.allocated
  freelist : ∀ i < s.pager.mem.memSize / 32, s'.pager.mem.freelist i = s.pager.mem.freelist i
  live : s'.pager.mem.live = s.pager.mem.live
  nextPage : s'.pager.mem.nextPage = s.pager.mem.nextPage
  vpages : ∀ v, s.pager.mem.live v = true →
    { s'.pager.mem.vpages v with overhead := none } = { s.pager.mem.vpages v with overhead := none }

section Policies

variable {R R' : ReplaceModule} [R.Lawful] [R'.Lawful] {c : Setup} {s : Sim R} {s' : Sim R'}

/-- What the modules keep does not matter, if they are never asked for a victim. -/
theorem ReplaceModule.inStep_true (ndebug : Bool) :
    @ReplaceModule.InStep R R' _ _ ndebug id fun _ _ => True :=
  ⟨fun _ => trivial, fun _ _ => trivial, fun _ _ _ _ _ _ => trivial, fun _ _ _ _ _ _ => trivial,
    fun _ _ _ _ _ _ _ _ => trivial⟩

/-- All modules accept the overheads which are `NULL`, and any overhead without assertions. -/
theorem Setup.assertOverhead_eq (ho : c.ndebug = true ∨ ∀ v, c.overhead v = 0) (v : PageId) :
    R'.assertOverhead c.ndebug (c.overhead v) = R.assertOverhead c.ndebug (c.overhead v) := by
  have hv : c.ndebug = true ∨ c.overhead v = 0 := ho.imp_right fun ho => ho v
  rw [ReplaceModule.Lawful.assertOverhead_ok hv, ReplaceModule.Lawful.assertOverhead_ok hv]

theorem Sim.Twins.same (h : Sim.Twins Eq id (fun _ _ => True) c c s s') : s.Same s' := by
  obtain ⟨hs, hs', ht⟩ := h
  have hm := hs.pager.mem
  have hm' := hs'.pager.mem
  have hmem := ht.pager.mem
  refine ⟨ht.time, ht.p, ht.cursor.symm, ht.ps.eq, ht.stat, ht.stderr, hmem.memory,
    hmem.allocated hm hm', fun i hi => hmem.freelist hm hm' hi, hmem.live, hmem.nextPage,
    fun v hv => ?_⟩
  rw [VPage.mk.injEq]
  exact ⟨hmem.vpn v hv, hmem.pid v hv, rfl, hmem.inMemory v hv, hmem.currentPPN v hv⟩

theorem Sim.Twins.asksVictim (h : Sim.Twins Eq id (fun _ _ => True) c c s s') :
    s'.AsksVictim ↔ s.AsksVictim := by
  have ht := h.twin.tick h.left h.right
  rw [Sim.AsksVictim, Sim.AsksVictim, ht.ioDue, ht.pager.mem.hasFreePage h.left.tick.pager.mem
    h.right.tick.pager.mem]

end Policies

section Runs

variable {c : Setup} {R : ReplaceModule} [R.Lawful] {s₀ s : Sim R}
  {ts : List (Machine.Transition (Sim R) Event)}

/-- As long as no victim is asked for, every page made has been missed once. -/
theorem Setup.missed_eq (h₀ : c.start R = .ok s₀) (h : (c.machine R).Run s₀ ts s)
    (hts : ∀ t ∈ ts, ¬t.src.AsksVictim) : s.Loaded ∧ s.stat.tpi = s.pager.mem.nextPage ∧
      ts.filterMap (fun t => t.lbl.missed) = List.range s.pager.mem.nextPage := by
  refine Setup.run_invariant (J := fun ts s => (∀ t ∈ ts, ¬t.src.AsksVictim) → s.Loaded ∧
    s.stat.tpi = s.pager.mem.nextPage ∧
    ts.filterMap (fun t => t.lbl.missed) = List.range s.pager.mem.nextPage) h₀ h (fun _ => ?_)
    (fun ts s e s' hr ih hm hts => ?_) hts
  · obtain ⟨ps, hps, rfl⟩ := Setup.start_eq h₀
    obtain ⟨n, -, -, hi⟩ := firstPass_indexed hps
    refine ⟨fun p hp _ v hv => ?_, rfl, rfl⟩
    have htable : (ps.procs p).pageTable = [] := (hi.fresh hp).pageTable
    rw [Sim.pages, Sim.init, htable] at hv
    cases hv
  · obtain ⟨hl, htpi, hmissed⟩ := ih fun t ht => hts t (List.mem_append_left _ ht)
    obtain ⟨hl', hnext, hv⟩ := hm.loaded hr.wellFormed hl
      (hts ⟨s, e, s'⟩ (List.mem_append_right _ List.mem_cons_self))
    refine ⟨hl', by rw [hm.tmr_tpi.2, htpi, hnext], ?_⟩
    rw [List.filterMap_append, hmissed, hnext]
    cases e with
    | miss r =>
      have hrv : (Event.miss r).missed = some s.pager.mem.nextPage := congrArg some (hv r.v rfl)
      rw [List.filterMap_cons, List.filterMap_nil, hrv]
      exact List.range_succ.symm
    | completion | idle | hit => simp [Event.missed, Event.misses]

end Runs

/-- As long as a replacement module is not asked for a victim, it does not matter which
    one it is: with any other one, the iterations come to the same, and go through the
    same states of the processes, the frames, the freelist and the statistics; the other
    one is not asked for a victim either, and the simulation ends in the same way, if it
    does. And every page made has been missed once, so that TPI is their number. If
    assertions are compiled, LRU and FIFO, and not the others, check that `malloc` has left
    `NULL` in the overhead of a new page: it is to be so. The write of a process which finishes
    into the one which finished before, and is freed, is taken to touch nothing else. -/
theorem policy_irrelevant (c : Setup) (π π' : Policy)
    (ho : c.ndebug = true ∨ ∀ v, c.overhead v = 0) {s₀ s : Sim π.replace}
    {ts : List (Machine.Transition (Sim π.replace) Event)} (h₀ : c.start π.replace = .ok s₀)
    (h : (c.machine π.replace).Run s₀ ts s) (hts : ∀ t ∈ ts, ¬t.src.AsksVictim) :
    (∃ s₀' ts' s', c.start π'.replace = .ok s₀' ∧ (c.machine π'.replace).Run s₀' ts' s' ∧
      s.Same s' ∧ List.Forall₂ (fun t t' => t'.lbl = t.lbl ∧ t.src.Same t'.src ∧ t.dst.Same t'.dst)
        ts ts' ∧
      (∀ t' ∈ ts', ¬t'.src.AsksVictim) ∧
      ((c.machine π.replace).Returns s₀ ts s → (c.machine π'.replace).Returns s₀' ts' s') ∧
      ∀ stop, ¬s.AsksVictim → (c.machine π.replace).Stops s₀ ts s stop →
        (c.machine π'.replace).Stops s₀' ts' s' stop) ∧
    s.stat.tpi = s.pager.mem.nextPage ∧
    ts.filterMap (fun t => t.lbl.missed) = List.range s.pager.mem.nextPage := by
  refine ⟨?_, (Setup.missed_eq h₀ h hts).2⟩
  obtain ⟨ps, hps, rfl⟩ := Setup.start_eq h₀
  have h₀' : c.start π'.replace = .ok (.init π'.replace c ps) := by rw [Setup.start, hps, ok_bind]
  have hstep : @ReplaceModule.InStep π.replace π'.replace _ _ c.ndebug id fun _ _ => True :=
    ReplaceModule.inStep_true c.ndebug
  -- The states of the modules need not be related, as none names a victim.
  have hlock := Sim.lockstep (Setup.assertOverhead_eq ho) (Setup.Twin.refl c) hstep
    (G := fun s : Sim π.replace => ¬s.AsksVictim) fun s hs hdue hfull =>
      absurd ⟨hdue, Sim.tick_pager (s := s) ▸ hfull⟩ hs
  have htwin : Sim.Twins Eq id (fun _ _ => True) c c (.init π.replace c ps)
      (.init π'.replace c ps) :=
    ⟨Setup.start_wellFormed h₀, Setup.start_wellFormed h₀',
      .init (Setup.Twin.refl c).aligned rfl (.refl ps) trivial⟩
  obtain ⟨ts', s', h', ht, hrel⟩ := hlock.run htwin h hts
  have hsame : List.Forall₂ (fun t t' : Machine.Transition _ _ => t'.lbl = t.lbl ∧
      t.src.Same t'.src ∧ t.dst.Same t'.dst) ts ts' :=
    hrel.imp fun t t' ht => ⟨ht.lbl.eq, ht.src.same, ht.dst.same⟩
  refine ⟨_, ts', s', h₀', h', ht.same, hsame, fun t' ht' => ?_, (hlock.returns_iff ht h h').2,
    fun stop hask => (hlock.stops_iff hask ht h h').2⟩
  -- An iteration of the other run is in step with one of this run, which asks for no victim.
  obtain ⟨t, htm, hal⟩ := Machine.Transition.exists_along hrel ht'
  exact mt hal.src.asksVictim.1 (hts t htm)

/-- The sample with LRU, and then with random replacement: three pages are made. -/
theorem policy_irrelevant_sample :
    ∃ (s₀ s : Sim Policy.lru.replace) (s₀' s' : Sim (Policy.random id).replace) (ts ts' : _),
      (Setup.sample.machine Policy.lru.replace).Returns s₀ ts s ∧
      (Setup.sample.machine (Policy.random id).replace).Returns s₀' ts' s' ∧ s.Same s' ∧
      s.stat.tpi = s.pager.mem.nextPage ∧ s.pager.mem.nextPage = 3 := by
  obtain ⟨s₀, ts, s, h₀, h, -, hs, hts⟩ := Setup.exists_run_all_of_after
    (R := Policy.lru.replace) (c := .sample) (n := 10)
    (P := fun s => !s.notDone && s.pager.mem.nextPage == 3)
    (Q := fun s => !s.tick.ioDue || s.pager.mem.hasFreePage) (by decide +kernel)
    (by decide +kernel)
  have hs : s.notDone = false ∧ s.pager.mem.nextPage = 3 := by simpa using hs
  have hask : ∀ t ∈ ts, ¬t.src.AsksVictim := by
    intro t ht ⟨hdue, hfull⟩
    rw [Sim.tick_pager] at hfull
    simpa [hdue, hfull] using hts t ht
  obtain ⟨⟨s₀', ts', s', -, -, hsame, -, -, hret, -⟩, htpi, -⟩ :=
    policy_irrelevant .sample .lru (.random id) (.inr fun _ => rfl) h₀ h hask
  exact ⟨s₀, s, s₀', s', ts, ts', ⟨h, hs.1⟩, hret ⟨h, hs.1⟩, hsame, htpi, hs.2⟩

end Pfsim
