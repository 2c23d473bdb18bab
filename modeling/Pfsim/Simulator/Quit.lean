import Pfsim.Simulator.Queue

/-!
# Exits of processes

A process which finishes frees the pages of its page table, in the order the tree is
destroyed in. Every live page is in the page table of an unfinished process
(`Sim.Owned`), so nothing is left in memory at the end.

* `exit_releases`: the frames and the queue entries of a process which finishes are
  released, and no others; when the simulation is over, memory is empty.
-/

namespace Pfsim

namespace Sim

variable {R : ReplaceModule} {c : Setup} {s s' u : Sim R} {e : Event} {r : Reference} {p q : ProcId}

/-- The virtual pages of the process `p`. -/
def pages (s : Sim R) (p : ProcId) : List PageId := (s.ps.procs p).pageTable.map Prod.snd

/-- The page referenced is there already, or is made. -/
theorem Reads.pages_cases (h : s.Reads c r u) :
    (u.pager = s.pager ∧ ∀ q, (u.ps.procs q).pageTable = (s.ps.procs q).pageTable) ∨
    (r.v = s.pager.mem.nextPage ∧
      (∃ o, u.pager.mem = s.pager.mem.newPage (s.ps.procs r.p).pid r.vpn o) ∧
      (u.ps.procs r.p).pageTable = (s.ps.procs r.p).pageTable ++ [(r.vpn, r.v)] ∧
      ∀ q ≠ r.p, (u.ps.procs q).pageTable = (s.ps.procs q).pageTable) := by
  have hpage := h.page
  obtain ⟨rest, -, rfl⟩ := h.scan
  set t := s.tick.reading c r.p r.pid rest with ht
  have hprocs (q : ProcId) : t.ps.procs q = { s.ps.procs q with waitTime := s.tickedTime q } :=
    tick_procs
  have hpager : t.pager = s.pager := tick_pager
  cases hv : (t.ps.procs r.p).getVirtualPage r.vpn with
  | some v =>
    have he : t.paged r.p r.vpn = t := by rw [paged, hv]
    rw [he]
    exact .inl ⟨hpager, fun q => by rw [hprocs]⟩
  | none =>
    have he : t.paged r.p r.vpn = { t with
        pager := (t.pager.newVPage (t.ps.procs r.p).pid r.vpn).1
        ps := t.ps.modify r.p fun p =>
          { p with pageTable := p.pageTable.add r.vpn t.pager.mem.nextPage } } := by rw [paged, hv]
    rw [he] at hpage ⊢
    -- The entry is put after those of the pages which are there already.
    have hadd := PageTable.add_eq (v := t.pager.mem.nextPage) hv
    have hself : ((t.ps.modify r.p fun p =>
        { p with pageTable := p.pageTable.add r.vpn t.pager.mem.nextPage }).procs r.p).pageTable =
          (t.ps.procs r.p).pageTable ++ [(r.vpn, t.pager.mem.nextPage)] := by
      rw [Processes.modify_self, ← hadd]
    have hrv : r.v = s.pager.mem.nextPage := by
      rw [Process.getVirtualPage, Processes.modify_self] at hpage
      exact Option.some.inj (hpage.symm.trans ((PageTable.get_add hv).trans (by rw [hpager])))
    obtain ⟨o, ho⟩ := Pager.mem_newVPage t.pager (t.ps.procs r.p).pid r.vpn
    refine .inr ⟨hrv, ⟨o, ?_⟩, ?_, fun q hq => ?_⟩
    · rw [ho, hpager, hprocs]
    · rw [hself, hprocs, hrv, hpager]
    · rw [Processes.modify_procs, if_neg hq, hprocs]

/-- A page hit was there before. -/
theorem Reads.pager_of_resident [R.Lawful] (h : s.Reads c r u) (hs : s.WellFormed c)
    (hm : u.pager.mem.Resident r.v) :
    u.pager = s.pager ∧ ∀ q, (u.ps.procs q).pageTable = (s.ps.procs q).pageTable := by
  rcases h.pages_cases with hsame | ⟨hrv, ⟨o, ho⟩, -⟩
  · exact hsame
  · rw [ho, Memory.resident_newPage hs.pager.mem, hrv] at hm
    exact absurd hm.1 (by simp [hs.pager.mem.not_live_nextPage])

/-! ## What the iterations keep -/

/-- From `s` to `s'`, no page and no process is made or freed, no page table changes,
    and neither does who is finished. -/
structure Stays (s s' : Sim R) : Prop where
  nextProc : s'.ps.nextProc = s.ps.nextProc
  procs_live : s'.ps.live = s.ps.live
  pages_live : s'.pager.mem.live = s.pager.mem.live
  pages : ∀ q, s'.pages q = s.pages q
  finished_iff : ∀ q, (s'.ps.procs q).status = .FINISHED ↔ (s.ps.procs q).status = .FINISHED

namespace Stays

theorem trans (h : s.Stays u) (h' : u.Stays s') : s.Stays s' where
  nextProc := h'.nextProc.trans h.nextProc
  procs_live := h'.procs_live.trans h.procs_live
  pages_live := h'.pages_live.trans h.pages_live
  pages q := (h'.pages q).trans (h.pages q)
  finished_iff q := (h'.finished_iff q).trans (h.finished_iff q)

theorem tick : s.Stays s.tick where
  nextProc := tick_nextProc
  procs_live := tick_live
  pages_live := by rw [tick_pager]
  pages q := by rw [Sim.pages, Sim.pages, tick_procs]
  finished_iff q := by rw [tick_procs]

/-- Changing only one process, neither its page table nor whether it is finished. -/
theorem of_procs {P : Process} (hn : s'.ps.nextProc = s.ps.nextProc)
    (hl : s'.ps.live = s.ps.live) (hm : s'.pager.mem.live = s.pager.mem.live)
    (hprocs : ∀ q, s'.ps.procs q = if q = p then P else s.ps.procs q)
    (ht : P.pageTable = (s.ps.procs p).pageTable)
    (hst : P.status = .FINISHED ↔ (s.ps.procs p).status = .FINISHED) : s.Stays s' where
  nextProc := hn
  procs_live := hl
  pages_live := hm
  pages q := by
    rw [Sim.pages, Sim.pages, hprocs]
    split
    · next hq => rw [ht, hq]
    · rfl
  finished_iff q := by
    rw [hprocs]
    split
    · next hq => rw [hst, hq]
    · rfl

end Stays

/-- Apart from the page that a reference may make, only the end of a process changes
    any of this. -/
theorem Move.stays_cases [R.Lawful] (h : s.Move c e s') (hs : s.WellFormed c) :
    s.Stays s' ∨ (∃ r u, s.Reads c r u ∧ u.Stays s') ∨
      ∃ r u rep pg, s.Reads c r u ∧ s' = (u.accessed rep).finished r.p pg ∧
        ∀ v, pg.mem.live v = true ↔ u.pager.mem.live v = true ∧ v ∉ u.pages r.p := by
  cases h with
  | @completion p bs v ppn victim pg rep hp hw hv hf hl =>
    have hst : (s.ps.procs p).status = .BLOCKED := hs.ps.status (hp ▸ List.mem_cons_self)
    have hlive : pg.mem.live = s.tick.pager.mem.live := by
      rw [tick_pager]
      exact funext fun u => ((findFrame_ok hs hf).keeps u).live
    exact .inl (Stays.tick.trans (.of_procs rfl rfl hlive (fun _ => completed_procs) rfl
      (by simp [hst])))
  | idle =>
    exact .inl (Stays.tick.trans (.of_procs rfl rfl rfl (fun _ => skipped_procs) rfl .rfl))
  | @jump r u rep hr =>
    exact .inr (.inl ⟨r, u, hr, .of_procs rfl rfl rfl (fun _ => jumped_procs) rfl
      (by simp [hr.runnable hs])⟩)
  | @next r u rep hr =>
    exact .inr (.inl ⟨r, u, hr, .of_procs rfl rfl rfl (fun _ => Processes.modify_procs _) rfl
      .rfl⟩)
  | @finish r u rep pg hr hm ha hl hi hf =>
    exact .inr (.inr ⟨r, u, rep, pg, hr, rfl, (hr.freed hs hm ha hf).2.2.live⟩)
  | @miss r u hr =>
    exact .inr (.inl ⟨r, u, hr, .of_procs rfl rfl rfl (fun _ => blocked_procs) rfl
      (by simp [hr.runnable hs])⟩)

/-! ## Ownership -/

/-- Every live page is in the page table of an unfinished process. -/
def Owned (s : Sim R) : Prop :=
  ∀ v, s.pager.mem.live v = true →
    ∃ p < s.ps.nextProc, (s.ps.procs p).status ≠ .FINISHED ∧ v ∈ s.pages p

theorem Owned.stays (h : s.Owned) (hs : s.Stays s') : s'.Owned := by
  intro v hv
  obtain ⟨p, hp, hst, hmem⟩ := h v (hs.pages_live ▸ hv)
  exact ⟨p, hs.nextProc ▸ hp, fun hf => hst ((hs.finished_iff p).1 hf), hs.pages p ▸ hmem⟩

/-- A page made is put in the page table of the process. -/
theorem Owned.reads [R.Lawful] (h : s.Owned) (hs : s.WellFormed c) (hr : s.Reads c r u) :
    u.Owned := by
  rcases hr.pages_cases with ⟨hpager, htable⟩ | ⟨hrv, ⟨o, ho⟩, hself, hother⟩
  · exact h.stays
      { nextProc := hr.nextProc
        procs_live := hr.procs_live
        pages_live := by rw [hpager]
        pages q := by rw [pages, pages, htable]
        finished_iff q := by rw [hr.status_eq] }
  · intro v hv
    rw [ho, Memory.live_newPage] at hv
    split at hv
    · next hn =>
      obtain ⟨queue, hq⟩ := hr.head
      have hmem : r.p ∈ s.ps.pq .RUNNABLE := hq ▸ List.mem_cons_self
      refine ⟨r.p, hr.nextProc ▸ hs.ps.lt hmem, ?_, ?_⟩
      · rw [hr.status_eq, hs.ps.status hmem]
        simp
      · rw [pages, hself, hn, ← hrv]
        simp
    · obtain ⟨p, hp, hpst, hmem⟩ := h v hv
      refine ⟨p, hr.nextProc ▸ hp, (hr.status_eq p) ▸ hpst, ?_⟩
      by_cases hpr : p = r.p
      · subst hpr
        rw [pages, hself, List.map_append]
        exact List.mem_append_left _ hmem
      · rwa [pages, hother p hpr]

/-- The moves keep the pages owned. -/
theorem Move.owned [R.Lawful] (h : s.Move c e s') (hs : s.WellFormed c) (ho : s.Owned) :
    s'.Owned := by
  obtain hst | ⟨r, u, hr, hst⟩ | ⟨r, u, rep, pg, hr, rfl, hfr⟩ := h.stays_cases hs
  · exact ho.stays hst
  · exact (ho.reads hs hr).stays hst
  · intro v hv
    obtain ⟨hlive, hnot⟩ := (hfr v).1 hv
    obtain ⟨p, hp, hst, hvp⟩ := ho.reads hs hr v hlive
    -- The page left belongs to another process.
    have hne : p ≠ r.p := fun e => hnot (e ▸ hvp)
    refine ⟨p, hp, ?_, ?_⟩
    · rw [finished_procs, if_neg hne]
      exact hst
    · rw [pages, finished_procs, if_neg hne]
      exact hvp

end Sim

theorem Setup.Reachable.owned {R : ReplaceModule} [R.Lawful] {c : Setup} {s : Sim R}
    (h : c.Reachable R s) : s.Owned := by
  refine (h.invariant (I := Sim.Owned) (fun s₀ h₀ => ?_)
    fun s e s' hs _ ho hm => hm.owned hs ho).2.2
  obtain ⟨ps, -, rfl⟩ := Setup.start_eq h₀
  exact fun v hv => nomatch hv

/-! ## The end of a process -/

namespace Sim

/-- Two processes have no page in common: their pages have different process numbers. -/
theorem WellFormed.notMem_pages {R : ReplaceModule} [R.Lawful] {c : Setup} {s : Sim R}
    {p q : ProcId} {v : PageId} (hs : s.WellFormed c) (hp : p < s.ps.nextProc)
    (hq : q < s.ps.nextProc) (hpq : q ≠ p) (hp' : (s.ps.procs p).status ≠ .FINISHED)
    (hq' : (s.ps.procs q).status ≠ .FINISHED) (hv : v ∈ s.pages q) : v ∉ s.pages p := by
  intro hvp
  obtain ⟨⟨k, _⟩, hk, rfl⟩ := List.mem_map.1 hv
  obtain ⟨⟨k', _⟩, hk', rfl⟩ := List.mem_map.1 hvp
  exact hs.pid_ne hp hq hpq (((hs.settled hq).page hq' hk).2.1.symm.trans
    ((hs.settled hp).page hp' hk').2.1)

variable {π : Policy} {c : Setup} {s s' : Sim π.replace} {e : Event} {p : ProcId}

/-- The iteration in which a process finishes: it hits a page of its own, and all of
    them are freed. -/
theorem Move.freed_of_finished {R : ReplaceModule} [R.Lawful] {s s' : Sim R} (h : s.Move c e s')
    (hs : s.WellFormed c) (hp : (s.ps.procs p).status ≠ .FINISHED)
    (hp' : (s'.ps.procs p).status = .FINISHED) :
    ∃ r rep, e = .hit r ∧ r.v ∈ s.pages p ∧ p ∈ s.ps.pq .RUNNABLE ∧
      (⟨s.pager.mem, rep⟩ : Pager R).WellFormed ∧
      Pager.freeAll c.ndebug ⟨s.pager.mem, rep⟩
        ((c.tdestroy (s.ps.procs p).pageTable).map Prod.snd) = .ok s'.pager := by
  -- The status of the other processes does not change.
  have hproc : e.proc = some p := by
    by_contra hne
    exact hp ((h.spared hne).status ▸ hp')
  cases h with
  | completion =>
    obtain rfl := Option.some.inj hproc
    rw [completed_procs, if_pos rfl] at hp'
    cases hp'
  | idle => cases hproc
  | jump =>
    obtain rfl := Option.some.inj hproc
    rw [jumped_procs, if_pos rfl] at hp'
    cases hp'
  | @next r u rep hr =>
    obtain rfl := Option.some.inj hproc
    obtain ⟨pt, he⟩ := hr.procs r.p
    rw [modify, Processes.modify_self] at hp'
    exact absurd ((congrArg Process.status he).symm.trans hp') hp
  | @finish r u rep pg hr hm ha hl hi hf =>
    obtain rfl := Option.some.inj hproc
    obtain ⟨queue, hq⟩ := hr.head
    obtain ⟨hpager, htable⟩ := hr.pager_of_resident hs hm
    have hw := ((hr.wellFormed hs).accessed hm ha).pager
    rw [accessed, hpager] at hw hf
    refine ⟨r, rep, rfl, ?_, hq ▸ List.mem_cons_self, hw, ?_⟩
    · rw [pages, ← htable]
      exact List.mem_map_of_mem (PageTable.mem_of_get hr.page)
    · rwa [← htable]
  | miss =>
    obtain rfl := Option.some.inj hproc
    rw [blocked_procs, if_pos rfl] at hp'
    cases hp'

/-- The pages of the process `p` are gone, and nothing else has changed in memory. -/
structure Released {R : ReplaceModule} (s s' : Sim R) (p : ProcId) : Prop where
  live : ∀ v, s'.pager.mem.live v = true ↔ s.pager.mem.live v = true ∧ v ∉ s.pages p
  memory : ∀ {ppn v}, s'.pager.mem.memory ppn = some v ↔
    s.pager.mem.memory ppn = some v ∧ v ∉ s.pages p
  vpages : ∀ v ∉ s.pages p, s'.pager.mem.vpages v = s.pager.mem.vpages v
  allocated : s'.pager.mem.allocated +
    (s.pages p).countP (fun v => (s.pager.mem.vpages v).inMemory) = s.pager.mem.allocated

theorem Released.emptied {R : ReplaceModule} {s s' : Sim R} (h : s.Released s' p) {ppn : ℕ}
    {v : PageId} (hv : v ∈ s.pages p) (hppn : s.pager.mem.memory ppn = some v) :
    s'.pager.mem.memory ppn = none := by
  refine Option.eq_none_iff_forall_ne_some.2 fun u hu => ?_
  obtain ⟨hu, hnot⟩ := h.memory.1 hu
  exact hnot (Option.some.inj (hppn.symm.trans hu) ▸ hv)

theorem Released.kept {R : ReplaceModule} {s s' : Sim R} (h : s.Released s' p) {ppn : ℕ}
    (hne : ∀ v ∈ s.pages p, s.pager.mem.memory ppn ≠ some v) :
    s'.pager.mem.memory ppn = s.pager.mem.memory ppn := by
  ext v
  exact h.memory.trans ⟨And.left, fun hv => ⟨hv, fun hvp => hne v hvp hv⟩⟩

/-- A process finishes by a hit of one of its pages, and releases all of them, in
    whatever order its page table is destroyed. -/
theorem Move.released {R : ReplaceModule} [R.Lawful] {s s' : Sim R} (h : s.Move c e s')
    (hs : s.WellFormed c) (hp : (s.ps.procs p).status ≠ .FINISHED)
    (hp' : (s'.ps.procs p).status = .FINISHED) :
    p ∈ s.ps.pq .RUNNABLE ∧ (∃ r, e = .hit r ∧ r.v ∈ s.pages p) ∧ s.Released s' p := by
  obtain ⟨r, rep, rfl, hrv, hrun, hw, hf⟩ := h.freed_of_finished hs hp hp'
  have hperm : List.Perm _ (s.pages p) := (c.tdestroy_perm (s.ps.procs p).pageTable).map Prod.snd
  obtain ⟨hnd, hl⟩ := hs.destroyed hrun
  obtain ⟨pg, hok, -, hfr⟩ := Pager.freeAll_ok c.ndebug hw hnd hl
  obtain rfl : s'.pager = pg := Except.ok.inj (hf.symm.trans hok)
  refine ⟨hrun, ⟨r, rfl, hrv⟩, fun v => ?_, fun {ppn v} => ?_,
    fun v hv => hfr.vpages v (mt hperm.mem_iff.1 hv), ?_⟩
  · rw [hfr.live, hperm.mem_iff]
  · rw [hfr.memory_iff hw (h.wellFormed hs).pager, hperm.mem_iff]
  · have hcount := Pager.freeAll_allocated hw hnd hl hf
    rwa [hperm.countP_eq] at hcount

/-- The queue when a process finishes: the page hit may go to the tail, but is freed
    with the others. -/
theorem Move.queue_of_finished {q q' : PageQueue} {r : Reference} (h : s.Move c (.hit r) s')
    (hs : s.WellFormed c) (hr : r.v ∈ s.pages p)
    (hlive : ∀ v, s'.pager.mem.live v = true ↔ s.pager.mem.live v = true ∧ v ∉ s.pages p)
    (hq : π.pageQueue s.pager.rep = some q) (hq' : π.pageQueue s'.pager.rep = some q') :
    q'.queue = q.queue.filter (· ∉ s.pages p) := by
  have ht := π.tracks hs.pager.tracks hq
  have hfreed : s'.pager.mem.live r.v = false :=
    Bool.eq_false_iff.2 fun hv => ((hlive r.v).1 hv).2 hr
  obtain ⟨q'', hq'', hqueue⟩ := h.queue_eq hs hq
  obtain rfl : q' = q'' := Option.some.inj (hq'.symm.trans hq'')
  rw [hqueue, Policy.filter_requeued_hit ht.nodup hfreed]
  refine List.filter_congr fun v hv => Bool.eq_iff_iff.2 ?_
  rw [hlive, and_iff_right ((ht.mem_queue v).1 hv).1, decide_eq_true_iff]

end Sim

/-- Once all processes have finished, no page is left. -/
theorem Setup.Reachable.vacated {R : ReplaceModule} [R.Lawful] {c : Setup} {s : Sim R}
    (h : c.Reachable R s) (hdone : s.notDone = false) :
    (∀ v, s.pager.mem.live v = false) ∧ ∀ ppn, s.pager.mem.memory ppn = none := by
  have hdead (v : PageId) : s.pager.mem.live v = false := by
    by_contra hv
    obtain ⟨p, hp, hst, -⟩ := h.owned v (by simpa using hv)
    exact hst (h.finished hdone hp).1
  refine ⟨hdead, fun ppn => Option.eq_none_iff_forall_ne_some.2 fun v hv => ?_⟩
  have hlive := (h.wellFormed.pager.mem.resident hv).1
  rw [hdead] at hlive
  cases hlive

/-- When a process finishes, in whatever order its page table is destroyed, its frames
    are emptied, their bits cleared, and taken off the counter, and its pages are taken
    off the replacement queue. Nothing happens to the other frames, bits and pages, and
    the rest of the queue stays in order. So when the simulation is over, memory and the
    queue are empty. -/
theorem exit_releases (c : Setup) (π : Policy) :
    (∀ (s s' : Sim π.replace) (e : Event) (p : ProcId), c.Reachable π.replace s →
      s.notDone = true → s.step c true = .ok (e, s') → (s.ps.procs p).status ≠ .FINISHED →
      (s'.ps.procs p).status = .FINISHED →
      (∀ ppn, ∀ v ∈ s.pages p, s'.pager.mem.memory ppn ≠ some v) ∧
      (∀ q', π.pageQueue s'.pager.rep = some q' → ∀ v ∈ s.pages p, v ∉ q'.queue) ∧
      s'.pager.mem.allocated + (s.pages p).countP (fun v => (s.pager.mem.vpages v).inMemory) =
        s.pager.mem.allocated ∧
      (∀ ppn, ∀ v ∈ s.pages p, s.pager.mem.memory ppn = some v →
        s'.pager.mem.memory ppn = none ∧ s'.pager.mem.bitIsSet ppn = false) ∧
      (∀ ppn, (∀ v ∈ s.pages p, s.pager.mem.memory ppn ≠ some v) →
        s'.pager.mem.memory ppn = s.pager.mem.memory ppn ∧
        (ppn < 32 * (c.frames / 32) →
          s'.pager.mem.bitIsSet ppn = s.pager.mem.bitIsSet ppn)) ∧
      (∀ v, v ∉ s.pages p → s'.pager.mem.vpages v = s.pager.mem.vpages v) ∧
      (∀ q < s.ps.nextProc, q ≠ p → (s.ps.procs q).status ≠ .FINISHED →
        ∀ v ∈ s.pages q, v ∉ s.pages p) ∧
      (∀ q q', π.pageQueue s.pager.rep = some q → π.pageQueue s'.pager.rep = some q' →
        q'.queue = q.queue.filter (· ∉ s.pages p))) ∧
    (∀ s : Sim π.replace, c.Reachable π.replace s → s.notDone = false →
      s.pager.mem.allocated = 0 ∧
      (∀ ppn, s.pager.mem.memory ppn = none) ∧
      (∀ ppn < 32 * (c.frames / 32), s.pager.mem.bitIsSet ppn = false) ∧
      ∀ q, π.pageQueue s.pager.rep = some q → q.queue = []) := by
  refine ⟨fun s s' e p hreach hr hstep hp hp' => ?_, fun s hreach hdone => ?_⟩
  · have hs := hreach.wellFormed
    have hmove := Sim.move_of_step hs hr hstep
    have hs' := hmove.wellFormed hs
    obtain ⟨hrun, ⟨r, rfl, hrv⟩, hrel⟩ := hmove.released hs hp hp'
    refine ⟨fun ppn v hv hppn => (hrel.memory.1 hppn).2 hv, fun q' hq' v hv hvq => ?_,
      hrel.allocated, fun ppn v hv hppn => ⟨hrel.emptied hv hppn, ?_⟩,
      fun ppn hne => ⟨hrel.kept hne, fun hlt => ?_⟩, hrel.vpages,
      fun q hq hqp hst v hvq => hs.notMem_pages (hs.ps.lt hrun) hq hqp hp hst hvq,
      fun q q' hq hq' => hmove.queue_of_finished hs hrv hrel.live hq hq'⟩
    · -- The queue lists resident pages, which are live.
      have hmem := ((π.tracks hs'.pager.tracks hq').mem_queue v).1 hvq
      exact ((hrel.live v).1 hmem.1).2 hv
    · rw [hs'.bitIsSet (hs.frame_lt hppn), hrel.emptied hv hppn]
      rfl
    · rw [hs'.bitIsSet hlt, hs.bitIsSet hlt, hrel.kept hne]
  · have hs := hreach.wellFormed
    obtain ⟨hdead, hempty⟩ := hreach.vacated hdone
    refine ⟨?_, hempty, fun ppn hlt => ?_,
      fun q hq => List.eq_nil_iff_forall_not_mem.2 fun v hv => ?_⟩
    · rw [hs.pager.mem.allocated_eq, Memory.occupied]
      simp [hempty]
    · rw [hs.bitIsSet hlt, hempty]
      rfl
    · have hmem := ((π.tracks hs.pager.tracks hq).mem_queue v).1 hv
      have hlive := hmem.1
      rw [hdead] at hlive
      cases hlive

/-- The second process of the sample finishes while a page of the first one is in
    memory; then the first one does. -/
theorem exit_releases_sample :
    (∃ (s s' : Sim Policy.lru.replace) (e : Event), Setup.sample.Reachable Policy.lru.replace s ∧
      s.step .sample true = .ok (e, s') ∧ (s'.ps.procs 1).status = .FINISHED ∧
      s.pager.mem.memory 0 = some 0 ∧ s'.pager.mem.memory 0 = some 0 ∧
      s.pager.mem.memory 1 = some 1 ∧ s'.pager.mem.memory 1 = none) ∧
    ∃ s : Sim Policy.lru.replace, Setup.sample.Reachable Policy.lru.replace s ∧
      s.notDone = false ∧ s.pager.mem.allocated = 0 := by
  obtain ⟨hquit, hend⟩ := exit_releases .sample .lru
  refine ⟨?_, ?_⟩
  · obtain ⟨s₀, ts, s, h₀, h, -, hs⟩ := Setup.exists_run_of_after (R := Policy.lru.replace)
      (c := .sample) (n := 5) (P := fun s => s.notDone && (s.ps.procs 1).status != .FINISHED &&
        s.pages 1 == [1] && s.pager.mem.memory 0 == some 0 && s.pager.mem.memory 1 == some 1 &&
        (s.step .sample true).toOption.any fun r => (r.2.ps.procs 1).status == .FINISHED)
      (by decide +kernel)
    simp only [Bool.and_eq_true, beq_iff_eq, bne_iff_ne] at hs
    obtain ⟨⟨⟨⟨⟨hr, hp⟩, hpages⟩, h0⟩, h1⟩, hstep⟩ := hs
    obtain ⟨⟨e, s'⟩, hs, hp'⟩ := (Option.any_eq_true _ _).1 hstep
    rw [toOption_eq_some] at hs
    rw [beq_iff_eq] at hp'
    have hreach := Setup.Reachable.of_run h₀ h
    obtain ⟨-, -, -, hfree, hsame, -⟩ := hquit s s' e 1 hreach hr hs hp hp'
    refine ⟨s, s', e, hreach, hs, hp', h0, ?_, h1, (hfree 1 1 (by simp [hpages]) h1).1⟩
    rw [(hsame 0 (by simp [hpages, h0])).1, h0]
  · obtain ⟨s₀, ts, s, h₀, h, -, hs⟩ := Setup.exists_run_of_after (R := Policy.lru.replace)
      (c := .sample) (n := 10) (P := fun s => !s.notDone) (by decide +kernel)
    have hs : s.notDone = false := by simpa using hs
    have hreach := Setup.Reachable.of_run h₀ h
    exact ⟨s, hreach, hs, (hend s hreach hs).1⟩

end Pfsim
