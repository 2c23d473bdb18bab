import Pfsim.Simulator.Operations

/-!
# The moves of the simulator

What an iteration of the loop can do, from a well-formed state (`Sim.Move`):
the end of an I/O, the passing of idle time, a hit followed by a jump to the next
interval, by the next line or by the end of the process, or a miss. Everything
else is an exit, for want of a frame or of a record (`Sim.Exit`).

* `Sim.step_cases`: an iteration is a move or an exit;
* `Sim.Move.wellFormed`: the moves keep the simulator well formed.
-/

namespace Pfsim.Sim

variable {R : ReplaceModule} {c : Setup} {s : Sim R} {p q : ProcId}

/-! ## Moves -/

/-- The reference `r` of the iteration from `s`, and the state `u` when it is
    known whether it is a hit or a miss. -/
structure Reads (c : Setup) (s : Sim R) (r : Reference) (u : Sim R) : Prop where
  head : ∃ hs, s.ps.pq .RUNNABLE = r.p :: hs
  notDue : s.tick.ioDue = false
  line : r.line = (s.ps.procs r.p).currentline
  fpos : r.fpos = s.position r.p
  scan : ∃ rest, fscanf simulatorFormat (c.text.drop r.fpos) = ⟨2, [r.pid, r.vpn], rest⟩ ∧
    u = (s.tick.reading c r.p r.pid rest).paged r.p r.vpn
  page : (u.ps.procs r.p).getVirtualPage r.vpn = some r.v
  searchable : s.Searchable c r.p r.vpn

/-- An iteration from `s`, with what it comes to and the next state. -/
inductive Move (c : Setup) (s : Sim R) : Event → Sim R → Prop
  | completion {q : ProcId} {bs : List ProcId} {v : PageId} {ppn : ℕ} {victim : Option PageId}
      {pg : Pager R} {rep : R.State} (hq : s.ps.pq .BLOCKED = q :: bs)
      (hw : s.tick.ioDue = true) (hv : (s.ps.procs q).waitingOnPage = some v)
      (hf : s.findFrame c = .ok (ppn, victim, pg))
      (hl : R.notifyPageLoad c.ndebug (pg.mem.loaded v ppn) pg.rep (pg.mem.vpages v).overhead =
        .ok rep) :
      Move c s (.completion q v ppn victim) (s.tick.completed q ⟨pg.mem.loaded v ppn, rep⟩)
  | idle {b : ProcId} {bs : List ProcId} (hr : s.ps.pq .RUNNABLE = [])
      (hb : s.ps.pq .BLOCKED = b :: bs) (hw : s.tick.ioDue = false) :
      Move c s .idle (s.tick.skipped b)
  | jump {r : Reference} {u : Sim R} {rep : R.State} (h : s.Reads c r u)
      (hm : u.pager.mem.Resident r.v)
      (ha : R.notifyPageAccess c.ndebug u.pager.mem u.pager.rep (u.pager.mem.vpages r.v).overhead =
        .ok rep)
      (hl : (u.ps.procs r.p).onLastLineInInterval = true)
      (hi : (u.ps.procs r.p).hasIntervalsRemaining = true) :
      Move c s (.hit r) ((u.accessed rep).jumped r.p)
  | next {r : Reference} {u : Sim R} {rep : R.State} (h : s.Reads c r u)
      (hm : u.pager.mem.Resident r.v)
      (ha : R.notifyPageAccess c.ndebug u.pager.mem u.pager.rep (u.pager.mem.vpages r.v).overhead =
        .ok rep)
      (hl : (u.ps.procs r.p).hasLinesRemainingInInterval = true) :
      Move c s (.hit r) ((u.accessed rep).modify r.p Process.nextLine)
  | finish {r : Reference} {u : Sim R} {rep : R.State} {pg : Pager R} (h : s.Reads c r u)
      (hm : u.pager.mem.Resident r.v)
      (ha : R.notifyPageAccess c.ndebug u.pager.mem u.pager.rep (u.pager.mem.vpages r.v).overhead =
        .ok rep)
      (hl : (u.ps.procs r.p).onLastLineInInterval = true)
      (hi : (u.ps.procs r.p).hasIntervalsRemaining = false)
      (hf : (u.accessed rep).pager.freeAll c.ndebug
        ((c.tdestroy (u.ps.procs r.p).pageTable).map Prod.snd) = .ok pg) :
      Move c s (.hit r) ((u.accessed rep).finished r.p pg)
  | miss {r : Reference} {u : Sim R} (h : s.Reads c r u) (hm : ¬u.pager.mem.Resident r.v) :
      Move c s (.miss r) (u.blocked c r.p r.v r.fpos)

/-- The iterations which exit: no frame is found, although some are not
    allocated, or there is no record where a line is read. -/
inductive Exit (c : Setup) (s : Sim R) : Prop
  | noFrame (hw : s.tick.ioDue = true) (ht : s.pager.mem.tracked ≤ s.pager.mem.allocated)
      (ha : s.pager.mem.hasFreePage = true)
  | noRecord {h : ProcId} {hs : List ProcId} (hw : s.tick.ioDue = false)
      (hr : s.ps.pq .RUNNABLE = h :: hs)
      (hscan : ∀ pid vpn rest, fscanf simulatorFormat (c.text.drop (s.position h)) ≠
        ⟨2, [pid, vpn], rest⟩)

/-- The iterations in which something undefined happens: the line read is the first use of
    what `malloc` left in the root of a page table, or in the overhead of a new page, and it
    is not `NULL`. -/
structure Unwritten (c : Setup) (s : Sim R) : Prop where
  notDue : s.tick.ioDue = false
  search : ∃ h hs pid vpn rest, s.ps.pq .RUNNABLE = h :: hs ∧
    fscanf simulatorFormat (c.text.drop (s.position h)) = ⟨2, [pid, vpn], rest⟩ ∧
    ¬s.Searchable c h vpn

/-! ## What the operations keep -/

section Preservation

variable [R.Lawful] {queue : List ProcId} {v : PageId} {ppn fpos : ℕ} {victim : Option PageId}
  {pg : Pager R} {rep : R.State} {s' : Sim R}

namespace WellFormed

theorem congr (h : s.WellFormed c) (hps : s'.ps = s.ps) (hpager : s'.pager = s.pager) :
    s'.WellFormed c :=
  ⟨hps ▸ h.ps, hpager ▸ h.pager, hpager ▸ h.memSize, by rw [hps, hpager]; exact h.settled⟩

/-- Writing to the timer of a blocked process. -/
theorem modify_waitTime (h : s.WellFormed c) (hq : q ∈ s.ps.pq .BLOCKED) {f : Process → Process}
    {w : ℕ} (hf : f (s.ps.procs q) = { s.ps.procs q with waitTime := w }) :
    (s.modify q f).WellFormed c := by
  have hlt := h.ps.lt hq
  have hst := h.ps.status hq
  refine h.update (p := q) ?_ h.pager rfl rfl hlt (fun r hr => ?_) (fun v _ _ => .refl _ v) ?_
  · exact h.ps.modify (by rw [hf]) (by rw [hf]) (by rw [hf]) fun hp => by rw [hf]; exact { hp with }
  · rw [modify, Processes.modify_procs, if_neg hr]
  · rw [modify, Processes.modify_self, hf]
    exact { h.settled hlt with ready := fun e => absurd (hst.symm.trans e) (by simp) }

theorem tick (h : s.WellFormed c) : s.tick.WellFormed c := by
  have h' : (s.pass CLOCK_TICK).WellFormed c := h.congr rfl rfl
  rw [Sim.tick, countDown]
  split
  · exact h'
  · next b hb => exact h'.modify_waitTime (List.mem_of_mem_head? hb) rfl

theorem skipped (h : s.WellFormed c) (hq : q ∈ s.ps.pq .BLOCKED) :
    (s.skipped q).WellFormed c :=
  (show (s.pass _).WellFormed c from h.congr rfl rfl).modify_waitTime hq rfl

/-- A blocked process waits for a page. -/
theorem exists_awaited (h : s.WellFormed c) (hq : q ∈ s.ps.pq .BLOCKED) :
    ∃ v, (s.ps.procs q).waitingOnPage = some v := by
  obtain ⟨_, _, _, v, _, hv, -⟩ := (h.settled (h.ps.lt hq)).awaits (h.ps.status hq)
  exact ⟨v, hv⟩

/-- The page is its own, and not in memory. -/
theorem awaited (h : s.WellFormed c) (hq : q ∈ s.ps.pq .BLOCKED)
    (hv : (s.ps.procs q).waitingOnPage = some v) : s.pager.mem.live v = true ∧
      (s.pager.mem.vpages v).pid = (s.ps.procs q).pid ∧ ¬s.pager.mem.Resident v := by
  have hset := h.settled (h.ps.lt hq)
  have hst := h.ps.status hq
  obtain ⟨_, vpn, _, v', _, hv', hget, hr⟩ := hset.awaits hst
  obtain rfl : v = v' := Option.some.inj (hv.symm.trans hv')
  obtain ⟨hl, hp, -⟩ := hset.page (by simp [hst]) (PageTable.mem_of_get hget)
  exact ⟨hl, hp, hr⟩

/-- The page a blocked process waits for can be loaded, in the frame found. -/
theorem load (h : s.WellFormed c) (hq : q ∈ s.ps.pq .BLOCKED)
    (hv : (s.ps.procs q).waitingOnPage = some v) (hf : s.findFrame c = .ok (ppn, victim, pg)) :
    ∃ rep, R.notifyPageLoad c.ndebug (pg.mem.loaded v ppn) pg.rep (pg.mem.vpages v).overhead =
      .ok rep ∧ Pager.WellFormed ⟨pg.mem.loaded v ppn, rep⟩ := by
  obtain ⟨hl, -, hr⟩ := h.awaited hq hv
  have hfr := findFrame_ok h hf
  have hl' : pg.mem.live v = true := (hfr.keeps v).live.trans hl
  have hr' : ¬pg.mem.Resident v := mt (hfr.keeps v).resident hr
  obtain ⟨rep, hok, ht⟩ := ReplaceModule.Lawful.notifyPageLoad_ok c.ndebug hfr.wellFormed.mem
    hfr.wellFormed.tracks hl' hr' hfr.lt hfr.empty
  exact ⟨rep, hok, hfr.wellFormed.mem.loaded hfr.lt hfr.empty hl' hr', ht⟩

theorem completed (h : s.WellFormed c) (hq : s.ps.pq .BLOCKED = q :: queue)
    (hw : (s.ps.procs q).waitTime = 0) (hv : (s.ps.procs q).waitingOnPage = some v)
    (hf : s.findFrame c = .ok (ppn, victim, pg))
    (hl : R.notifyPageLoad c.ndebug (pg.mem.loaded v ppn) pg.rep (pg.mem.vpages v).overhead =
      .ok rep) :
    (s.completed q ⟨pg.mem.loaded v ppn, rep⟩).WellFormed c := by
  have hmem : q ∈ s.ps.pq .BLOCKED := hq ▸ List.mem_cons_self
  have hlt := h.ps.lt hmem
  have hst := h.ps.status hmem
  have hfr := findFrame_ok h hf
  obtain ⟨rep', hl', hpg⟩ := h.load hmem hv hf
  obtain rfl : rep = rep' := Except.ok.inj (hl.symm.trans hl')
  obtain ⟨hlive, hpid, -⟩ := h.awaited hmem hv
  have hps : (s.completed q ⟨pg.mem.loaded v ppn, rep⟩).ps.WellFormed :=
    h.ps.moved (f := fun p => { p with waitingOnPage := none }) hq rfl fun hp => { hp with }
  refine h.update (p := q) hps hpg hfr.memSize rfl hlt (fun r hr => ?_) (fun u hu hup => ?_) ?_
  · simp only [Sim.completed, Processes.moved_procs, Processes.modify_procs, if_neg hr]
  · -- The page loaded is one of `q`.
    have huv : u ≠ v := fun e => hup (e ▸ hpid)
    exact (hfr.keeps u).trans
      (Memory.keeps_loaded ((hfr.keeps v).live.trans hlive) huv)
  · simp only [Sim.completed, Processes.moved_procs, if_true, Processes.modify_self]
    have hset := h.settled hlt
    refine ⟨fun _ => hset.keys (by simp [hst]), fun _ k u hu => ?_, (by rintro ⟨⟩),
      fun _ => ⟨hw, rfl⟩⟩
    obtain ⟨h₁, h₂, h₃⟩ := hset.page (by simp [hst]) hu
    exact ⟨(hfr.keeps u).live.trans h₁, by simpa using (hfr.keeps u).pid.trans h₂,
      by simpa using (hfr.keeps u).vpn.trans h₃⟩

theorem paged (h : s.WellFormed c) (hp : p ∈ s.ps.pq .RUNNABLE) (vpn : ℕ) :
    (s.paged p vpn).WellFormed c := by
  have hlt := h.ps.lt hp
  have hst := h.ps.status hp
  cases hv : (s.ps.procs p).getVirtualPage vpn with
  | some v => exact h.congr (by rw [Sim.paged, hv]) (by rw [Sim.paged, hv])
  | none =>
    simp only [Sim.paged, hv]
    have hpid := h.ps.pid_ne_zero hlt
    obtain ⟨o, hmem⟩ := Pager.mem_newVPage s.pager (s.ps.procs p).pid vpn
    refine h.update (p := p) ?_ (h.pager.newVPage hpid vpn) ?_ rfl hlt (fun r hr => ?_)
      (fun u hu _ => ?_) ?_
    · exact h.ps.modify (f := fun p =>
        { p with pageTable := p.pageTable.add vpn s.pager.mem.nextPage }) rfl rfl rfl
        fun hp => { hp with }
    · rw [hmem]
      rfl
    · rw [Processes.modify_procs, if_neg hr]
    · rw [hmem]
      exact h.pager.mem.keeps_newPage hu _ vpn o
    · -- The page table gets one entry more, for a page which is live and not in memory.
      have hset := h.settled hlt
      have hadd := PageTable.add_eq (v := s.pager.mem.nextPage) hv
      simp only [Processes.modify_self, hmem]
      refine ⟨fun _ => ?_, fun _ k u hu => ?_, fun e => absurd (hst.symm.trans e) (by simp),
        hset.ready⟩
      · rw [hadd, List.map_append]
        refine List.Nodup.append (hset.keys (by simp [hst])) (by simp) ?_
        simpa using PageTable.notMem_of_get hv
      · rw [hadd, List.mem_append] at hu
        rcases hu with hu | hu
        · obtain ⟨h₁, h₂, h₃⟩ := hset.page (by simp [hst]) hu
          have hk := h.pager.mem.keeps_newPage h₁ (s.ps.procs p).pid vpn o
          exact ⟨hk.live.trans h₁, hk.pid.trans h₂, hk.vpn.trans h₃⟩
        · obtain ⟨rfl, rfl⟩ : k = vpn ∧ u = s.pager.mem.nextPage := by simpa using hu
          simp [Memory.live_newPage, Memory.vpages_newPage]

theorem accessed (h : s.WellFormed c) (hv : s.pager.mem.Resident v)
    (ha : R.notifyPageAccess c.ndebug s.pager.mem s.pager.rep (s.pager.mem.vpages v).overhead =
      .ok rep) : (s.accessed rep).WellFormed c := by
  obtain ⟨rep', ha', ht⟩ :=
    ReplaceModule.Lawful.notifyPageAccess_ok c.ndebug h.pager.mem h.pager.tracks hv
  obtain rfl : rep = rep' := Except.ok.inj (ha.symm.trans ha')
  exact ⟨h.ps, ⟨h.pager.mem, ht⟩, h.memSize, h.settled⟩

theorem jumped (h : s.WellFormed c) (hq : s.ps.pq .RUNNABLE = p :: queue)
    (hi : (s.ps.procs p).hasIntervalsRemaining = true) : (s.jumped p).WellFormed c := by
  have hmem : p ∈ s.ps.pq .RUNNABLE := hq ▸ List.mem_cons_self
  have hset := h.settled (h.ps.lt hmem)
  have hst := h.ps.status hmem
  have hps : (s.jumped p).ps.WellFormed :=
    h.ps.moved (f := Process.jumpToNextInterval) hq rfl fun hp => hp.jumpToNextInterval hi
  refine h.update (p := p) hps h.pager rfl rfl (h.ps.lt hmem) (fun r hr => ?_)
    (fun u _ _ => .refl _ u) ?_
  · simp only [Sim.jumped, Processes.moved_procs, Processes.modify_procs, if_neg hr]
  · simp only [Sim.jumped, Processes.moved_procs, if_true, Processes.modify_self]
    exact ⟨fun _ => hset.keys (by simp [hst]), fun _ => hset.page (by simp [hst]), (by rintro ⟨⟩),
      fun _ => hset.ready hst⟩

theorem nextLine (h : s.WellFormed c) (hq : p ∈ s.ps.pq .RUNNABLE)
    (hl : (s.ps.procs p).hasLinesRemainingInInterval = true) :
    (s.modify p Process.nextLine).WellFormed c := by
  have hset := h.settled (h.ps.lt hq)
  have hps : (s.ps.modify p Process.nextLine).WellFormed :=
    h.ps.modify rfl rfl rfl fun hp => hp.nextLine hl
  refine h.update (p := p) hps h.pager rfl rfl (h.ps.lt hq) (fun r hr => ?_)
    (fun u _ _ => .refl _ u) ?_
  · rw [Sim.modify, Processes.modify_procs, if_neg hr]
  · rw [Sim.modify, Processes.modify_self]
    exact ⟨hset.keys, hset.page, hset.awaits, hset.ready⟩

/-- The pages of a process, in the order they are freed in: each is live, and comes
    once. -/
theorem destroyed (h : s.WellFormed c) (hq : p ∈ s.ps.pq .RUNNABLE) :
    ((c.tdestroy (s.ps.procs p).pageTable).map Prod.snd).Nodup ∧
      ∀ v ∈ (c.tdestroy (s.ps.procs p).pageTable).map Prod.snd, s.pager.mem.live v = true := by
  have hset := h.settled (h.ps.lt hq)
  have hst : (s.ps.procs p).status ≠ .FINISHED := by simp [h.ps.status hq]
  have hperm := (c.tdestroy_perm (s.ps.procs p).pageTable).map Prod.snd
  refine ⟨hperm.nodup_iff.2 (h.nodup_pages (h.ps.lt hq) hst), fun v hv => ?_⟩
  obtain ⟨e, he, rfl⟩ := List.mem_map.1 (hperm.mem_iff.1 hv)
  exact (hset.page hst he).1

/-- The pages of a process which finishes can be freed, in any order. -/
theorem freeAll (h : s.WellFormed c) (hq : p ∈ s.ps.pq .RUNNABLE) :
    ∃ pg, s.pager.freeAll c.ndebug ((c.tdestroy (s.ps.procs p).pageTable).map Prod.snd) = .ok pg ∧
      pg.WellFormed ∧ Pager.Freed ((s.ps.procs p).pageTable.map Prod.snd) s.pager pg := by
  have hperm := (c.tdestroy_perm (s.ps.procs p).pageTable).map Prod.snd
  obtain ⟨hnd, hl⟩ := h.destroyed hq
  obtain ⟨pg, hok, hpg, hfr⟩ := Pager.freeAll_ok c.ndebug h.pager hnd hl
  refine ⟨pg, hok, hpg, ?_⟩
  exact ⟨fun u => by rw [hfr.live, hperm.mem_iff], fun u => by rw [hfr.resident, hperm.mem_iff],
    fun u hu => hfr.vpages u (mt hperm.mem_iff.1 hu), hfr.memSize, hfr.nextPage⟩

theorem finished (h : s.WellFormed c) (hq : s.ps.pq .RUNNABLE = p :: queue)
    (hf : s.pager.freeAll c.ndebug ((c.tdestroy (s.ps.procs p).pageTable).map Prod.snd) =
      .ok pg) : (s.finished p pg).WellFormed c := by
  have hmem : p ∈ s.ps.pq .RUNNABLE := hq ▸ List.mem_cons_self
  have hset := h.settled (h.ps.lt hmem)
  have hst := h.ps.status hmem
  obtain ⟨pg', hok, hpg, hfr⟩ := h.freeAll hmem
  obtain rfl : pg = pg' := Except.ok.inj (hf.symm.trans hok)
  have hps : ((s.ps.modify p fun p => { p with currentPos := 0 }).moved
      p .RUNNABLE .FINISHED).WellFormed :=
    h.ps.moved (f := fun p => { p with currentPos := 0 }) hq rfl fun hp => { hp with }
  refine h.update (p := p) ⟨hps.mem_pq, hps.nodup, hps.sorted, hps.pid_ne_zero, hps.pid_inj,
    hps.placed⟩ hpg hfr.memSize rfl (h.ps.lt hmem) (fun r hr => ?_) (fun u hu hup => ?_) ?_
  · simp only [Sim.finished, Processes.free, Processes.moved_procs, Processes.modify_procs,
      if_neg hr]
  · refine hfr.keeps fun hm => hup ?_
    obtain ⟨e, he, rfl⟩ := List.mem_map.1 hm
    exact (hset.page (by simp [hst]) he).2.1
  · simp only [Sim.finished, Processes.free, Processes.moved_procs, if_true]
    exact ⟨fun e => absurd rfl e, fun e => absurd rfl e, (by rintro ⟨⟩), (by rintro ⟨⟩)⟩

theorem blocked (h : s.WellFormed c) (hq : s.ps.pq .RUNNABLE = p :: queue) {pid vpn : ℕ}
    {rest : List Char}
    (hscan : fscanf simulatorFormat (c.text.drop fpos) = ⟨2, [pid, vpn], rest⟩)
    (hv : (s.ps.procs p).getVirtualPage vpn = some v) (hr : ¬s.pager.mem.Resident v) :
    (s.blocked c p v fpos).WellFormed c := by
  have hmem : p ∈ s.ps.pq .RUNNABLE := hq ▸ List.mem_cons_self
  have hset := h.settled (h.ps.lt hmem)
  have hst := h.ps.status hmem
  have hps : (s.blocked c p v fpos).ps.WellFormed :=
    h.ps.moved (f := fun p =>
      { p with waitTime := c.diskPenalty, waitingOnPage := some v, currentPos := fpos }) hq rfl
      fun hp => { hp with }
  refine h.update (p := p) hps h.pager rfl rfl (h.ps.lt hmem) (fun r hr => ?_)
    (fun u _ _ => .refl _ u) ?_
  · simp only [Sim.blocked, Processes.moved_procs, Processes.modify_procs, if_neg hr]
  · simp only [Sim.blocked, Processes.moved_procs, if_true, Processes.modify_self]
    exact ⟨fun _ => hset.keys (by simp [hst]), fun _ => hset.page (by simp [hst]),
      fun _ => ⟨pid, vpn, rest, v, hscan, rfl, hv, hr⟩, (by rintro ⟨⟩)⟩

end WellFormed

end Preservation

/-! ## Iterations -/

section Step

variable [R.Lawful] {queue : List ProcId} {v : PageId} {r : Reference} {u s' : Sim R} {e : Event}

namespace Reads

omit [R.Lawful] in
theorem pq (h : s.Reads c r u) : u.ps.pq = s.ps.pq := by
  obtain ⟨rest, -, rfl⟩ := h.scan
  exact paged_pq.trans tick_pq

omit [R.Lawful] in
theorem nextProc (h : s.Reads c r u) : u.ps.nextProc = s.ps.nextProc := by
  obtain ⟨rest, -, rfl⟩ := h.scan
  exact paged_nextProc.trans tick_nextProc

omit [R.Lawful] in
theorem procs_live (h : s.Reads c r u) : u.ps.live = s.ps.live := by
  obtain ⟨rest, -, rfl⟩ := h.scan
  exact paged_live.trans tick_live

omit [R.Lawful] in
theorem p_eq (h : s.Reads c r u) : u.p = some r.p := by
  obtain ⟨rest, -, rfl⟩ := h.scan
  exact paged_p

omit [R.Lawful] in
theorem time (h : s.Reads c r u) : u.time = s.time + 1 := by
  obtain ⟨rest, -, rfl⟩ := h.scan
  exact paged_time.trans tick_time

omit [R.Lawful] in
theorem stat (h : s.Reads c r u) : u.stat = s.tick.stat := by
  obtain ⟨rest, -, rfl⟩ := h.scan
  exact paged_stat

omit [R.Lawful] in
/-- In the processes, only the timer and the page tables may have changed. -/
theorem procs (h : s.Reads c r u) (q : ProcId) : ∃ pt, u.ps.procs q =
    { s.ps.procs q with waitTime := s.tickedTime q, pageTable := pt } := by
  obtain ⟨rest, -, rfl⟩ := h.scan
  obtain ⟨pt, he⟩ := (s.tick.reading c r.p r.pid rest).exists_paged_procs r.p r.vpn q
  exact ⟨pt, he.trans (by rw [show (s.tick.reading c r.p r.pid rest).ps = s.tick.ps from rfl,
    tick_procs])⟩

omit [R.Lawful] in
theorem status_eq (h : s.Reads c r u) (q : ProcId) :
    (u.ps.procs q).status = (s.ps.procs q).status := by
  obtain ⟨pt, he⟩ := h.procs q
  rw [he]

theorem wellFormed (h : s.Reads c r u) (hs : s.WellFormed c) : u.WellFormed c := by
  obtain ⟨hs', hq⟩ := h.head
  obtain ⟨rest, -, rfl⟩ := h.scan
  have hr : (s.tick.reading c r.p r.pid rest).WellFormed c := hs.tick.congr rfl rfl
  refine hr.paged ?_ r.vpn
  rw [show (s.tick.reading c r.p r.pid rest).ps = s.tick.ps from rfl, tick_pq, hq]
  exact List.mem_cons_self

/-- The process of a reference is runnable. -/
theorem lt (h : s.Reads c r u) (hs : s.WellFormed c) : r.p < u.ps.nextProc := by
  obtain ⟨queue, hq⟩ := h.head
  exact (h.wellFormed hs).ps.lt (h.pq ▸ hq ▸ List.mem_cons_self)

theorem runnable (h : s.Reads c r u) (hs : s.WellFormed c) :
    (u.ps.procs r.p).status = .RUNNABLE := by
  obtain ⟨queue, hq⟩ := h.head
  exact (h.wellFormed hs).ps.status (h.pq ▸ hq ▸ List.mem_cons_self)

/-- The page referenced is live, and is the one of the process with that number. -/
theorem live (h : s.Reads c r u) (hs : s.WellFormed c) : u.pager.mem.live r.v = true ∧
    (u.pager.mem.vpages r.v).pid = (u.ps.procs r.p).pid ∧
      (u.pager.mem.vpages r.v).vpn = r.vpn :=
  ((h.wellFormed hs).settled (h.lt hs)).page (by simp [h.runnable hs]) (PageTable.mem_of_get h.page)

omit [R.Lawful] in
/-- The root of the page table has been written. -/
theorem pageTable_ne_nil (h : s.Reads c r u) : (u.ps.procs r.p).pageTable ≠ [] :=
  List.ne_nil_of_mem (PageTable.mem_of_get h.page)

/-- When the process finishes, its pages are freed, and no others. -/
theorem freed {rep : R.State} {pg : Pager R} (h : s.Reads c r u) (hs : s.WellFormed c)
    (hm : u.pager.mem.Resident r.v)
    (ha : R.notifyPageAccess c.ndebug u.pager.mem u.pager.rep (u.pager.mem.vpages r.v).overhead =
      .ok rep)
    (hf : (u.accessed rep).pager.freeAll c.ndebug
      ((c.tdestroy (u.ps.procs r.p).pageTable).map Prod.snd) = .ok pg) :
    (u.accessed rep).WellFormed c ∧ pg.WellFormed ∧
      Pager.Freed ((u.ps.procs r.p).pageTable.map Prod.snd) (u.accessed rep).pager pg := by
  obtain ⟨queue, hq⟩ := h.head
  have hmem : r.p ∈ (u.accessed rep).ps.pq .RUNNABLE := h.pq ▸ hq ▸ List.mem_cons_self
  have hw := (h.wellFormed hs).accessed hm ha
  obtain ⟨pg', hok, hpg, hfr⟩ := hw.freeAll hmem
  obtain rfl : pg = pg' := Except.ok.inj (hf.symm.trans hok)
  exact ⟨hw, hpg, hfr⟩

end Reads

omit [R.Lawful] in
/-- A reference is not run when an I/O is over. -/
theorem Move.hit_notDue (h : s.Move c (.hit r) s') : s.tick.ioDue = false := by
  cases h with
  | jump h | next h | finish h => exact h.notDue

omit [R.Lawful] in
theorem Move.miss_notDue (h : s.Move c (.miss r) s') : s.tick.ioDue = false := by
  cases h with
  | miss h => exact h.notDue

/-- The moves keep the simulator well formed. -/
theorem Move.wellFormed (h : s.Move c e s') (hs : s.WellFormed c) : s'.WellFormed c := by
  cases h with
  | completion hq hw hv hf hl =>
    refine hs.tick.completed (by rwa [tick_pq]) ?_ (by simpa using hv) (by
      rwa [findFrame, tick_pager]) hl
    simpa [tickedTime, Processes.peek, hq, CLOCK_TICK] using (ioDue_tick_iff hq).1 hw
  | idle hr hb hw => exact hs.tick.skipped (by rw [tick_pq, hb]; exact List.mem_cons_self)
  | jump h hm ha hl hi =>
    obtain ⟨hs', hq⟩ := h.head
    exact ((h.wellFormed hs).accessed hm ha).jumped (h.pq ▸ hq) hi
  | next h hm ha hl =>
    obtain ⟨hs', hq⟩ := h.head
    exact ((h.wellFormed hs).accessed hm ha).nextLine (h.pq ▸ hq ▸ List.mem_cons_self) hl
  | finish h hm ha hl hi hf =>
    obtain ⟨hs', hq⟩ := h.head
    exact ((h.wellFormed hs).accessed hm ha).finished (h.pq ▸ hq) hf
  | miss h hm =>
    obtain ⟨hs', hq⟩ := h.head
    obtain ⟨rest, hscan, -⟩ := h.scan
    exact (h.wellFormed hs).blocked (h.pq ▸ hq) hscan h.page hm

omit [R.Lawful] in
theorem step_eq (fast : Bool) : s.step c fast =
    if s.tick.ioDue then s.tick.completion c
    else match s.tick.ps.peek .RUNNABLE with
      | none => if fast then s.tick.skipIdle c else .ok (.idle, s.tick)
      | some h => s.tick.contextSwitch c h >>= fun s => s.runLine c h := rfl

/-- An iteration when an I/O is over. -/
theorem step_completion (hs : s.WellFormed c) (fast : Bool) (hd : s.tick.ioDue = true) :
    (∃ e s', s.step c fast = .ok (e, s') ∧ s.Move c e s') ∨
      (s.Exit c ∧ ∃ msg, s.step c fast = .error (.exitFailure msg)) := by
  have ht := hs.tick
  obtain ⟨q, bs, hq⟩ := exists_blocked_of_ioDue hd
  have hq' : s.tick.ps.pq .BLOCKED = q :: bs := by rwa [tick_pq]
  have hw : (s.tick.ps.procs q).waitTime = 0 := by
    simpa [tickedTime, Processes.peek, hq, CLOCK_TICK] using (ioDue_tick_iff hq).1 hd
  rw [step_eq, if_pos hd]
  rcases findFrame_cases ht with ⟨ha, hf, msg, he⟩ | ⟨ppn, victim, pg, he, -⟩
  · rw [tick_pager] at ha hf
    exact .inr ⟨.noFrame hd ha hf, msg, completion_eq_error ht hq' hw he⟩
  · obtain ⟨v, hv⟩ := ht.exists_awaited (hq' ▸ List.mem_cons_self)
    obtain ⟨rep, hl, -⟩ := ht.load (hq' ▸ List.mem_cons_self) hv he
    exact .inl ⟨_, _, completion_eq ht hq' hw hv he hl,
      .completion hq hd (by simpa using hv) (by rwa [findFrame, tick_pager] at he) hl⟩

/-- Without a frame for the page, it exits. -/
theorem step_noFrame (hs : s.WellFormed c) (fast : Bool) (hd : s.tick.ioDue = true)
    (ht : s.pager.mem.tracked ≤ s.pager.mem.allocated) (ha : s.pager.mem.hasFreePage = true) :
    s.step c fast = .error Memory.noFreePage := by
  obtain ⟨q, bs, hq⟩ := exists_blocked_of_ioDue hd
  have hw : (s.tick.ps.procs q).waitTime = 0 := by
    simpa [tickedTime, Processes.peek, hq, CLOCK_TICK] using (ioDue_tick_iff hq).1 hd
  obtain ⟨msg, hget⟩ := Memory.getFreePage_eq_error hs.pager.mem (not_lt.2 ht)
  have hf : s.tick.findFrame c = .error (.exitFailure msg) := by
    rw [findFrame, tick_pager, if_pos ha, hget, error_bind]
  rw [step_eq, if_pos hd, completion_eq_error hs.tick (by rwa [tick_pq]) hw hf,
    Memory.getFreePageFrom_error hget]

omit [R.Lawful] in
/-- An iteration when all processes are waiting. -/
theorem step_idle {q : ProcId} {bs : List ProcId} (hd : s.tick.ioDue = false)
    (hr : s.ps.pq .RUNNABLE = []) (hq : s.ps.pq .BLOCKED = q :: bs) :
    s.step c true = .ok (.idle, s.tick.skipped q) := by
  have hw : (s.tick.ps.procs q).waitTime ≠ 0 := by
    have := mt (ioDue_tick_iff hq).2 (by simp [hd])
    simpa [tickedTime, Processes.peek, hq, CLOCK_TICK] using this
  rw [step_eq, if_neg (by simp [hd]), Processes.peek, tick_pq, hr]
  exact skipIdle_eq (by rwa [tick_pq]) hw

/-- A hit is one of three moves. -/
theorem Reads.hit (h : s.Reads c r u) (hs : s.WellFormed c) (hv : u.pager.mem.Resident r.v) :
    ∃ s', u.hit c r.p r.v = .ok s' ∧ s.Move c (.hit r) s' := by
  obtain ⟨queue, hq⟩ := h.head
  have hu := h.wellFormed hs
  have hq' : u.ps.pq .RUNNABLE = r.p :: queue := h.pq ▸ hq
  have hmem : r.p ∈ u.ps.pq .RUNNABLE := hq' ▸ List.mem_cons_self
  have hplaced := hu.ps.placed (hu.ps.lt hmem)
  obtain ⟨rep, ha, -⟩ :=
    ReplaceModule.Lawful.notifyPageAccess_ok c.ndebug hu.pager.mem hu.pager.tracks hv
  cases hl : (u.ps.procs r.p).onLastLineInInterval with
  | true =>
    cases hi : (u.ps.procs r.p).hasIntervalsRemaining with
    | true => exact ⟨_, hit_jump ha hu.ps hq' hl hi, .jump h hv ha hl hi⟩
    | false =>
      obtain ⟨pg, hf, -⟩ := (hu.accessed hv ha).freeAll (p := r.p) hmem
      exact ⟨_, hit_finish ha hu.ps hq' hl hi h.pageTable_ne_nil hf, .finish h hv ha hl hi hf⟩
  | false =>
    have hn : (u.ps.procs r.p).hasLinesRemainingInInterval = true := by
      simpa [hl] using mt hplaced.onLastLine_iff.2
    exact ⟨_, hit_next ha hl hn, .next h hv ha hn⟩

/-- An iteration when a process is runnable. -/
theorem step_runnable (hs : s.WellFormed c) (fast : Bool) (hd : s.tick.ioDue = false)
    {h : ProcId} {queue : List ProcId} (hq : s.ps.pq .RUNNABLE = h :: queue) :
    s.step c fast =
      ({ s.tick with p := some h, cursor := s.position h } : Sim R).runLine c h := by
  have hq' : s.tick.ps.pq .RUNNABLE = h :: queue := by rwa [tick_pq]
  have hpos : s.tick.position h = s.position h := by simp [position]
  rw [step_eq, if_neg (by simp [hd]), Processes.peek, hq', List.head?_cons]
  dsimp only
  rw [contextSwitch_eq hs.tick.ps hq', ok_bind, hpos]

/-- Without a record to read, it exits. -/
theorem step_noRecord (hs : s.WellFormed c) (fast : Bool) (hd : s.tick.ioDue = false)
    {h : ProcId} {queue : List ProcId} (hq : s.ps.pq .RUNNABLE = h :: queue)
    (hscan : ∀ pid vpn rest, fscanf simulatorFormat (c.text.drop (s.position h)) ≠
      ⟨2, [pid, vpn], rest⟩) :
    s.step c fast = .error (.exitFailure "Error reading from trace file.") := by
  have hmem : h ∈ s.tick.ps.pq .RUNNABLE := by
    rw [tick_pq, hq]
    exact List.mem_cons_self
  have hne := (hs.tick.ps.placed (hs.tick.ps.lt hmem)).ne_null
  rw [step_runnable hs fast hd hq]
  exact runLine_eq_error hne hscan

/-- Otherwise it goes on to the hit, or the miss. -/
theorem Reads.step_eq (h : s.Reads c r u) (hs : s.WellFormed c) (fast : Bool) :
    s.step c fast = if (u.pager.mem.vpages r.v).inMemory then
      u.hit c r.p r.v >>= fun s => .ok (.hit r, s)
    else u.miss c r.p r.v r.fpos >>= fun s => .ok (.miss r, s) := by
  obtain ⟨queue, hq⟩ := h.head
  obtain ⟨rest, hscan, hu⟩ := h.scan
  have hmem : r.p ∈ s.tick.ps.pq .RUNNABLE := by
    rw [tick_pq, hq]
    exact List.mem_cons_self
  have hne := (hs.tick.ps.placed (hs.tick.ps.lt hmem)).ne_null
  have hpid := hs.tick.ps.pid_ne_zero (hs.tick.ps.lt hmem)
  set t : Sim R := { s.tick with p := some r.p, cursor := r.fpos } with htdef
  obtain ⟨v, hv, he⟩ := runLine_eq (s := t) rfl hne hscan hpid
    ((searchable_tick.2 h.searchable).congr rfl rfl)
  have hread : (t.reading c r.p r.pid rest).paged r.p r.vpn = u := hu.symm
  rw [hread] at hv he
  obtain rfl : r.v = v := Option.some.inj (h.page.symm.trans hv)
  have hr : (⟨r.p, (t.ps.procs r.p).currentline, r.fpos, r.pid, r.vpn, r.v⟩ : Reference) = r := by
    have hline : (t.ps.procs r.p).currentline = r.line := by simp [htdef, h.line]
    rw [hline]
  rw [step_runnable hs fast h.notDue hq, ← h.fpos, he]
  dsimp only
  rw [show t.cursor = r.fpos from rfl, hr]

/-- A page not in memory is missed. -/
theorem Reads.step_miss (h : s.Reads c r u) (hs : s.WellFormed c) (fast : Bool)
    (hm : (u.pager.mem.vpages r.v).inMemory = false) :
    s.step c fast = .ok (.miss r, u.blocked c r.p r.v r.fpos) := by
  obtain ⟨queue, hq⟩ := h.head
  have hmiss : u.miss c r.p r.v r.fpos = .ok (u.blocked c r.p r.v r.fpos) :=
    miss_eq r.fpos (h.wellFormed hs).ps ((congrFun h.pq _).trans hq)
  rw [h.step_eq hs, if_neg (by simp [hm]), hmiss, ok_bind]

/-- Where what `malloc` left is used, something undefined happens. -/
theorem step_misread (hs : s.WellFormed c) (fast : Bool) (hd : s.tick.ioDue = false) {h : ProcId}
    {queue : List ProcId} (hq : s.ps.pq .RUNNABLE = h :: queue) {pid vpn : ℕ} {rest : List Char}
    {stop : Stop}
    (hscan : fscanf simulatorFormat (c.text.drop (s.position h)) = ⟨2, [pid, vpn], rest⟩)
    (hm : s.tick.Misread c h vpn stop) : s.step c fast = .error stop := by
  have hmem : h ∈ s.tick.ps.pq .RUNNABLE := by
    rw [tick_pq, hq]
    exact List.mem_cons_self
  have hlt := hs.tick.ps.lt hmem
  rw [step_runnable hs fast hd hq]
  exact runLine_misread (s := { s.tick with p := some h, cursor := s.position h }) rfl
    (hs.tick.ps.placed hlt).ne_null hscan (hs.tick.ps.pid_ne_zero hlt) (hm.congr rfl rfl)

theorem Unwritten.step_eq (h : s.Unwritten c) (hs : s.WellFormed c) (fast : Bool) :
    ∃ what, s.step c fast = .error (.undefined what) := by
  obtain ⟨p, queue, pid, vpn, rest, hq, hscan, hn⟩ := h.search
  obtain ⟨stop, hm⟩ := exists_misread (mt searchable_tick.1 hn)
  obtain ⟨what, rfl⟩ := hm.eq_undefined
  exact ⟨what, step_misread hs fast h.notDue hq hscan hm⟩

/-- An iteration when a process is runnable is a hit, a miss, or an exit, unless it uses what
    `malloc` left. -/
theorem step_reference (hs : s.WellFormed c) (fast : Bool) (hd : s.tick.ioDue = false)
    {h : ProcId} {queue : List ProcId} (hq : s.ps.pq .RUNNABLE = h :: queue)
    (hun : ¬s.Unwritten c) :
    (∃ e s', s.step c fast = .ok (e, s') ∧ s.Move c e s') ∨
      (s.Exit c ∧ ∃ msg, s.step c fast = .error (.exitFailure msg)) := by
  by_cases hscan : ∃ pid vpn rest, fscanf simulatorFormat (c.text.drop (s.position h)) =
      ⟨2, [pid, vpn], rest⟩
  · obtain ⟨pid, vpn, rest, hscan⟩ := hscan
    have hmem : h ∈ s.tick.ps.pq .RUNNABLE := by
      rw [tick_pq, hq]
      exact List.mem_cons_self
    have hpid := hs.tick.ps.pid_ne_zero (hs.tick.ps.lt hmem)
    have hn : s.Searchable c h vpn := not_not.1 fun hn =>
      hun ⟨hd, h, queue, pid, vpn, rest, hq, hscan, hn⟩
    obtain ⟨v, -, hv⟩ := virtualPage_eq (s := s.tick.reading c h pid rest) (c := c) (p := h) hpid
      ((searchable_tick.2 hn).congr rfl rfl)
    set r : Reference := ⟨h, (s.ps.procs h).currentline, s.position h, pid, vpn, v⟩
    set u := (s.tick.reading c h pid rest).paged h vpn
    have hread : s.Reads c r u := ⟨⟨queue, hq⟩, hd, rfl, rfl, ⟨rest, hscan, rfl⟩, hv, hn⟩
    refine .inl ?_
    cases hm : (u.pager.mem.vpages v).inMemory with
    | true =>
      obtain ⟨s', hhit, hmove⟩ := hread.hit hs ⟨(hread.live hs).1, hm⟩
      exact ⟨.hit r, s', by rw [hread.step_eq hs, if_pos hm, hhit, ok_bind], hmove⟩
    | false =>
      refine ⟨.miss r, _, hread.step_miss hs fast hm, .miss hread fun hr => ?_⟩
      cases hm.symm.trans hr.2
  · push Not at hscan
    exact .inr ⟨.noRecord hd hq hscan, _, step_noRecord hs fast hd hq hscan⟩

/-- An iteration from a well-formed state is a move, or an exit, unless it uses what `malloc`
    left: no assertion fails. -/
theorem step_cases (hs : s.WellFormed c) (hr : s.notDone = true) :
    (∃ e s', s.step c true = .ok (e, s') ∧ s.Move c e s') ∨
      (s.Exit c ∧ ∃ msg, s.step c true = .error (.exitFailure msg)) ∨
      (s.Unwritten c ∧ ∃ what, s.step c true = .error (.undefined what)) := by
  by_cases hun : s.Unwritten c
  · exact .inr (.inr ⟨hun, hun.step_eq hs true⟩)
  · refine Or.imp_right .inl ?_
    cases hd : s.tick.ioDue with
    | true => exact step_completion hs true hd
    | false =>
      cases hq : s.ps.pq .RUNNABLE with
      | nil =>
        obtain ⟨q, bs, hb⟩ := exists_blocked hr hq
        exact .inl ⟨_, _, step_idle hd hq hb, .idle hq hb hd⟩
      | cons h queue => exact step_reference hs true hd hq hun

/-- The iteration is the move. -/
theorem Move.step_eq (h : s.Move c e s') (hs : s.WellFormed c) : s.step c true = .ok (e, s') := by
  cases h with
  | @completion q bs v ppn victim pg rep hq hw hv hf hl =>
    have hzero : (s.tick.ps.procs q).waitTime = 0 := by
      simpa [tickedTime, Processes.peek, hq, CLOCK_TICK] using (ioDue_tick_iff hq).1 hw
    have hv' : (s.tick.ps.procs q).waitingOnPage = some v := by simpa using hv
    have hf' : s.tick.findFrame c = .ok (ppn, victim, pg) := by rwa [findFrame, tick_pager]
    rw [Sim.step_eq, if_pos hw]
    exact completion_eq hs.tick (by rwa [tick_pq]) hzero hv' hf' hl
  | idle hr hb hw => exact step_idle hw hr hb
  | jump h hm ha hl hi =>
    obtain ⟨queue, hq⟩ := h.head
    rw [h.step_eq hs, if_pos hm.2, hit_jump ha (h.wellFormed hs).ps (h.pq ▸ hq) hl hi, ok_bind]
  | @next r u rep h hm ha hl =>
    have hlast : (u.ps.procs r.p).onLastLineInInterval = false := by
      simp only [Process.hasLinesRemainingInInterval, decide_eq_true_eq] at hl
      simp only [Process.onLastLineInInterval, beq_eq_false_iff_ne]
      exact hl.ne'
    rw [h.step_eq hs, if_pos hm.2, hit_next ha hlast hl, ok_bind]
  | finish h hm ha hl hi hf =>
    obtain ⟨queue, hq⟩ := h.head
    rw [h.step_eq hs, if_pos hm.2,
      hit_finish ha (h.wellFormed hs).ps (h.pq ▸ hq) hl hi h.pageTable_ne_nil hf, ok_bind]
  | @miss r u h hm =>
    -- A page of a process is live: it is not resident because it is not in memory.
    have hm' : (u.pager.mem.vpages r.v).inMemory = false := by
      by_contra hin
      exact hm ⟨(h.live hs).1, by simpa using hin⟩
    exact h.step_miss hs true hm'

end Step

end Pfsim.Sim
