import Pfsim.LruStack
import Pfsim.Simulator.Single

/-!
# Larger memories

With a single process and LRU replacement, the pages in memory are those on top of the
stack of the references run so far (`Sim.OnStack`, `LruStack`): a fault puts its page on
top when it is loaded, and the reference, run again, finds it there. So a larger memory
holds all the pages a smaller one does, and does not fault more often.

* `lru_inclusion`: this, for whole runs with two sizes of memory.
-/

namespace Pfsim

open LruStack

/-! ## The queue and the stack -/

namespace Pager

/-- The numbers of the pages queued, the last one first. -/
def recent (pg : Pager Policy.lru.replace) : List ℕ :=
  ((PageQueue.queue pg.rep).map fun v => (pg.mem.vpages v).vpn).reverse

variable {pg : Pager Policy.lru.replace} {rep : Policy.lru.replace.State} {v : PageId} {ppn : ℕ}
  {ndebug : Bool}

theorem WellFormed.length_recent (h : pg.WellFormed) : pg.recent.length = pg.mem.allocated := by
  have ht : PageQueue.Tracks pg.mem pg.rep := h.tracks
  rw [recent, List.length_reverse, List.length_map, ht.length]

theorem WellFormed.mem_recent (h : pg.WellFormed) {n : ℕ} :
    n ∈ pg.recent ↔ ∃ v, pg.mem.Resident v ∧ (pg.mem.vpages v).vpn = n := by
  have ht : PageQueue.Tracks pg.mem pg.rep := h.tracks
  rw [recent, List.mem_reverse, List.mem_map]
  exact exists_congr fun v => and_congr_left fun _ => ht.mem_queue v

/-- A hit puts its page on top. -/
theorem WellFormed.recent_access (h : pg.WellFormed) (hv : pg.mem.Resident v)
    (hinj : ∀ u, pg.mem.Resident u → (pg.mem.vpages u).vpn = (pg.mem.vpages v).vpn → u = v)
    (ha : Policy.lru.replace.notifyPageAccess ndebug pg.mem pg.rep (pg.mem.vpages v).overhead =
      .ok rep) :
    recent ⟨pg.mem, rep⟩ = touch (pg.mem.vpages v).vpn pg.recent := by
  have ht : PageQueue.Tracks pg.mem pg.rep := h.tracks
  rw [ht.overhead v hv.1] at ha
  have hqueue := PageQueue.queue_of_moveToTail ha
  rw [ht.nodup.erase_eq_filter] at hqueue
  have hfilter : ((PageQueue.queue pg.rep).filter (· != v)).map (fun v => (pg.mem.vpages v).vpn) =
      ((PageQueue.queue pg.rep).map fun v => (pg.mem.vpages v).vpn).filter
        (· ≠ (pg.mem.vpages v).vpn) := by
    rw [List.filter_map]
    refine congrArg _ (List.filter_congr fun u hu => ?_)
    have hu := hinj u ((ht.mem_queue u).1 hu)
    refine Bool.eq_iff_iff.2 ?_
    rw [Function.comp_apply, bne_iff_ne, decide_eq_true_iff]
    exact not_congr ⟨fun e => e ▸ rfl, hu⟩
  rw [recent, hqueue, List.map_append, List.reverse_append, hfilter, touch, recent,
    List.filter_reverse]
  rfl

/-- A load too. -/
theorem WellFormed.recent_load (h : pg.WellFormed) (hv : pg.mem.live v = true)
    (hl : Policy.lru.replace.notifyPageLoad ndebug (pg.mem.loaded v ppn) pg.rep
      (pg.mem.vpages v).overhead = .ok rep) :
    recent ⟨pg.mem.loaded v ppn, rep⟩ = (pg.mem.vpages v).vpn :: pg.recent := by
  have ht : PageQueue.Tracks pg.mem pg.rep := h.tracks
  rw [ht.overhead v hv] at hl
  have hqueue := PageQueue.queue_of_notifyPageLoad hl
  simp only [recent, hqueue, Memory.vpn_loaded, List.map_append, List.reverse_append,
    List.map_cons, List.map_nil, List.reverse_cons, List.reverse_nil, List.nil_append,
    List.cons_append]

end Pager

namespace Sim

variable {c : Setup} {s s' u : Sim Policy.lru.replace} {e : Event} {r : Reference}
  {ppn : ℕ} {victim : Option PageId} {pg : Pager Policy.lru.replace}

/-- The search for a frame leaves room for a page more. -/
theorem recent_findFrame (hs : s.WellFormed c) (hf : s.findFrame c = .ok (ppn, victim, pg)) :
    pg.recent = s.pager.recent.take (c.frames - 1) := by
  have hlen := hs.pager.length_recent
  have ht : PageQueue.Tracks s.pager.mem s.pager.rep := hs.pager.tracks
  rcases (findFrame_ok hs hf).cases with ⟨hfree, -, rfl⟩ | ⟨hfull, w, rfl, hw, hmem⟩
  · -- There was room.
    have hlt : s.pager.mem.allocated < s.pager.mem.memSize := by
      simpa [Memory.hasFreePage] using hfree
    rw [List.take_of_length_le]
    rw [hlen, ← hs.memSize]
    omega
  · -- The first page of the queue has been evicted.
    have hge : s.pager.mem.memSize ≤ s.pager.mem.allocated := by
      simpa [Memory.hasFreePage] using hfull
    have hle := hs.pager.mem.allocated_le
    have hlen : s.pager.recent.length = c.frames := by rw [hlen, ← hs.memSize]; omega
    have hqueue : PageQueue.queue s.pager.rep = w :: PageQueue.queue pg.rep := by
      rw [findFrame, if_neg (by simp [hfull])] at hf
      obtain ⟨⟨ppn', rep⟩, hget, hf⟩ := bind_eq_ok.1 hf
      obtain ⟨mem, -, hf⟩ := bind_eq_ok.1 hf
      obtain ⟨w', hqueue, hw'⟩ := ht.eq_cons_of_getPageToEvict hs.pager.mem hget
      obtain ⟨rfl, -, rfl⟩ : ppn' = ppn ∧ s.pager.mem.memory ppn' = some w ∧ ⟨mem, rep⟩ = pg := by
        simpa using hf
      exact Option.some.inj (hw.symm.trans hw') ▸ hqueue
    have hrecent : s.pager.recent = pg.recent ++ [(s.pager.mem.vpages w).vpn] := by
      simp only [Pager.recent, hqueue, hmem, Memory.vpn_evicted, List.map_cons, List.reverse_cons]
    rw [hrecent, List.length_append, List.length_singleton] at hlen
    rw [hrecent, List.take_left' (by omega)]

/-- A page made for the reference is not queued. -/
theorem Reads.recent (h : s.Reads c r u) (hs : s.WellFormed c) :
    u.pager.recent = s.pager.recent := by
  have ht : PageQueue.Tracks s.pager.mem s.pager.rep := hs.pager.tracks
  rcases h.pages_cases with ⟨hpager, -⟩ | ⟨-, ⟨o, ho⟩, -⟩
  · rw [hpager]
  · obtain ⟨q, hq, hqueue⟩ := h.pageQueue
      (show Policy.lru.pageQueue s.pager.rep = some s.pager.rep from rfl)
    obtain rfl := Option.some.inj hq
    rw [Pager.recent, hqueue, ho, Pager.recent]
    refine congrArg List.reverse (List.map_congr_left fun v hv => ?_)
    have hne : v ≠ s.pager.mem.nextPage := fun e =>
      absurd ((ht.mem_queue v).1 hv).1 (by simp [e, hs.pager.mem.not_live_nextPage])
    rw [Memory.vpages_newPage, if_neg hne]

/-- A reference is a hit if its page number is queued. -/
theorem Reads.mem_recent (h : s.Reads c r u) (hs : s.WellFormed c) (ho : s.Owned)
    (h1 : s.ps.nextProc ≤ 1) : r.vpn ∈ s.pager.recent ↔ u.pager.mem.Resident r.v := by
  have hu := h.wellFormed hs
  obtain ⟨hl, -, hvpn⟩ := h.live hs
  rw [← h.recent hs, hu.pager.mem_recent]
  refine ⟨fun ⟨v, hv, he⟩ => ?_, fun hm => ⟨r.v, hm, hvpn⟩⟩
  have hv' : v = r.v :=
    hu.eq_of_vpn (ho.reads hs h) (h.nextProc ▸ h1) hv.1 hl (he.trans hvpn.symm)
  exact hv' ▸ hv

/-- A hit puts its page number on top. -/
theorem Reads.recent_accessed {rep : Policy.lru.replace.State} (h : s.Reads c r u)
    (hs : s.WellFormed c) (ho : s.Owned) (h1 : s.ps.nextProc ≤ 1) (hm : u.pager.mem.Resident r.v)
    (ha : Policy.lru.replace.notifyPageAccess c.ndebug u.pager.mem u.pager.rep
      (u.pager.mem.vpages r.v).overhead = .ok rep) :
    (u.accessed rep).pager.recent = touch r.vpn s.pager.recent := by
  have hu := h.wellFormed hs
  rw [← h.recent hs, ← (h.live hs).2.2]
  exact hu.pager.recent_access hm (fun v hv he =>
    hu.eq_of_vpn (ho.reads hs h) (h.nextProc ▸ h1) hv.1 hm.1 he) ha

/-- The numbers of the pages in memory. -/
def residentPages {R : ReplaceModule} (s : Sim R) : Set ℕ :=
  {n | ∃ v, s.pager.mem.Resident v ∧ (s.pager.mem.vpages v).vpn = n}

/-! ## On the stack -/

/-- Memory holds the pages on top of the stack of the references run so far, all faults of
    which are accounted for. -/
inductive OnStack (tr : Trace) (c : Setup) (s : Sim Policy.lru.replace) : Prop
  /-- The last reference was a hit, after which the process may have finished. -/
  | ready (hb : s.ps.pq .BLOCKED = [])
      (hkept : s.ps.pq .RUNNABLE ≠ [] → s.pager.recent = kept c.frames tr.references s.stat.tmr)
      (htpi : s.stat.tpi = misses c.frames tr.references s.stat.tmr)
  /-- The next reference has been a miss, and its page is being loaded. -/
  | waiting (hb : s.ps.pq .BLOCKED ≠ [])
      (hkept : s.pager.recent = kept c.frames tr.references s.stat.tmr)
      (hnew : tr.references s.stat.tmr ∉ kept c.frames tr.references s.stat.tmr)
      (htpi : s.stat.tpi = misses c.frames tr.references (s.stat.tmr + 1))
  /-- Its page has been loaded, and the reference is run again. -/
  | loaded (hr : s.ps.pq .RUNNABLE ≠ [])
      (hkept : s.pager.recent = kept c.frames tr.references (s.stat.tmr + 1))
      (htpi : s.stat.tpi = misses c.frames tr.references (s.stat.tmr + 1))

variable {tr : Trace}

/-- The end of an I/O puts the page missed on top. -/
theorem OnStack.completion {p : ProcId} {v : PageId} {victim : Option PageId}
    (h : s.OnStack tr c) (htext : c.text = tr.text) (hpid : tr.Single)
    (hs : c.Reachable Policy.lru.replace s) (hm : s.Move c (.completion p v ppn victim) s') :
    s'.OnStack tr c := by
  have hw := hs.wellFormed
  have hone := hs.nextProc_le_one htext hpid
  obtain ⟨htmr, htpi'⟩ := hm.tmr_tpi
  have hrun : s'.ps.pq .RUNNABLE ≠ [] := by
    cases hm
    rw [completed_pq_runnable]
    exact List.ne_nil_of_mem ((List.mem_orderedInsert _).2 (.inl rfl))
  cases hm with
  | @completion _ bs _ _ _ pg rep hq hd hv hf hl =>
    have hmem : p ∈ s.ps.pq .BLOCKED := hq ▸ List.mem_cons_self
    cases h with
    | ready hb => simp [hb] at hq
    | loaded hr => exact absurd (hw.single hone) (by simp [hr, hq])
    | waiting _ hkept hnew htpi =>
      -- The victim is the page at the bottom, which the stack with the new page drops.
      have hlive := (hw.awaited hmem hv).1
      have hfr := findFrame_ok hw hf
      have hvpn : (pg.mem.vpages v).vpn = tr.references s.stat.tmr :=
        (hfr.keeps v).vpn.trans (hs.awaited_single htext hpid hmem hv)
      have hload := hfr.wellFormed.recent_load ((hfr.keeps v).live.trans hlive) hl
      rw [hvpn, recent_findFrame hw hf, hkept] at hload
      refine .loaded hrun ?_ ?_
      · rw [htmr]
        exact hload.trans (kept_succ_of_notMem c.frames_pos hnew).symm
      · rw [htmr, htpi']
        exact htpi

/-- A miss is that of a reference whose page is not among those kept. -/
theorem OnStack.miss (h : s.OnStack tr c) (htext : c.text = tr.text) (hpid : tr.Single)
    (hs : c.Reachable Policy.lru.replace s) (hm : s.Move c (.miss r) s') : s'.OnStack tr c := by
  have hw := hs.wellFormed
  have hone := hs.nextProc_le_one htext hpid
  obtain ⟨htmr, htpi'⟩ := hm.tmr_tpi
  cases hm with
  | @miss _ u hu hm =>
    obtain ⟨queue, hq⟩ := hu.head
    have hvpn := (hu.vpn_single htext hpid hs).2
    have hnot := mt (hu.mem_recent hw hs.owned hone).1 hm
    have hrecent : (u.blocked c r.p r.v r.fpos).pager.recent = s.pager.recent := hu.recent hw
    rw [hvpn] at hnot
    cases h with
    | waiting hb => exact absurd (hw.single hone) (by simp [hb, hq])
    | loaded hr hkept =>
      rw [hkept] at hnot
      exact absurd (self_mem_kept_succ c.frames_pos) hnot
    | ready hb hkept htpi =>
      have hkept := hkept (by simp [hq])
      rw [hkept] at hnot
      refine .waiting (by simp) ?_ ?_ ?_
      · rw [hrecent, hkept, htmr]
        rfl
      · rwa [htmr]
      · rw [htpi', htpi, htmr]
        exact (misses_succ_of_notMem hnot).symm

/-- What a hit finds: the pages kept once the reference is run, up to the order, among which
    its own. -/
theorem OnStack.of_hit (h : s.OnStack tr c) (htext : c.text = tr.text) (hpid : tr.Single)
    (hs : c.Reachable Policy.lru.replace s) (hu : s.Reads c r u) (hm : u.pager.mem.Resident r.v) :
    touch r.vpn s.pager.recent = kept c.frames tr.references (s.stat.tmr + 1) ∧
      s.stat.tpi = misses c.frames tr.references (s.stat.tmr + 1) := by
  have hw := hs.wellFormed
  have hone := hs.nextProc_le_one htext hpid
  obtain ⟨queue, hq⟩ := hu.head
  have hmem := (hu.mem_recent hw hs.owned hone).2 hm
  rw [(hu.vpn_single htext hpid hs).2] at hmem ⊢
  cases h with
  | waiting hb => exact absurd (hw.single hone) (by simp [hb, hq])
  | loaded hr hkept htpi => exact ⟨by rw [hkept, touch_kept_succ c.frames_pos], htpi⟩
  | ready hb hkept htpi =>
    have hkept := hkept (by simp [hq])
    rw [hkept] at hmem ⊢
    exact ⟨(kept_succ_of_mem hmem).symm, htpi.trans (misses_succ_of_mem hmem).symm⟩

/-- A hit puts its page on top, or leaves it there. If it is the last one, the process
    finishes. -/
theorem OnStack.hit (h : s.OnStack tr c) (htext : c.text = tr.text) (hpid : tr.Single)
    (hs : c.Reachable Policy.lru.replace s) (hm : s.Move c (.hit r) s') :
    s'.ps.pq .BLOCKED = [] ∧
      (s'.ps.pq .RUNNABLE ≠ [] → s'.pager.recent = kept c.frames tr.references s'.stat.tmr) ∧
      s'.stat.tpi = misses c.frames tr.references s'.stat.tmr := by
  have hw := hs.wellFormed
  have hone := hs.nextProc_le_one htext hpid
  obtain ⟨htmr, htpi⟩ := hm.tmr_tpi
  have hb : s'.ps.pq .BLOCKED = [] := by
    obtain ⟨queue, hq⟩ := hm.runnable_of_hit
    exact hm.hit_blocked.trans ((hw.single hone).resolve_left (by simp [hq]))
  suffices hkey : (s'.ps.pq .RUNNABLE ≠ [] →
      s'.pager.recent = kept c.frames tr.references (s.stat.tmr + 1)) ∧
        s.stat.tpi = misses c.frames tr.references (s.stat.tmr + 1) by
    have htmr : s'.stat.tmr = s.stat.tmr + 1 := htmr
    have htpi : s'.stat.tpi = s.stat.tpi := htpi
    exact ⟨hb, htmr ▸ hkey.1, htmr ▸ htpi ▸ hkey.2⟩
  cases hm with
  | @jump _ u rep hu hm ha | @next _ u rep hu hm ha =>
    obtain ⟨htop, htpi⟩ := h.of_hit htext hpid hs hu hm
    exact ⟨fun _ => (hu.recent_accessed hw hs.owned hone hm ha).trans htop, htpi⟩
  | @finish _ u rep pg hu hm =>
    refine ⟨fun hne => absurd ?_ hne, (h.of_hit htext hpid hs hu hm).2⟩
    obtain ⟨queue, hq⟩ := hu.head
    have hq' : u.ps.pq .RUNNABLE = r.p :: queue := hu.pq ▸ hq
    rw [finished_pq_runnable]
    exact congrArg List.tail (hq'.trans (by rw [hw.runnable_single hone hq]))

theorem Move.onStack (h : s.Move c e s') (htext : c.text = tr.text) (hpid : tr.Single)
    (hs : c.Reachable Policy.lru.replace s) (hst : s.OnStack tr c) : s'.OnStack tr c := by
  cases e with
  | completion => exact hst.completion htext hpid hs h
  | hit =>
    obtain ⟨hb, hkept, htpi⟩ := hst.hit htext hpid hs h
    exact .ready hb hkept htpi
  | miss => exact hst.miss htext hpid hs h
  | idle =>
    have hone := hs.nextProc_le_one htext hpid
    obtain ⟨b, bs, hb, -, -, hb'⟩ := h.idle_blocked
    obtain ⟨htmr, htpi⟩ := h.tmr_tpi
    have hpager : s'.pager = s.pager := by
      cases h
      exact tick_pager
    cases hst with
    | ready hb0 => simp [hb0] at hb
    | loaded hr => exact absurd (hs.wellFormed.single hone) (by simp [hr, hb])
    | waiting hne hkept hnew htpi' =>
      refine .waiting (hb' ▸ hne) ?_ ?_ ?_
      · rw [hpager, hkept, htmr]
        rfl
      · rwa [htmr]
      · rw [htpi, htmr]
        exact htpi'

end Sim

/-! ## Whole runs -/

section Runs

variable {tr : Trace} {c : Setup} {s s' s₀ : Sim Policy.lru.replace} {r : Reference}
  {ts : List (Machine.Transition (Sim Policy.lru.replace) Event)}

theorem Setup.Reachable.onStack (htext : c.text = tr.text) (hpid : tr.Single)
    (h : c.Reachable Policy.lru.replace s) : s.OnStack tr c := by
  obtain ⟨s₀, h₀, ts, h⟩ := h
  refine Setup.run_invariant (J := fun _ s => s.OnStack tr c) h₀ h ?_
    fun ts s e s' hs hi hm => hm.onStack htext hpid hs hi
  obtain ⟨ps, rfl, hi⟩ := Setup.start_indexed htext h₀
  exact .ready hi.blocked (fun _ => List.take_nil.symm) rfl

/-- When a hit is run, the pages in memory are those kept on the stack for its line; and so
    they are after that, unless it is the last one. -/
theorem residentPages_of_mem (htext : c.text = tr.text) (hpid : tr.Single)
    (h₀ : c.start Policy.lru.replace = .ok s₀) (h : (c.machine Policy.lru.replace).Run s₀ ts s)
    {t : Machine.Transition (Sim Policy.lru.replace) Event} (ht : t ∈ ts) (hr : t.lbl = .hit r) :
    t.src.residentPages = {n | n ∈ kept c.frames tr.references r.line} ∧
      t.dst.residentPages =
        {n | r.line < tr.length ∧ n ∈ kept c.frames tr.references r.line} := by
  obtain ⟨hreach, hrun, hstep⟩ := h.of_mem ht
  obtain ⟨s, e, s'⟩ := t
  obtain rfl : e = .hit r := hr
  have hs : c.Reachable Policy.lru.replace s := ⟨s₀, h₀, hreach⟩
  have hs' : c.Reachable Policy.lru.replace s' := ⟨s₀, h₀, hreach.step hrun hstep⟩
  have hm : s.Move c (.hit r) s' := Sim.move_of_step hs.wellFormed hrun hstep
  have hw := hs.wellFormed
  have hone := hs.nextProc_le_one htext hpid
  have hline : r.line = s.stat.tmr + 1 := by
    obtain ⟨u, hu⟩ := hm.reads rfl
    exact (hu.vpn_single htext hpid hs).1
  have htmr : r.line = s'.stat.tmr := hline.trans hm.tmr_tpi.1.symm
  refine ⟨Set.ext fun n => ?_, Set.ext fun n => ?_⟩
  · -- The page hit is there already.
    obtain ⟨u, hu, hres⟩ : ∃ u, s.Reads c r u ∧ u.pager.mem.Resident r.v := by
      cases hm with
      | jump hu hres | next hu hres | finish hu hres => exact ⟨_, hu, hres⟩
    have hmem := (hu.mem_recent hw hs.owned hone).2 hres
    have htop := (hs.onStack htext hpid).of_hit htext hpid hs hu hres
    rw [hline, Set.mem_ofPred, ← htop.1, mem_touch]
    refine hw.pager.mem_recent.symm.trans ⟨.inr, fun h => ?_⟩
    rcases h with rfl | h
    · exact hmem
    · exact h
  · rw [htmr, Set.mem_ofPred, hs'.tmr_lt_iff htext hpid]
    obtain ⟨hb, hkept, -⟩ := (hs.onStack htext hpid).hit htext hpid hs hm
    have hkept (hr : s'.notDone = true) :
        s'.pager.recent = kept c.frames tr.references s'.stat.tmr :=
      hkept (by simpa [Sim.notDone, Processes.existsWithStatus, hb] using hr)
    constructor
    · rintro ⟨v, hv, hn⟩
      obtain ⟨p, hp, hst, -⟩ := hs'.owned v hv.1
      have hr := hs'.wellFormed.notDone_iff.2 ⟨p, hp, hst⟩
      exact ⟨hr, hkept hr ▸ hs'.wellFormed.pager.mem_recent.2 ⟨v, hv, hn⟩⟩
    · rintro ⟨hr, h⟩
      exact hs'.wellFormed.pager.mem_recent.1 (hkept hr ▸ h)

/-- Each record is a hit of the run. -/
theorem exists_hit_of_run (htext : c.text = tr.text) (hpid : tr.Single)
    (h₀ : c.start Policy.lru.replace = .ok s₀) (h : (c.machine Policy.lru.replace).Run s₀ ts s)
    {k : ℕ} (h1 : 1 ≤ k) (hk : k ≤ s.stat.tmr) : ∃ t ∈ ts, ∃ r, t.lbl = .hit r ∧ r.line = k := by
  refine Setup.run_invariant (J := fun ts s => k ≤ s.stat.tmr → ∃ t ∈ ts, ∃ r, t.lbl = .hit r ∧
    r.line = k) h₀ h (fun hk => ?_) (fun ts s e s' hs hj hm hk => ?_) hk
  · obtain ⟨ps, -, rfl⟩ := Setup.start_eq h₀
    exact absurd (h1.trans hk) (by simp [Sim.init, Stat.init])
  · rw [hm.tmr_tpi.1] at hk
    by_cases hle : k ≤ s.stat.tmr
    · obtain ⟨t, ht, hr⟩ := hj hle
      exact ⟨t, List.mem_append_left _ ht, hr⟩
    · cases e with
      | hit r =>
        obtain ⟨u, hu⟩ := hm.reads rfl
        refine ⟨_, List.mem_append_right _ (List.mem_singleton_self _), r, rfl, ?_⟩
        rw [(hu.vpn_single htext hpid hs).1]
        exact le_antisymm (Nat.lt_of_not_le hle) hk
      | completion | idle | miss => exact absurd hk hle

/-- At the end, the faults are those of the stack. -/
theorem Setup.Reachable.tpi_of_done (htext : c.text = tr.text) (hpid : tr.Single)
    (h : c.Reachable Policy.lru.replace s) (hdone : s.notDone = false) :
    s.stat.tpi = misses c.frames tr.references tr.length := by
  have hempty := Sim.notDone_eq_false_iff.1 hdone
  cases h.onStack htext hpid with
  | ready hb hkept htpi => rw [htpi, h.tmr_of_done htext hdone]
  | waiting hb => exact absurd hempty.2 hb
  | loaded hr => exact absurd hempty.1 hr

end Runs

/-- With a single process number, and two sizes of memory, of which the frames all have a
    bit, LRU does not fault more often with the larger memory. At any time in both runs, the
    pages in memory when a record is a hit, with the smaller memory, are in memory at the same
    hit with the larger one, and so they are once it is run. If the simulations return, they
    do so after a hit for each record, and they do return if `malloc` leaves `NULL` in what is
    used before it is written. -/
theorem lru_inclusion (tr : Trace) (hpid : tr.Single) (c c' : Setup) (htext : c.text = tr.text)
    (htext' : c'.text = tr.text) (h32 : 32 ∣ c.frames) (h32' : 32 ∣ c'.frames)
    (hle : c.frames ≤ c'.frames) :
    (c.Blank → ∃ s₀ ts s, c.start Policy.lru.replace = .ok s₀ ∧
      (c.machine Policy.lru.replace).Returns s₀ ts s) ∧
    (c'.Blank → ∃ s₀' ts' s', c'.start Policy.lru.replace = .ok s₀' ∧
      (c'.machine Policy.lru.replace).Returns s₀' ts' s') ∧
    ∀ s₀ ts s s₀' ts' s', c.start Policy.lru.replace = .ok s₀ →
      (c.machine Policy.lru.replace).Run s₀ ts s → c'.start Policy.lru.replace = .ok s₀' →
      (c'.machine Policy.lru.replace).Run s₀' ts' s' →
        (∀ t ∈ ts, ∀ t' ∈ ts', ∀ r r', t.lbl = .hit r → t'.lbl = .hit r' → r.line = r'.line →
          t.src.residentPages ⊆ t'.src.residentPages ∧
            t.dst.residentPages ⊆ t'.dst.residentPages) ∧
        (s.notDone = false → s'.notDone = false → s'.stat.tpi ≤ s.stat.tpi ∧
          ∀ k, 1 ≤ k → k ≤ tr.length → ∃ t ∈ ts, ∃ t' ∈ ts', ∃ r r', t.lbl = .hit r ∧
            t'.lbl = .hit r' ∧ r.line = k ∧ r'.line = k) := by
  refine ⟨fun hb => hb.returns_single htext hpid h32, fun hb => hb.returns_single htext' hpid h32',
    fun s₀ ts s s₀' ts' s' h₀ h h₀' h' => ⟨fun t ht t' ht' r r' hr hr' hline => ?_,
      fun hdone hdone' => ⟨?_, fun k h1 hk => ?_⟩⟩⟩
  -- The pages in memory are those kept on the stack of the references so far.
  · obtain ⟨hsrc, hdst⟩ := residentPages_of_mem htext hpid h₀ h ht hr
    obtain ⟨hsrc', hdst'⟩ := residentPages_of_mem htext' hpid h₀' h' ht' hr'
    rw [hsrc, hdst, hsrc', hdst', hline]
    exact ⟨fun n hn => kept_subset hle hn, fun n hn => ⟨hn.1, kept_subset hle hn.2⟩⟩
  · rw [(Setup.Reachable.of_run h₀ h).tpi_of_done htext hpid hdone,
      (Setup.Reachable.of_run h₀' h').tpi_of_done htext' hpid hdone']
    exact misses_anti hle _ _
  -- All records have been hits in both runs.
  · have hs := Setup.Reachable.of_run h₀ h
    have hs' := Setup.Reachable.of_run h₀' h'
    obtain ⟨t, ht, r, hr, hline⟩ := exists_hit_of_run htext hpid h₀ h h1
      (hk.trans_eq (hs.tmr_of_done htext hdone).symm)
    obtain ⟨t', ht', r', hr', hline'⟩ := exists_hit_of_run htext' hpid h₀' h' h1
      (hk.trans_eq (hs'.tmr_of_done htext' hdone').symm)
    exact ⟨t, ht, t', ht', r, r', hr, hr', hline, hline'⟩

/-- The pages from `0` to `33`, then `33` and `0`: with `32` frames, the last one has been
    evicted. -/
def Trace.overflowing : Trace := .ofPages (List.range 34 ++ [33, 0])

theorem Trace.overflowing_single : Trace.overflowing.Single :=
  show ∀ k, 1 ≤ k → k ≤ overflowing.length → overflowing.pid k = overflowing.pid 1 by
    decide +kernel

/-- It is run in a memory of `32` frames and in one of `64`, up to its last record. -/
theorem lru_inclusion_again : ∃ (tr : Trace) (c c' : Setup)
    (s₀ s s₀' s' : Sim Policy.lru.replace) (ts ts' : _), c.text = tr.text ∧ c'.text = tr.text ∧
      c.frames = 32 ∧ c'.frames = 64 ∧ (c.machine Policy.lru.replace).Returns s₀ ts s ∧
      (c'.machine Policy.lru.replace).Returns s₀' ts' s' ∧ s'.stat.tpi ≤ s.stat.tpi ∧
      ∃ t ∈ ts, ∃ t' ∈ ts', ∃ r r', t.lbl = .hit r ∧ t'.lbl = .hit r' ∧ r.line = 36 ∧
        r'.line = 36 ∧ t.src.residentPages ⊆ t'.src.residentPages := by
  let c := Setup.debug 2 32 Trace.overflowing.text (by decide) (by decide)
  let c' := Setup.debug 2 64 Trace.overflowing.text (by decide) (by decide)
  obtain ⟨hret, hret', hall⟩ := lru_inclusion .overflowing Trace.overflowing_single c c' rfl rfl
    ⟨1, rfl⟩ ⟨2, rfl⟩ (by decide)
  obtain ⟨s₀, ts, s, h₀, h⟩ := hret (Setup.debug_blank _ _)
  obtain ⟨s₀', ts', s', h₀', h'⟩ := hret' (Setup.debug_blank _ _)
  obtain ⟨hsub, hdone⟩ := hall s₀ ts s s₀' ts' s' h₀ h.1 h₀' h'.1
  obtain ⟨htpi, hhit⟩ := hdone h.2 h'.2
  obtain ⟨t, ht, t', ht', r, r', hr, hr', hline, hline'⟩ := hhit 36 (by decide) (by decide)
  exact ⟨_, c, c', s₀, s, s₀', s', ts, ts', rfl, rfl, rfl, rfl, h, h', htpi, t, ht, t', ht', r, r',
    hr, hr', hline, hline', (hsub t ht t' ht' r r' hr hr' (hline.trans hline'.symm)).1⟩

end Pfsim
