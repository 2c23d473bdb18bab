import Pfsim.Simulator.Position
import Pfsim.Simulator.Unfilled

/-!
# Cold misses

A page is made by the first reference of its process to it, which is a miss, and never again
(`Sim.Move.tables`). So page tables hold the pages missed so far, and the pages made are as
many.

* `cold_misses`: in any run, the pages referenced are those missed, as many as the pages made,
  and there are at least as many faults; and no more if there are not more than frames.
-/

namespace Pfsim

/-- The page of a reference, by its process and its number there. -/
def Reference.page (r : Reference) : ProcId × ℕ := (r.p, r.vpn)

/-- The page referenced, if it is a miss. -/
def Event.pageMissed : Event → Option (ProcId × ℕ)
  | miss r => some r.page
  | _ => none

variable {R : ReplaceModule} [R.Lawful] {c : Setup} {s s' u s₀ : Sim R} {e : Event}
  {r : Reference} {ts us : List (Machine.Transition (Sim R) Event)}

namespace Sim

/-- The numbers of the pages of the process `p`. -/
def keys (s : Sim R) (p : ProcId) : List ℕ := (s.ps.procs p).pageTable.map Prod.fst

omit [R.Lawful] in
/-- The page referenced has an entry then. -/
theorem Reads.mem_keys (h : s.Reads c r u) : r.vpn ∈ u.keys r.p :=
  List.mem_map_of_mem (PageTable.mem_of_get h.page)

/-- What a reference does to the page tables: it makes its page if there is none. -/
theorem Reads.tables (h : s.Reads c r u) (hs : s.WellFormed c) :
    (u.pager = s.pager ∧ (∀ q, u.keys q = s.keys q) ∧ r.vpn ∈ s.keys r.p) ∨
    (u.pager.mem.nextPage = s.pager.mem.nextPage + 1 ∧ r.vpn ∉ s.keys r.p ∧
      u.keys r.p = s.keys r.p ++ [r.vpn] ∧ ∀ q ≠ r.p, u.keys q = s.keys q) := by
  rcases h.pages_cases with ⟨hpager, hsame⟩ | ⟨-, ⟨o, ho⟩, hself, hothers⟩
  · have hkeys (q : ProcId) : u.keys q = s.keys q := congrArg (List.map Prod.fst) (hsame q)
    exact .inl ⟨hpager, hkeys, hkeys r.p ▸ h.mem_keys⟩
  · have hkeys : u.keys r.p = s.keys r.p ++ [r.vpn] := by
      rw [keys, hself, List.map_append]
      rfl
    -- No number is there twice.
    have hnd : (u.keys r.p).Nodup :=
      ((h.wellFormed hs).settled (h.lt hs)).keys (by simp [h.runnable hs])
    rw [hkeys] at hnd
    refine .inr ⟨congrArg Memory.nextPage ho, fun hmem => ?_, hkeys, fun q hq =>
      congrArg (List.map Prod.fst) (hothers q hq)⟩
    exact List.disjoint_of_nodup_append hnd hmem (List.mem_singleton_self _)

omit [R.Lawful] in
/-- Changing only one process, and not its page table. -/
theorem keys_of_procs {p : ProcId} {P : Process}
    (hprocs : ∀ q, s'.ps.procs q = if q = p then P else u.ps.procs q)
    (ht : P.pageTable = (u.ps.procs p).pageTable) (q : ProcId) : s'.keys q = u.keys q := by
  rw [keys, keys, hprocs]
  split
  · next hq => rw [ht, hq]
  · rfl

omit [R.Lawful] in
theorem keys_tick (q : ProcId) : s.tick.keys q = s.keys q := by
  rw [keys, keys, tick_procs]

/-- A page is made by a miss, the first reference to it. -/
theorem Move.tables (h : s.Move c e s') (hs : s.WellFormed c) :
    (s'.pager.mem.nextPage = s.pager.mem.nextPage ∧ (∀ q, s'.keys q = s.keys q) ∧
      ∀ r, e.reference = some r → r.vpn ∈ s.keys r.p) ∨
    ∃ r, e = .miss r ∧ s'.pager.mem.nextPage = s.pager.mem.nextPage + 1 ∧ r.vpn ∉ s.keys r.p ∧
      s'.keys r.p = s.keys r.p ++ [r.vpn] ∧ ∀ q ≠ r.p, s'.keys q = s.keys q := by
  -- A page hit was there before.
  have hhit {r : Reference} {u : Sim R} (hr : s.Reads c r u) (hm : u.pager.mem.Resident r.v) :
      u.pager.mem.nextPage = s.pager.mem.nextPage ∧ (∀ q, u.keys q = s.keys q) ∧
        ∀ r', (Event.hit r).reference = some r' → r'.vpn ∈ s.keys r'.p := by
    obtain ⟨hpager, htables⟩ := hr.pager_of_resident hs hm
    have hkeys (q : ProcId) : u.keys q = s.keys q := congrArg (List.map Prod.fst) (htables q)
    refine ⟨congrArg (·.mem.nextPage) hpager, hkeys, fun r' he => ?_⟩
    obtain rfl := Option.some.inj he
    exact hkeys r.p ▸ hr.mem_keys
  cases h with
  | @completion q bs v ppn victim pg rep hb hw hv hf hl =>
    have hnext : pg.mem.nextPage = s.pager.mem.nextPage := by
      rcases (findFrame_ok hs hf).cases with ⟨-, -, rfl⟩ | ⟨-, w, -, -, he⟩
      · rfl
      · rw [he]
        rfl
    exact .inl ⟨hnext,
      fun p => (keys_of_procs (fun _ => completed_procs) rfl p).trans (keys_tick p), nofun⟩
  | @idle b bs hr hb hw =>
    exact .inl ⟨congrArg (·.mem.nextPage) (tick_pager (s := s)),
      fun p => (keys_of_procs (fun _ => skipped_procs) rfl p).trans (keys_tick p), nofun⟩
  | @jump r u rep hr hm =>
    obtain ⟨hnext, hkeys, href⟩ := hhit hr hm
    exact .inl ⟨hnext, fun p =>
      (keys_of_procs (u := u) (fun _ => jumped_procs) rfl p).trans (hkeys p), href⟩
  | @next r u rep hr hm =>
    obtain ⟨hnext, hkeys, href⟩ := hhit hr hm
    have hprocs (q : ProcId) : ((u.accessed rep).modify r.p Process.nextLine).ps.procs q =
        if q = r.p then (u.ps.procs r.p).nextLine else u.ps.procs q := Processes.modify_procs _
    exact .inl ⟨hnext, fun p => (keys_of_procs (u := u) hprocs rfl p).trans (hkeys p), href⟩
  | @finish r u rep pg hr hm ha hl hi hf =>
    obtain ⟨hnext, hkeys, href⟩ := hhit hr hm
    have hfin (q : ProcId) : (u.finished r.p pg).keys q = u.keys q :=
      keys_of_procs (fun _ => finished_procs) rfl q
    exact .inl ⟨(hr.freed hs hm ha hf).2.2.nextPage.trans hnext,
      fun p => (hfin p).trans (hkeys p), href⟩
  | @miss r u hr hm =>
    have hblocked (q : ProcId) : (u.blocked c r.p r.v r.fpos).keys q = u.keys q :=
      keys_of_procs (fun _ => blocked_procs) rfl q
    rcases hr.tables hs with ⟨hpager, hkeys, hmem⟩ | ⟨hnext, hnot, hself, hothers⟩
    · refine .inl ⟨congrArg (·.mem.nextPage) hpager, fun q => (hblocked q).trans (hkeys q),
        fun r' he => ?_⟩
      obtain rfl := Option.some.inj he
      exact hmem
    · exact .inr ⟨r, rfl, hnext, hnot, (hblocked r.p).trans hself,
        fun q hq => (hblocked q).trans (hothers q hq)⟩

/-- The pages made do not get fewer. -/
theorem Move.nextPage_le (h : s.Move c e s') (hs : s.WellFormed c) :
    s.pager.mem.nextPage ≤ s'.pager.mem.nextPage := by
  rcases h.tables hs with ⟨hnext, -⟩ | ⟨r, -, hnext, -⟩ <;> rw [hnext]
  exact Nat.le_succ _

/-- If a victim is asked for, more pages have been made than there are frames. -/
theorem AsksVictim.lt_nextPage (h : s.AsksVictim) (hs : s.WellFormed c) :
    c.frames < s.pager.mem.nextPage := by
  obtain ⟨hdue, hfull⟩ := h
  rw [tick_pager] at hfull
  obtain ⟨q, bs, hq⟩ := exists_blocked_of_ioDue hdue
  obtain ⟨v, hv⟩ := hs.exists_awaited (hq ▸ List.mem_cons_self)
  have hm := hs.pager.mem
  obtain ⟨hlive, -, hnot⟩ := hs.awaited (hq ▸ List.mem_cons_self) hv
  -- The pages in memory are distinct, and the page awaited is not one of them.
  have hcard : (Finset.range s.pager.mem.memSize).card ≤
      ((Finset.range s.pager.mem.nextPage).erase v).card := by
    refine Finset.card_le_card_of_injOn (fun i => (s.pager.mem.memory i).getD 0) ?_ ?_
    · intro i hi
      obtain ⟨w, hw⟩ := hm.full hfull (Finset.mem_range.1 hi)
      have hres := hm.resident hw
      simp only [hw, Option.getD_some, Finset.coe_erase, Set.mem_sdiff, Finset.mem_coe,
        Finset.mem_range, Set.mem_singleton_iff]
      exact ⟨hm.lt_nextPage hres.1, fun hwv => hnot (hwv ▸ hres)⟩
    · intro i hi j hj hij
      obtain ⟨w, hw⟩ := hm.full hfull (Finset.mem_range.1 hi)
      obtain ⟨w', hw'⟩ := hm.full hfull (Finset.mem_range.1 hj)
      obtain rfl : w = w' := by simpa [hw, hw'] using hij
      exact ((hm.memory_iff.1 hw).2).symm.trans (hm.memory_iff.1 hw').2
  rw [Finset.card_range, Finset.card_erase_of_mem (Finset.mem_range.2 (hm.lt_nextPage hlive)),
    Finset.card_range, hs.memSize] at hcard
  exact Nat.lt_of_le_pred (Nat.zero_lt_of_lt (hm.lt_nextPage hlive)) hcard

end Sim

/-! ## Whole runs -/

/-- The pages missed in a run. -/
def pagesMissed (ts : List (Machine.Transition (Sim R) Event)) : List (ProcId × ℕ) :=
  ts.filterMap fun t => t.lbl.pageMissed

/-- The pages referenced in a run. -/
def pagesReferenced (ts : List (Machine.Transition (Sim R) Event)) : List (ProcId × ℕ) :=
  ts.filterMap fun t => t.lbl.reference.map Reference.page

omit [R.Lawful] in
theorem pagesMissed_append (ts us : List (Machine.Transition (Sim R) Event)) :
    pagesMissed (ts ++ us) = pagesMissed ts ++ pagesMissed us := List.filterMap_append

omit [R.Lawful] in
theorem pagesReferenced_append (ts us : List (Machine.Transition (Sim R) Event)) :
    pagesReferenced (ts ++ us) = pagesReferenced ts ++ pagesReferenced us := List.filterMap_append

/-- Each page missed is a fault. -/
theorem length_pagesMissed (h₀ : c.start R = .ok s₀) (h : (c.machine R).Run s₀ ts s) :
    (pagesMissed ts).length = s.stat.tpi := by
  refine Setup.run_invariant (J := fun ts s => (pagesMissed ts).length = s.stat.tpi) h₀ h ?_
    fun ts s e s' hr hj hm => ?_
  · obtain ⟨ps, -, rfl⟩ := Setup.start_eq h₀
    rfl
  · rw [pagesMissed_append, List.length_append, hj, hm.tmr_tpi.2]
    cases e <;> rfl

/-- The page tables have the pages missed so far, those referenced. -/
structure Tabled (ts : List (Machine.Transition (Sim R) Event)) (s : Sim R) : Prop where
  mem_keys : ∀ p < s.ps.nextProc, ∀ n, n ∈ s.keys p ↔ (p, n) ∈ pagesMissed ts
  nextPage : s.pager.mem.nextPage = (pagesMissed ts).toFinset.card
  referenced : (pagesReferenced ts).toFinset = (pagesMissed ts).toFinset

omit [R.Lawful] in
theorem mem_pagesMissed_concat {t : Machine.Transition (Sim R) Event} {pg : ProcId × ℕ} :
    pg ∈ pagesMissed (ts ++ [t]) ↔ pg ∈ pagesMissed ts ∨ t.lbl.pageMissed = some pg := by
  rw [pagesMissed_append, List.mem_append]
  cases he : t.lbl.pageMissed <;> simp [pagesMissed, he, eq_comm]

omit [R.Lawful] in
theorem mem_pagesReferenced_concat {t : Machine.Transition (Sim R) Event} {pg : ProcId × ℕ} :
    pg ∈ pagesReferenced (ts ++ [t]) ↔
      pg ∈ pagesReferenced ts ∨ t.lbl.reference.map Reference.page = some pg := by
  rw [pagesReferenced_append, List.mem_append]
  cases he : t.lbl.reference <;> simp [pagesReferenced, he, eq_comm]

omit [R.Lawful] in
/-- The page of a reference has been missed, if it has an entry. -/
theorem Tabled.mem_pagesMissed (h : Tabled ts s) (hp : r.p < s.ps.nextProc)
    (hr : r.vpn ∈ s.keys r.p) : r.page ∈ pagesMissed ts := (h.mem_keys r.p hp r.vpn).1 hr

omit [R.Lawful] in
/-- An iteration which makes no page: that of its reference, if any, has been missed. -/
theorem Tabled.keep (h : Tabled ts s) (hn : s'.ps.nextProc = s.ps.nextProc)
    (hnext : s'.pager.mem.nextPage = s.pager.mem.nextPage) (hkeys : ∀ q, s'.keys q = s.keys q)
    (hmem : ∀ r, e.reference = some r → r.page ∈ pagesMissed ts) :
    Tabled (ts ++ [⟨s, e, s'⟩]) s' := by
  have hsame : ∀ pg, e.pageMissed = some pg → pg ∈ pagesMissed ts := fun pg he => by
    cases e with
    | completion | idle | hit => cases he
    | miss r => exact Option.some.inj he ▸ hmem r rfl
  have hset : (pagesMissed (ts ++ [⟨s, e, s'⟩])).toFinset = (pagesMissed ts).toFinset := by
    ext pg
    rw [List.mem_toFinset, List.mem_toFinset, mem_pagesMissed_concat]
    exact or_iff_left_of_imp (hsame pg)
  refine ⟨fun p hp n => ?_, hnext.trans (hset ▸ h.nextPage), ?_⟩
  · rw [hkeys, h.mem_keys p (hn ▸ hp), mem_pagesMissed_concat]
    exact (or_iff_left_of_imp (hsame _)).symm
  · rw [hset, ← h.referenced]
    ext pg
    rw [List.mem_toFinset, List.mem_toFinset, mem_pagesReferenced_concat]
    refine or_iff_left_of_imp fun he => ?_
    obtain ⟨r, hr, rfl⟩ := Option.map_eq_some_iff.1 he
    rw [← List.mem_toFinset, h.referenced, List.mem_toFinset]
    exact hmem r hr

omit [R.Lawful] in
/-- A miss which makes its page: it had not been missed before. -/
theorem Tabled.make (h : Tabled ts s) (hn : s'.ps.nextProc = s.ps.nextProc)
    (hlt : r.p < s.ps.nextProc) (hnext : s'.pager.mem.nextPage = s.pager.mem.nextPage + 1)
    (hnot : r.vpn ∉ s.keys r.p) (hself : s'.keys r.p = s.keys r.p ++ [r.vpn])
    (hothers : ∀ q ≠ r.p, s'.keys q = s.keys q) :
    Tabled (ts ++ [⟨s, .miss r, s'⟩]) s' := by
  have hnew : r.page ∉ pagesMissed ts := fun hmem => hnot ((h.mem_keys _ hlt _).2 hmem)
  have hset : (pagesMissed (ts ++ [⟨s, .miss r, s'⟩])).toFinset =
      insert r.page (pagesMissed ts).toFinset := by
    ext pg
    rw [List.mem_toFinset, Finset.mem_insert, List.mem_toFinset, mem_pagesMissed_concat, or_comm]
    exact or_congr_left (by rw [Event.pageMissed, Option.some_inj, eq_comm])
  refine ⟨fun p hp n => ?_, ?_, ?_⟩
  · rw [mem_pagesMissed_concat, ← h.mem_keys p (hn ▸ hp)]
    by_cases hpr : p = r.p
    · subst hpr
      rw [hself, List.mem_append, List.mem_singleton]
      exact or_congr_right (by simp [Event.pageMissed, Reference.page, eq_comm])
    · rw [hothers p hpr]
      refine (or_iff_left_of_imp fun he => ?_).symm
      exact absurd (congrArg Prod.fst (Option.some.inj he)).symm hpr
  · rw [hset, Finset.card_insert_of_notMem (by simpa using hnew), hnext, h.nextPage]
  · ext pg
    rw [hset, List.mem_toFinset, mem_pagesReferenced_concat, Finset.mem_insert, ← h.referenced,
      List.mem_toFinset, or_comm]
    exact or_congr_left (by simp [Event.reference, eq_comm])

theorem tabled_of_run (h₀ : c.start R = .ok s₀) (h : (c.machine R).Run s₀ ts s) :
    Tabled ts s := by
  refine Setup.run_invariant (J := Tabled) h₀ h ?_ fun ts s e s' hr hj hm => ?_
  · obtain ⟨ps, hp, rfl⟩ := Setup.start_eq h₀
    obtain ⟨n, -, -, hi⟩ := firstPass_indexed hp
    refine ⟨fun p hp n => ?_, rfl, rfl⟩
    have hempty : (ps.procs p).pageTable = [] := (hi.fresh hp).pageTable
    change n ∈ (ps.procs p).pageTable.map Prod.fst ↔ _
    rw [hempty]
    simp [pagesMissed]
  · have hs := hr.wellFormed
    have hlt {r : Reference} (he : e.reference = some r) : r.p < s.ps.nextProc := by
      obtain ⟨u, hu⟩ := hm.reads he
      exact lt_of_lt_of_eq (hu.lt hs) hu.nextProc
    rcases hm.tables hs with ⟨hnext, hkeys, hmem⟩ | ⟨r, rfl, hnext, hnot, hself, hothers⟩
    · exact hj.keep hm.nextProc hnext hkeys fun r he => hj.mem_pagesMissed (hlt he) (hmem r he)
    · exact hj.make hm.nextProc (hlt rfl) hnext hnot hself hothers

theorem nextPage_le_of_mem (h₀ : c.start R = .ok s₀) (h : (c.machine R).Run s₀ ts s) :
    ∀ t ∈ ts, t.src.pager.mem.nextPage ≤ s.pager.mem.nextPage := by
  refine Setup.run_invariant (J := fun ts s => ∀ t ∈ ts,
    t.src.pager.mem.nextPage ≤ s.pager.mem.nextPage) h₀ h nofun fun ts s e s' hr hj hm t ht => ?_
  have hle := hm.nextPage_le hr.wellFormed
  rcases List.mem_append.1 ht with ht | ht
  · exact (hj t ht).trans hle
  · obtain rfl := List.mem_singleton.1 ht
    exact hle

/-- In any run, with any policy, the pages referenced are the pages missed, each of which has
    been made once, so that there are at least as many page faults. If there are not
    more of them than frames, there are as many page faults as pages, and no page is ever
    evicted. -/
theorem cold_misses (c : Setup) (π : Policy) {s₀ s : Sim π.replace}
    {ts : List (Machine.Transition (Sim π.replace) Event)} (h₀ : c.start π.replace = .ok s₀)
    (h : (c.machine π.replace).Run s₀ ts s) :
    (pagesReferenced ts).toFinset = (pagesMissed ts).toFinset ∧
      s.pager.mem.nextPage = (pagesReferenced ts).toFinset.card ∧
      (pagesReferenced ts).toFinset.card ≤ s.stat.tpi ∧
      ((pagesReferenced ts).toFinset.card ≤ c.frames →
        s.stat.tpi = (pagesReferenced ts).toFinset.card ∧ ∀ t ∈ ts, ¬t.src.AsksVictim) := by
  have ht := tabled_of_run h₀ h
  have hmade : s.pager.mem.nextPage = (pagesReferenced ts).toFinset.card :=
    ht.referenced ▸ ht.nextPage
  refine ⟨ht.referenced, hmade, ?_, fun hle => ?_⟩
  · rw [ht.referenced, ← length_pagesMissed h₀ h]
    exact (pagesMissed ts).toFinset_card_le
  · have hask : ∀ t ∈ ts, ¬t.src.AsksVictim := by
      intro t hmem hvictim
      have hlt := hvictim.lt_nextPage (Setup.move_of_mem h₀ h hmem).1.wellFormed
      exact absurd (hlt.trans_le (nextPage_le_of_mem h₀ h t hmem)) (by rw [hmade]; exact hle.not_gt)
    exact ⟨(Setup.missed_eq h₀ h hask).2.1.trans hmade, hask⟩

/-- The sample, with random replacement: its three pages are made, and each is missed once. -/
theorem cold_misses_sample : ∃ (s₀ : Sim (Policy.random id).replace) (ts : _) (s : _),
    Setup.sample.start (Policy.random id).replace = .ok s₀ ∧
      (Setup.sample.machine (Policy.random id).replace).Returns s₀ ts s ∧
      (pagesReferenced ts).toFinset.card = 3 ∧ s.stat.tpi = 3 := by
  obtain ⟨s₀, ts, s, h₀, h, -, hP⟩ := Setup.exists_run_of_after (c := .sample)
    (R := (Policy.random id).replace) (n := 10) (P := fun s => !s.notDone &&
      s.pager.mem.nextPage == 3) (by decide +kernel)
  obtain ⟨hdone, hnext⟩ : s.notDone = false ∧ s.pager.mem.nextPage = 3 := by simpa using hP
  obtain ⟨-, hmade, -, hfits⟩ := cold_misses .sample (.random id) h₀ h
  have hcard : (pagesReferenced ts).toFinset.card = 3 := hmade.symm.trans hnext
  exact ⟨s₀, ts, s, h₀, ⟨h, hdone⟩, hcard, ((hfits (hcard.trans_le (by decide))).1).trans hcard⟩

end Pfsim
