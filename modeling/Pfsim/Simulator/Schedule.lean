import Mathlib.Data.List.GetD
import Pfsim.Paging.Fifo
import Pfsim.Paging.Lru
import Pfsim.Simulator.Accounting
import Pfsim.Simulator.Sweep

/-!
# Runs as schedules

A run of the simulator serves its hits, in the sense of `Paging.Serves`: a page hit is in
memory, and pages are brought in one at a time, by the I/Os. So what holds of any way to
serve a sequence of references holds of the run, whatever the replacement module, the
processes and the trace file.

* `serves_hits`: this, the pages being known by process and page numbers;
* `faults_bound`: thus the faults of a run are at least as many as the pages it hits, and
  bound those of any conservative policy, on the same references and with a memory which is
  not smaller.
-/

namespace Pfsim

namespace Sim

variable {R : ReplaceModule} {c : Setup} {s s' u : Sim R} {e : Event} {r : Reference} {v : PageId}

/-- The process number and the page number of a virtual page. -/
def name (s : Sim R) (v : PageId) : ℕ × ℕ :=
  ((s.pager.mem.vpages v).pid, (s.pager.mem.vpages v).vpn)

/-- The pages in memory, by their process and page numbers. -/
def residents (s : Sim R) : Finset (ℕ × ℕ) :=
  (Finset.range s.pager.mem.memSize).biUnion fun i =>
    (s.pager.mem.memory i).elim ∅ fun v => {s.name v}

theorem card_residents_le (s : Sim R) : s.residents.card ≤ s.pager.mem.memSize := by
  refine Finset.card_biUnion_le.trans ((Finset.sum_le_card_nsmul _ _ 1 fun i _ => ?_).trans ?_)
  · cases s.pager.mem.memory i <;> simp
  · rw [Finset.card_range, smul_eq_mul, Nat.mul_one]

variable [R.Lawful]

theorem WellFormed.mem_residents (hs : s.WellFormed c) {k : ℕ × ℕ} :
    k ∈ s.residents ↔ ∃ v, s.pager.mem.Resident v ∧ s.name v = k := by
  rw [residents, Finset.mem_biUnion]
  constructor
  · rintro ⟨i, -, hk⟩
    cases hv : s.pager.mem.memory i with
    | none => simp [hv] at hk
    | some v =>
      rw [hv, Option.elim_some, Finset.mem_singleton] at hk
      exact ⟨v, hs.pager.mem.resident hv, hk.symm⟩
  · rintro ⟨v, hv, rfl⟩
    have hmem := hs.pager.mem.memory_currentPPN hv
    refine ⟨_, Finset.mem_range.2 (hs.pager.mem.frame_lt_memSize hmem), ?_⟩
    rw [hmem, Option.elim_some, Finset.mem_singleton]

/-- Reading a line keeps the pages there are. -/
theorem Reads.name_eq (h : s.Reads c r u) (hs : s.WellFormed c)
    (hv : s.pager.mem.live v = true) : u.name v = s.name v := by
  rcases h.pages_cases with ⟨hpager, -⟩ | ⟨-, ⟨o, ho⟩, -⟩
  · rw [name, hpager]
    rfl
  · have hk := hs.pager.mem.keeps_newPage hv (s.ps.procs r.p).pid r.vpn o
    rw [name, ho, hk.pid, hk.vpn]
    rfl

/-- A page has its numbers as long as it lives. -/
theorem Move.name_eq (h : s.Move c e s') (hs : s.WellFormed c) (hv : s.pager.mem.live v = true)
    (hv' : s'.pager.mem.live v = true) : s'.name v = s.name v := by
  cases h with
  | @completion p bs w ppn victim pg rep hp hw hw' hf hl =>
    have hk := (findFrame_ok hs hf).keeps v
    change (((pg.mem.loaded w ppn).vpages v).pid, ((pg.mem.loaded w ppn).vpages v).vpn) = _
    rw [Memory.pid_loaded, Memory.vpn_loaded, hk.pid, hk.vpn]
    rfl
  | @idle b bs =>
    have hpager : (s.tick.skipped b).pager = s.pager := tick_pager
    rw [name, hpager]
    rfl
  | jump hr => exact hr.name_eq hs hv
  | next hr => exact hr.name_eq hs hv
  | miss hr => exact hr.name_eq hs hv
  | @finish r u rep pg hr hm ha hl hi hf =>
    obtain ⟨-, -, hfr⟩ := hr.freed hs hm ha hf
    have hkeep : pg.mem.vpages v = u.pager.mem.vpages v := hfr.vpages v ((hfr.live v).1 hv').2
    refine Eq.trans ?_ (hr.name_eq hs hv)
    change ((pg.mem.vpages v).pid, (pg.mem.vpages v).vpn) = _
    rw [hkeep]
    rfl

/-- A page is only brought in by an I/O. -/
theorem Move.mem_residents (h : s.Move c e s') (hs : s.WellFormed c) {k : ℕ × ℕ}
    (hk : k ∈ s'.residents) : k ∈ s.residents ∨ ∃ v, e.loaded = some v ∧ s.name v = k := by
  have hs' := h.wellFormed hs
  obtain ⟨v, hv, rfl⟩ := hs'.mem_residents.1 hk
  rcases h.memory_cases hs (hs'.pager.mem.memory_currentPPN hv) with hl | hmem
  · refine .inr ⟨v, hl, ?_⟩
    cases e with
    | completion p w ppn victim =>
      obtain rfl := Option.some.inj hl
      obtain ⟨bs, hq, -, hw, -⟩ := h.completion_blocked
      exact (h.name_eq hs (hs.awaited (hq ▸ List.mem_cons_self) hw).1 hv.1).symm
    | idle | hit | miss => cases hl
  · have hr := hs.pager.mem.resident hmem
    exact .inl (hs.mem_residents.2 ⟨v, hr, (h.name_eq hs hr.1 hv.1).symm⟩)

/-- A page hit is in memory. -/
theorem Move.hit_mem_residents (h : s.Move c (.hit r) s') (hs : s.WellFormed c) :
    ((s.ps.procs r.p).pid, r.vpn) ∈ s.residents := by
  obtain ⟨u, hu, hm⟩ : ∃ u, s.Reads c r u ∧ u.pager.mem.Resident r.v := by
    cases h with
    | jump hu hm | next hu hm | finish hu hm => exact ⟨_, hu, hm⟩
  obtain ⟨-, hpid, hvpn⟩ := hu.live hs
  obtain ⟨pt, hprocs⟩ := hu.procs r.p
  have hpager := (hu.pager_of_resident hs hm).1
  refine hs.mem_residents.2 ⟨r.v, hpager ▸ hm, ?_⟩
  rw [name, ← hpager, hvpn, hpid, hprocs]

end Sim

/-! ## Runs -/

section Runs

variable {R : ReplaceModule} {c : Setup} {s s₀ : Sim R}
  {ts : List (Machine.Transition (Sim R) Event)}

/-- The process number and the page number of a hit. -/
def pageHit (t : Machine.Transition (Sim R) Event) : Option (ℕ × ℕ) :=
  match t.lbl with
  | .hit r => some ((t.src.ps.procs r.p).pid, r.vpn)
  | _ => none

/-- The pages hit, in order. -/
def pagesHit (ts : List (Machine.Transition (Sim R) Event)) : List (ℕ × ℕ) :=
  ts.filterMap pageHit

/-- The pages loaded, in order. -/
def pagesLoaded (ts : List (Machine.Transition (Sim R) Event)) : List PageId :=
  ts.filterMap fun t => t.lbl.loaded

/-- The pages hit, from the first one, as references. -/
def hitAt (ts : List (Machine.Transition (Sim R) Event)) (k : ℕ) : ℕ × ℕ :=
  (pagesHit ts).getD k (0, 0)

theorem pagesHit_append (ts us : List (Machine.Transition (Sim R) Event)) :
    pagesHit (ts ++ us) = pagesHit ts ++ pagesHit us := List.filterMap_append

theorem pagesLoaded_append (ts us : List (Machine.Transition (Sim R) Event)) :
    pagesLoaded (ts ++ us) = pagesLoaded ts ++ pagesLoaded us := List.filterMap_append

theorem hitAt_append {us : List (Machine.Transition (Sim R) Event)} {k : ℕ}
    (hk : k < (pagesHit ts).length) : hitAt (ts ++ us) k = hitAt ts k := by
  rw [hitAt, pagesHit_append, List.getD_append _ _ _ _ hk, hitAt]

variable [R.Lawful]

/-- A run serves its hits, with the frames of the memory. -/
theorem serves_hits (h₀ : c.start R = .ok s₀) (h : (c.machine R).Run s₀ ts s) :
    Paging.Serves c.frames (hitAt ts) (pagesHit ts).length s.residents (pagesLoaded ts).length := by
  refine Setup.run_invariant (J := fun ts s => Paging.Serves c.frames (hitAt ts)
    (pagesHit ts).length s.residents (pagesLoaded ts).length) h₀ h ?_ fun ts s e s' hr hj hm => ?_
  · obtain ⟨ps, -, rfl⟩ := Setup.start_eq h₀
    refine Paging.Serves.start.drop fun k hk => ?_
    simp [Sim.residents, Sim.init, Pager.init, Memory.init] at hk
  have hs := hr.wellFormed
  have hj' : Paging.Serves c.frames (hitAt (ts ++ [⟨s, e, s'⟩])) (pagesHit ts).length s.residents
      (pagesLoaded ts).length := hj.congr fun j hlt => hitAt_append hlt
  rw [pagesHit_append, List.length_append, pagesLoaded_append, List.length_append]
  cases e with
  | completion p v ppn victim =>
    refine hj'.load (v := s.name v) (fun k hk => ?_) ?_
    · rcases hm.mem_residents hs hk with hk | ⟨w, hw, rfl⟩
      · exact Finset.mem_insert_of_mem hk
      · exact Option.some.inj hw ▸ Finset.mem_insert_self ..
    · exact (hm.wellFormed hs).memSize ▸ s'.card_residents_le
  | idle | miss =>
    exact hj'.drop fun k hk => (hm.mem_residents hs hk).resolve_right (by simp [Event.loaded])
  | hit r =>
    have hself : hitAt (ts ++ [⟨s, .hit r, s'⟩]) (pagesHit ts).length =
        ((s.ps.procs r.p).pid, r.vpn) := by
      rw [hitAt, pagesHit_append, List.getD_append_right _ _ _ _ le_rfl, Nat.sub_self]
      rfl
    refine (hj'.hit (hself ▸ hm.hit_mem_residents hs)).drop fun k hk => ?_
    exact (hm.mem_residents hs hk).resolve_right (by simp [Event.loaded])

/-- The pages loaded and those waited for are the faults. -/
theorem length_pagesLoaded (h₀ : c.start R = .ok s₀) (h : (c.machine R).Run s₀ ts s) :
    (pagesLoaded ts).length + (s.ps.pq .BLOCKED).length = s.stat.tpi := by
  refine Setup.run_invariant (J := fun ts s => (pagesLoaded ts).length +
    (s.ps.pq .BLOCKED).length = s.stat.tpi) h₀ h ?_ fun ts s e s' hr hj hm => ?_
  · obtain ⟨ps, hp, rfl⟩ := Setup.start_eq h₀
    obtain ⟨n, -, -, hi⟩ := firstPass_indexed hp
    have hb : (Sim.init R c ps).ps.pq .BLOCKED = [] := hi.blocked
    rw [hb]
    rfl
  rw [pagesLoaded_append, List.length_append, hm.tmr_tpi.2]
  cases e with
  | completion p v ppn victim =>
    obtain ⟨bs, hq, -, -, hq'⟩ := hm.completion_blocked
    rw [hq, List.length_cons] at hj
    rw [hq', ← hj, Nat.add_right_comm]
    rfl
  | idle =>
    obtain ⟨-, -, -, -, -, hq⟩ := hm.idle_blocked
    rw [hq]
    exact hj
  | hit r =>
    rw [hm.hit_blocked]
    exact hj
  | miss r =>
    rw [hm.miss_blocked.1, List.length_append]
    exact congrArg (· + 1) hj

/-- Each reference run is a hit. -/
theorem length_pagesHit (h₀ : c.start R = .ok s₀) (h : (c.machine R).Run s₀ ts s) :
    (pagesHit ts).length = s.stat.tmr := by
  refine Setup.run_invariant (J := fun ts s => (pagesHit ts).length = s.stat.tmr) h₀ h ?_
    fun ts s e s' hr hj hm => ?_
  · obtain ⟨ps, -, rfl⟩ := Setup.start_eq h₀
    rfl
  · rw [pagesHit_append, List.length_append, hj, hm.tmr_tpi.1]
    cases e <;> rfl

omit [R.Lawful] in
theorem pages_hitAt (ts : List (Machine.Transition (Sim R) Event)) :
    Paging.pages (hitAt ts) 0 (pagesHit ts).length = (pagesHit ts).toFinset := by
  ext k
  rw [Paging.mem_pages, List.mem_toFinset]
  constructor
  · rintro ⟨j, -, hj, rfl⟩
    rw [hitAt, List.getD_eq_getElem _ _ hj]
    exact List.getElem_mem hj
  · intro hk
    obtain ⟨j, hj, rfl⟩ := List.getElem_of_mem hk
    exact ⟨j, j.zero_le, hj, List.getD_eq_getElem _ _ hj⟩

/-- The faults are at least those of loading pages. -/
theorem length_pagesLoaded_le (h₀ : c.start R = .ok s₀) (h : (c.machine R).Run s₀ ts s) :
    (pagesLoaded ts).length ≤ s.stat.tpi :=
  (length_pagesLoaded h₀ h).symm ▸ Nat.le_add_right _ _

/-- A run against a conservative policy, on the pages it hits. -/
theorem conservative_le {F : ℕ → ℕ} {m : ℕ} (hm : c.frames ≤ m)
    (hF : Paging.Conservative m (hitAt ts) F) (h₀ : c.start R = .ok s₀)
    (h : (c.machine R).Run s₀ ts s) : (m + 1 - c.frames) * F s.stat.tmr ≤ m * s.stat.tpi := by
  have hs := serves_hits h₀ h
  rw [length_pagesHit h₀ h] at hs
  exact (hF.competitive c.frames_pos hm hs).trans
    (Nat.mul_le_mul_left m (length_pagesLoaded_le h₀ h))

end Runs

/-- In any run, with any policy, the page faults are at least the distinct pages hit; and
    they are at least `(m + 1 - frames) / m` times those LRU or FIFO would have with `m`
    frames, if these are not fewer, on the sequence of pages the run hits. -/
theorem faults_bound (c : Setup) (π : Policy) {s₀ s : Sim π.replace}
    {ts : List (Machine.Transition (Sim π.replace) Event)} (h₀ : c.start π.replace = .ok s₀)
    (h : (c.machine π.replace).Run s₀ ts s) :
    (pagesHit ts).length = s.stat.tmr ∧ (pagesHit ts).toFinset.card ≤ s.stat.tpi ∧
      ∀ m, c.frames ≤ m →
        (m + 1 - c.frames) * LruStack.misses m (hitAt ts) s.stat.tmr ≤ m * s.stat.tpi ∧
        (m + 1 - c.frames) * (Paging.fifo m).faults (hitAt ts) s.stat.tmr ≤ m * s.stat.tpi := by
  refine ⟨length_pagesHit h₀ h, ?_, fun m hm => ⟨?_, ?_⟩⟩
  · rw [← pages_hitAt]
    exact (serves_hits h₀ h).compulsory.trans (length_pagesLoaded_le h₀ h)
  · exact conservative_le hm (LruStack.conservative_misses m _) h₀ h
  · exact conservative_le hm (Paging.conservative_fifo m _) h₀ h

/-- A whole run, in which two processes hit three pages. -/
theorem faults_bound_sample : ∃ (s₀ : Sim Policy.clock.replace) (ts : _) (s : _),
    Setup.sample.start Policy.clock.replace = .ok s₀ ∧
      (Setup.sample.machine Policy.clock.replace).Returns s₀ ts s ∧
      (pagesHit ts).length = 3 ∧ (pagesHit ts).toFinset.card ≤ 3 ∧
      (64 + 1 - 32) * LruStack.misses 64 (hitAt ts) 3 ≤ 64 * 3 := by
  obtain ⟨s₀, ts, s, h₀, h, -, hP⟩ := Setup.exists_run_of_after (c := .sample)
    (R := Policy.clock.replace) (n := 10) (P := fun s => !s.notDone && s.stat.tpi == 3 &&
      s.stat.tmr == 3) (by decide +kernel)
  obtain ⟨⟨hdone, htpi⟩, htmr⟩ : (s.notDone = false ∧ s.stat.tpi = 3) ∧ s.stat.tmr = 3 := by
    simpa using hP
  obtain ⟨hlen, hcard, hm⟩ := faults_bound .sample .clock h₀ h
  rw [htmr, htpi] at hm
  exact ⟨s₀, ts, s, h₀, ⟨h, hdone⟩, hlen.trans htmr, htpi ▸ hcard, (hm 64 (by decide)).1⟩

end Pfsim
