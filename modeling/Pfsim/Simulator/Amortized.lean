import Pfsim.Simulator.Schedule
import Pfsim.Simulator.Unfilled
import Pfsim.Simulator.Victims

/-!
# The sweep, amortized

A single sweep of the clock may go over all frames. But it clears a bit at each turn, and a
bit is only set by a hit or a load: the bits which are set pay for the sweeps to come
(`Machine.Run.amortized`).

* `clock_amortized`: so in any run, all the sweeps together take at most as many turns as there
  are references.
-/

namespace Pfsim

namespace Clock

variable {c : Clock} {i : ℕ}

/-- The bit of the frame `i` is set. -/
def touch (c : Clock) (i : ℕ) : Clock :=
  { c with shadowMemReflist := Function.update c.shadowMemReflist i (some true) }

theorem card_referenced_touch : (c.touch i).referenced.card ≤ c.referenced.card + 1 := by
  refine (Finset.card_le_card fun j hj => ?_).trans (Finset.card_insert_le i _)
  obtain ⟨hj, hbit⟩ := Finset.mem_filter.1 hj
  rw [Finset.mem_insert]
  refine or_iff_not_imp_left.2 fun hne => Finset.mem_filter.2 ⟨hj, ?_⟩
  exact (Function.update_of_ne hne _ _).symm.trans hbit

theorem mem_referenced : i ∈ c.referenced ↔ i < c.numPages ∧ c.shadowMemReflist i = some true := by
  rw [referenced, Finset.mem_filter, Finset.mem_range]

/-- A sweep clears as many bits as it takes turns. -/
theorem turns_add_referenced (hhand : c.clockHand < c.numPages) :
    c.turns + (c.swept c.turns).referenced.card ≤ c.referenced.card := by
  have hinj : Set.InjOn c.frame (Finset.range c.turns) := fun i hi j hj =>
    frame_inj ((Finset.mem_range.1 hi).trans_le turns_le)
      ((Finset.mem_range.1 hj).trans_le turns_le)
  have hcleared : ∀ {i}, i ∈ (c.swept c.turns).referenced →
      (¬∃ j < c.turns, c.frame j = i) ∧ i ∈ c.referenced := by
    intro i hi
    obtain ⟨hlt, hbit⟩ := mem_referenced.1 hi
    simp only [swept] at hbit
    split at hbit
    · cases hbit
    · next hnot => exact ⟨hnot, mem_referenced.2 ⟨hlt, hbit⟩⟩
  have hdisj : Disjoint ((Finset.range c.turns).image c.frame) (c.swept c.turns).referenced := by
    refine Finset.disjoint_left.2 fun i hi hi' => (hcleared hi').1 ?_
    obtain ⟨j, hj, he⟩ := Finset.mem_image.1 hi
    exact ⟨j, Finset.mem_range.1 hj, he⟩
  have hcard : ((Finset.range c.turns).image c.frame).card = c.turns := by
    rw [Finset.card_image_of_injOn hinj, Finset.card_range]
  refine (congrArg (· + _) hcard.symm).trans_le ?_
  rw [← Finset.card_union_of_disjoint hdisj]
  refine Finset.card_le_card (Finset.union_subset (fun i hi => ?_) fun i hi => (hcleared hi).2)
  obtain ⟨j, hj, rfl⟩ := Finset.mem_image.1 hi
  exact mem_referenced.2 ⟨frame_lt hhand j, set_of_lt_turns (Finset.mem_range.1 hj)⟩

end Clock

namespace Sim

variable {c : Setup} {s s' u : Sim Policy.clock.replace} {e : Event} {r : Reference} {v : PageId}

/-- The state of the clock module. -/
def clock (s : Sim Policy.clock.replace) : Clock := s.pager.rep

/-- The turns the hand takes in an iteration: those of the sweep, if a victim is chosen. -/
def turns (t : Machine.Transition (Sim Policy.clock.replace) Event) : ℕ :=
  if t.lbl.evicted.isSome then t.src.clock.turns else 0

/-- The bits an iteration may set. -/
def touches (t : Machine.Transition (Sim Policy.clock.replace) Event) : ℕ :=
  t.lbl.touched.toList.length

theorem WellFormed.tracks_clock (hs : s.WellFormed c) : s.clock.Tracks s.pager.mem :=
  hs.pager.tracks

/-- Making pages is nothing to the clock. -/
theorem Reads.clock_eq (h : s.Reads c r u) : u.clock = s.clock := by
  obtain ⟨rest, -, rfl⟩ := h.scan
  have hpager : (s.tick.reading c r.p r.pid rest).pager = s.pager := tick_pager
  rw [paged, clock, clock]
  split
  · rw [hpager]
  · rw [hpager, Pager.newVPage]
    dsimp only
    split <;> rfl

/-- A hit sets a bit. -/
theorem Reads.clock_accessed {rep : Policy.clock.replace.State} (h : s.Reads c r u)
    (hs : s.WellFormed c) (hm : u.pager.mem.Resident r.v)
    (ha : Policy.clock.replace.notifyPageAccess c.ndebug u.pager.mem u.pager.rep
      (u.pager.mem.vpages r.v).overhead = .ok rep) : ∃ i, rep = s.clock.touch i := by
  rw [(h.wellFormed hs).tracks_clock.overhead r.v hm.1] at ha
  refine ⟨(u.pager.mem.vpages r.v).currentPPN, (Clock.eq_of_notifyPageAccess ha).trans ?_⟩
  exact congrArg (Clock.touch · _) h.clock_eq

/-- The clock once a frame is found. -/
theorem clock_findFrame {ppn : ℕ} {victim : Option PageId} {pg : Pager Policy.clock.replace}
    (hs : s.WellFormed c) (hf : s.findFrame c = .ok (ppn, victim, pg)) :
    pg.rep = if victim.isSome then s.clock.swept s.clock.turns else s.clock := by
  rw [findFrame] at hf
  split at hf
  · obtain ⟨ppn', -, hf⟩ := bind_eq_ok.1 hf
    obtain ⟨rfl, rfl, rfl⟩ : ppn' = ppn ∧ none = victim ∧ s.pager = pg := by simpa using hf
    rfl
  · next hfull =>
    have hfull : s.pager.mem.hasFreePage = false := by simpa using hfull
    obtain ⟨⟨ppn', rep⟩, hget, hf⟩ := bind_eq_ok.1 hf
    obtain ⟨mem, -, hf⟩ := bind_eq_ok.1 hf
    obtain ⟨rfl, rfl, rfl⟩ : ppn' = ppn ∧ s.pager.mem.memory ppn' = victim ∧ ⟨mem, rep⟩ = pg := by
      simpa using hf
    have hok := hget.symm.trans (hs.tracks_clock.getPageToEvict_eq hs.pager.mem hfull)
    obtain ⟨rfl, rfl⟩ := Prod.mk.inj (Except.ok.inj hok)
    have hlt : s.clock.frame s.clock.turns < s.pager.mem.memSize :=
      hs.tracks_clock.numPages ▸ Clock.frame_lt
        (hs.tracks_clock.numPages ▸ hs.tracks_clock.clockHand) _
    obtain ⟨v, hv⟩ := hs.pager.mem.full hfull hlt
    rw [hv]
    rfl

/-- A victim is only chosen when memory is full. -/
theorem Move.full_of_evicted (h : s.Move c e s') (hs : s.WellFormed c)
    (he : e.evicted = some v) : s.pager.mem.hasFreePage = false := by
  cases e with
  | completion q w ppn victim =>
    cases h with
    | completion hq hd hv hf hl =>
      rcases (findFrame_ok hs hf).cases with ⟨-, rfl, -⟩ | ⟨hfull, -⟩
      · cases he
      · exact hfull
  | idle | hit | miss => cases he

/-- What an iteration does to the clock: it is swept, if a victim is chosen, and then a bit is
    set, if a page is loaded or hit. -/
theorem Move.clock_cases (h : s.Move c e s') (hs : s.WellFormed c) :
    (e.touched = none ∧ e.evicted = none ∧ s'.clock = s.clock) ∨
      ∃ v i, e.touched = some v ∧ s'.clock = (if e.evicted.isSome then
        s.clock.swept s.clock.turns else s.clock).touch i := by
  cases h with
  | @completion q bs v ppn victim pg rep hq hw hv hf hl =>
    have hlive := (hs.awaited (hq ▸ List.mem_cons_self) hv).1
    have hfr := findFrame_ok hs hf
    have ht : Clock.Tracks pg.mem pg.rep := hfr.wellFormed.tracks
    rw [ht.overhead v ((hfr.keeps v).live.trans hlive)] at hl
    have hrep := Clock.eq_of_notifyPageAccess hl
    exact .inr ⟨v, _, rfl, hrep.trans (congrArg (Clock.touch · _) (clock_findFrame hs hf))⟩
  | @idle b bs hr hb hw => exact .inl ⟨rfl, rfl, congrArg Pager.rep (tick_pager (s := s))⟩
  | @jump r u rep hr hm ha =>
    obtain ⟨i, he⟩ := hr.clock_accessed hs hm ha
    exact .inr ⟨r.v, i, rfl, he⟩
  | @next r u rep hr hm ha =>
    obtain ⟨i, he⟩ := hr.clock_accessed hs hm ha
    exact .inr ⟨r.v, i, rfl, he⟩
  | @finish r u rep pg hr hm ha hl hi hf =>
    obtain ⟨i, he⟩ := hr.clock_accessed hs hm ha
    -- The clock keeps no record of the pages freed.
    obtain ⟨queue, hq⟩ := hr.head
    have hw := (hr.wellFormed hs).accessed hm ha
    have hmem : r.p ∈ (u.accessed rep).ps.pq .RUNNABLE := hr.pq ▸ hq ▸ List.mem_cons_self
    obtain ⟨hnd, hlive⟩ := hw.destroyed hmem
    have hrep := Pager.rep_of_freeAll (fun _ _ => rfl) hw.pager hnd hlive hf
    exact .inr ⟨r.v, i, rfl, hrep.trans he⟩
  | miss hr => exact .inl ⟨rfl, rfl, hr.clock_eq⟩

/-- The bits which are set pay for the turns. -/
theorem Move.turns_add_referenced (h : s.Move c e s') (hs : s.WellFormed c) :
    turns ⟨s, e, s'⟩ + s'.clock.referenced.card ≤ s.clock.referenced.card + touches ⟨s, e, s'⟩ := by
  have ht := hs.tracks_clock
  rcases h.clock_cases hs with ⟨htouched, hevicted, he⟩ | ⟨v, i, htouched, he⟩
  · simp [turns, touches, htouched, hevicted, he]
  · rw [he, touches, htouched, turns]
    refine (Nat.add_le_add_left Clock.card_referenced_touch _).trans ?_
    rw [← Nat.add_assoc]
    refine Nat.succ_le_succ ?_
    split
    · exact Clock.turns_add_referenced (ht.numPages ▸ ht.clockHand)
    · exact (Nat.zero_add _).le

end Sim

/-! ## Whole runs -/

section Runs

variable {c : Setup} {s s₀ : Sim Policy.clock.replace} {e : Event}
  {ts : List (Machine.Transition (Sim Policy.clock.replace) Event)}
  {t : Machine.Transition (Sim Policy.clock.replace) Event}

/-- The loop of the sweep takes that many turns. -/
theorem sweep_turns (h₀ : c.start Policy.clock.replace = .ok s₀)
    (h : (c.machine Policy.clock.replace).Run s₀ ts s) (ht : t ∈ ts) {w : PageId}
    (hw : t.lbl.evicted = some w) (n : ℕ) :
    (∃ k, t.src.clock.sweep n = .ok k) ↔ Sim.turns t < n := by
  obtain ⟨hr, hm⟩ := Setup.move_of_mem h₀ h ht
  have hs := hr.wellFormed
  have hfull := hm.full_of_evicted hs hw
  have htracks := hs.tracks_clock
  have hsweep := Clock.sweep_eq_swept (n := n) (htracks.numPages ▸ htracks.clockHand)
    (htracks.written_of_full hs.pager.mem hfull)
  rw [hsweep, Sim.turns, hw, Option.isSome_some, if_pos rfl]
  split
  · next hlt => exact ⟨fun _ => hlt, fun _ => ⟨_, rfl⟩⟩
  · next hlt => exact ⟨fun ⟨k, hk⟩ => (by cases hk), fun h => absurd h hlt⟩

/-- The bits set are at most as many as the hits and the loads. -/
theorem total_touches (h₀ : c.start Policy.clock.replace = .ok s₀)
    (h : (c.machine Policy.clock.replace).Run s₀ ts s) :
    Machine.total Sim.touches ts = s.stat.tmr + (pagesLoaded ts).length := by
  refine Setup.run_invariant (J := fun ts s =>
    Machine.total Sim.touches ts = s.stat.tmr + (pagesLoaded ts).length) h₀ h ?_
    fun ts s e s' hr hj hm => ?_
  · obtain ⟨ps, -, rfl⟩ := Setup.start_eq h₀
    rfl
  · rw [Machine.total_append, Machine.total_singleton, pagesLoaded_append, List.length_append,
      hm.tmr_tpi.1, hj]
    cases e with
    | completion => exact (Nat.add_assoc ..)
    | hit => exact Nat.add_right_comm ..
    | idle | miss => rfl

end Runs

/-- In any run, the sweeps of the clock together take at most as many turns as there are hits
    and page faults, less the bits which are still set. (Where a victim is chosen, the loop
    takes `Sim.turns` turns: it is over if, and only if, its condition may be evaluated once
    more.) -/
theorem clock_amortized (c : Setup) {s₀ s : Sim Policy.clock.replace}
    {ts : List (Machine.Transition (Sim Policy.clock.replace) Event)}
    (h₀ : c.start Policy.clock.replace = .ok s₀)
    (h : (c.machine Policy.clock.replace).Run s₀ ts s) :
    (∀ t ∈ ts, ∀ w, t.lbl.evicted = some w →
      ∀ n, (∃ k, t.src.clock.sweep n = .ok k) ↔ Sim.turns t < n) ∧
      Machine.total Sim.turns ts + s.clock.referenced.card ≤ s.stat.tmr + s.stat.tpi := by
  refine ⟨fun t ht w hw n => sweep_turns h₀ h ht hw n, ?_⟩
  have hamortized : Machine.total Sim.turns ts + s.clock.referenced.card ≤
      s₀.clock.referenced.card + Machine.total Sim.touches ts :=
    h.amortized (I := c.Reachable Policy.clock.replace) (fun s hs => ⟨s₀, h₀, hs⟩)
      fun s e s' hs hr hstep =>
        (Sim.move_of_step hs.wellFormed hr hstep).turns_add_referenced hs.wellFormed
  have hstart : s₀.clock.referenced.card = 0 := by
    obtain ⟨ps, -, rfl⟩ := Setup.start_eq h₀
    refine Finset.card_eq_zero.2 (Finset.filter_eq_empty_iff.2 fun i _ => ?_)
    exact nofun
  rw [hstart, Nat.zero_add, total_touches h₀ h] at hamortized
  exact hamortized.trans (Nat.add_le_add_left (length_pagesLoaded_le h₀ h) _)

/-- A sweep which goes over all frames, and the hits and the faults before it. -/
theorem clock_amortized_crowded : ∃ (s₀ : Sim Policy.clock.replace) (ts : _)
    (s : Sim Policy.clock.replace),
    Setup.crowded.start Policy.clock.replace = .ok s₀ ∧
      (Setup.crowded.machine Policy.clock.replace).Run s₀ ts s ∧
      (∃ t ∈ ts, Sim.turns t = 32) ∧
      Machine.total Sim.turns ts + s.clock.referenced.card ≤ s.stat.tmr + s.stat.tpi := by
  obtain ⟨s₀, ts, s, e, s', h₀, h, hs⟩ := Setup.exists_run_concat_of_after
    (R := Policy.clock.replace) (c := .crowded) (n := 97)
    (P := fun s e s' => Sim.turns ⟨s, e, s'⟩ == 32) (by decide +kernel)
  refine ⟨s₀, _, s', h₀, h, ⟨_, List.mem_append_right _ (List.mem_singleton_self _), ?_⟩,
    (clock_amortized .crowded h₀ h).2⟩
  simpa using hs

end Pfsim
