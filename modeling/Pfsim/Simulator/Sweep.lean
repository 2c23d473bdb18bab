import Pfsim.Simulator.Quit

/-!
# The sweep of the clock

* `clock_sweeps`: whenever the clock module is asked for a victim, all reference bits
  have been written, the sweep goes over the frames whose bit is set, at most once
  each, and stops at the first one whose bit is clear, or where it started. So the page
  of a frame whose bit has not been cleared since the page was touched is only evicted
  if all bits are set.
-/

namespace Pfsim

namespace Sim

/-- Reading a line changes nothing in the frames. -/
theorem Reads.memory_eq {R : ReplaceModule} {c : Setup} {s u : Sim R} {r : Reference}
    (h : s.Reads c r u) : u.pager.mem.memory = s.pager.mem.memory := by
  rcases h.pages_cases with ⟨hpager, -⟩ | ⟨-, ⟨o, ho⟩, -⟩
  · rw [hpager]
  · rw [ho]
    rfl

/-- A page is only put in a frame by being loaded. -/
theorem Move.memory_cases {R : ReplaceModule} [R.Lawful] {c : Setup} {s s' : Sim R} {e : Event}
    (h : s.Move c e s') (hs : s.WellFormed c) {i : ℕ} {v : PageId}
    (hv : s'.pager.mem.memory i = some v) :
    e.loaded = some v ∨ s.pager.mem.memory i = some v := by
  cases h with
  | @completion p bs w ppn victim pg rep hp hw hv' hf hl =>
    have hm : (pg.mem.loaded w ppn).memory i = some v := hv
    by_cases hi : i = ppn
    · exact .inl (by simpa [Memory.loaded, hi, Event.loaded] using hm)
    · have hm : pg.mem.memory i = some v := by simpa [Memory.loaded, hi] using hm
      rcases (findFrame_ok hs hf).cases with ⟨-, -, rfl⟩ | ⟨-, u, -, -, he⟩
      · exact .inr hm
      · rw [he] at hm
        exact .inr (by simpa [Memory.evicted, hi] using hm)
  | @idle b bs =>
    have hpager : (s.tick.skipped b).pager = s.pager := tick_pager
    exact .inr (by rwa [← hpager])
  | jump hr => exact .inr (hr.memory_eq ▸ hv)
  | next hr => exact .inr (hr.memory_eq ▸ hv)
  | @finish r u rep pg hr hm ha hl hi hf =>
    obtain ⟨hw, hpg, hfr⟩ := hr.freed hs hm ha hf
    exact .inr (hr.memory_eq ▸ ((hfr.memory_iff hw.pager hpg).1 hv).1)
  | miss hr => exact .inr (hr.memory_eq ▸ hv)

end Sim

/-! ## Reference bits -/

/-- The reference bit of the frame `i`. -/
def Sim.bit (s : Sim Policy.clock.replace) (i : ℕ) : Option Bool :=
  Clock.shadowMemReflist s.pager.rep i

variable {c : Setup} {s s' s₀ : Sim Policy.clock.replace} {e : Event} {i : ℕ} {v : PageId}
  {ts : List (Machine.Transition (Sim Policy.clock.replace) Event)}

/-- The bits of the occupied frames have been written. -/
theorem Sim.WellFormed.bit_isSome (hs : s.WellFormed c) (hv : s.pager.mem.memory i = some v) :
    (s.bit i).isSome := by
  have ht : Clock.Tracks s.pager.mem s.pager.rep := hs.pager.tracks
  exact ht.written hv

theorem Sim.Reads.bit_accessed {u : Sim Policy.clock.replace} {r : Reference} {rep : Clock}
    (h : s.Reads c r u) (hs : s.WellFormed c) (hm : u.pager.mem.Resident r.v)
    (ha : Policy.clock.replace.notifyPageAccess c.ndebug u.pager.mem u.pager.rep
      (u.pager.mem.vpages r.v).overhead = .ok rep) :
    rep.shadowMemReflist (u.pager.mem.vpages r.v).currentPPN = some true := by
  have ht : Clock.Tracks u.pager.mem u.pager.rep := (h.wellFormed hs).pager.tracks
  rw [ht.overhead r.v hm.1] at ha
  rw [Clock.eq_of_notifyPageAccess ha]
  exact Function.update_self ..

/-- The frame of a page loaded or hit gets its bit set. -/
theorem Sim.Move.bit_touched (h : s.Move c e s') (hs : s.WellFormed c) (he : e.touched = some v)
    (hv : s'.pager.mem.memory i = some v) : s'.bit i = some true := by
  have hs' := h.wellFormed hs
  have hppn := (hs'.pager.mem.memory_iff.1 hv).2
  cases h with
  | @completion p bs w ppn victim pg rep hp hw hv' hf hl =>
    obtain rfl : w = v := Option.some.inj he
    have hlive := (hs.awaited (hp ▸ List.mem_cons_self) hv').1
    have hfr := Sim.findFrame_ok hs hf
    have ht : Clock.Tracks pg.mem pg.rep := hfr.wellFormed.tracks
    rw [ht.overhead w ((hfr.keeps w).live.trans hlive)] at hl
    change Clock.shadowMemReflist rep i = some true
    rw [Clock.eq_of_notifyPageAccess hl, ← hppn]
    exact Function.update_self ..
  | idle => cases he
  | jump hr hm ha =>
    obtain rfl := Option.some.inj he
    rw [← hppn]
    exact hr.bit_accessed hs hm ha
  | next hr hm ha =>
    obtain rfl := Option.some.inj he
    rw [← hppn]
    exact hr.bit_accessed hs hm ha
  | @finish r u rep pg hr hm ha hl hi hf =>
    -- The page hit is freed.
    obtain rfl := Option.some.inj he
    obtain ⟨-, -, hfr⟩ := hr.freed hs hm ha hf
    have hnot := ((hfr.live r.v).1 (hs'.pager.mem.resident hv).1).2
    exact absurd (List.mem_map_of_mem (PageTable.mem_of_get hr.page)) hnot
  | miss => cases he

/-- The iteration clears the reference bit of the frame `i`. -/
def Sim.Clears (t : Machine.Transition (Sim Policy.clock.replace) Event) (i : ℕ) : Prop :=
  t.src.bit i = some true ∧ t.dst.bit i = some false

/-- As long as no iteration clears it, the bit of the frame of a page is set, once it is. -/
theorem Setup.bit_of_not_clears {s₁ : Sim Policy.clock.replace}
    (h₁ : c.Reachable Policy.clock.replace s₁)
    (h : (c.machine Policy.clock.replace).Run s₁ ts s)
    (hset : s₁.pager.mem.memory i = some v → s₁.bit i = some true)
    (hclear : ∀ t ∈ ts, ¬Sim.Clears t i) (hv : s.pager.mem.memory i = some v) :
    s.bit i = some true := by
  induction h with
  | start => exact hset hv
  | @step ts s s' e h hr hstep ih =>
    obtain ⟨s₀, h₀, us, hrun⟩ := h₁
    have hs := (Setup.Reachable.of_run h₀ (hrun.trans h)).wellFormed
    have hmove := Sim.move_of_step hs hr hstep
    rcases hmove.memory_cases hs hv with hl | hold
    · have ht : e.touched = some v := by
        cases e with
        | completion => exact hl
        | idle | hit | miss => cases hl
      exact hmove.bit_touched hs ht hv
    · -- The page was there, with its bit set.
      have hbit := ih (fun t ht => hclear t (List.mem_append_left _ ht)) hold
      have hnot := hclear ⟨s, e, s'⟩ (List.mem_append_right _ (List.mem_singleton_self _))
      obtain ⟨b, hb⟩ := Option.isSome_iff_exists.1 ((hmove.wellFormed hs).bit_isSome hv)
      cases b with
      | true => exact hb
      | false => exact absurd ⟨hbit, hb⟩ hnot

/-- The bit of the frame of a page is set if no iteration has cleared it since the page was loaded
    or hit. -/
theorem Setup.bit_of_touched (h₀ : c.start Policy.clock.replace = .ok s₀)
    {us vs : List (Machine.Transition (Sim Policy.clock.replace) Event)}
    {t : Machine.Transition (Sim Policy.clock.replace) Event}
    (h : (c.machine Policy.clock.replace).Run s₀ (us ++ t :: vs) s) (ht : t.lbl.touched = some v)
    (hvs : ∀ t' ∈ vs, ¬Sim.Clears t' i) (hv : s.pager.mem.memory i = some v) :
    s.bit i = some true := by
  obtain ⟨r, hr, hrun⟩ := h.split
  obtain ⟨rfl, hrunning, hstep, hrun⟩ := hrun.cons
  have hreach := Setup.Reachable.of_run h₀ hr
  have hreach' := Setup.Reachable.of_run h₀ (hr.step hrunning hstep)
  have hmove := Sim.move_of_step hreach.wellFormed hrunning hstep
  exact Setup.bit_of_not_clears hreach' hrun
    (fun hm => hmove.bit_touched hreach.wellFormed ht hm) hvs hv

/-- If the sweep goes all the way round, all bits were set. -/
theorem Clock.set_of_turns_eq {k : Clock} (hhand : k.clockHand < k.numPages)
    (h : k.turns = k.numPages) (hi : i < k.numPages) : k.shadowMemReflist i = some true := by
  obtain ⟨j, hj, rfl⟩ := Clock.exists_frame hhand hi
  exact Clock.set_of_lt_turns (h ▸ hj)

/-- Whenever the clock module is asked for a victim, all bits have been written, and
    the hand is at a frame. The loop takes `d` turns, at most one for each frame, going
    over frames whose bit is set, which it clears, and no other bit; it stops at the
    first frame whose bit is clear, or where it started if all bits are set. If the bit
    of the frame named has not been cleared since its page was loaded or hit, then all
    bits were set. -/
theorem clock_sweeps (c : Setup) {s₀ s : Sim Policy.clock.replace}
    {ts : List (Machine.Transition (Sim Policy.clock.replace) Event)}
    (h₀ : c.start Policy.clock.replace = .ok s₀)
    (h : (c.machine Policy.clock.replace).Run s₀ ts s) (_ : s.tick.ioDue = true)
    (hfull : s.tick.pager.mem.hasFreePage = false) :
    ∃ k k' : Clock, ∃ d ≤ c.frames, s.tick.pager.rep = k ∧
      Policy.clock.replace.getPageToEvict c.ndebug s.tick.pager.mem s.tick.pager.rep =
        .ok (k'.clockHand, k') ∧
      (∀ i < c.frames, (k.shadowMemReflist i).isSome) ∧
      (k.numPages = c.frames ∧ k.clockHand < c.frames) ∧
      (k'.numPages = c.frames ∧ k'.clockHand < c.frames) ∧
      (∀ n, k.sweep n = if d < n then .ok k' else .error .outOfFuel) ∧
      k'.clockHand = (k.clockHand + d) % c.frames ∧
      (∀ j < d, k.shadowMemReflist ((k.clockHand + j) % c.frames) = some true) ∧
      (d < c.frames → k.shadowMemReflist k'.clockHand = some false) ∧
      (d = c.frames → k'.clockHand = k.clockHand ∧
        ∀ i < c.frames, k.shadowMemReflist i = some true) ∧
      (∀ i, k'.shadowMemReflist i = if ∃ j < d, (k.clockHand + j) % c.frames = i then some false
        else k.shadowMemReflist i) ∧
      ∀ us t vs v, ts = us ++ t :: vs → t.lbl.touched = some v →
        s.tick.pager.mem.memory k'.clockHand = some v →
        (∀ t' ∈ vs, ¬Sim.Clears t' k'.clockHand) →
        ∀ i < c.frames, k.shadowMemReflist i = some true := by
  have hs := (Setup.Reachable.of_run h₀ h).wellFormed
  rw [Sim.tick_pager] at hfull ⊢
  obtain ⟨k, hk⟩ : ∃ k : Clock, s.pager.rep = k := ⟨_, rfl⟩
  have ht : k.Tracks s.pager.mem := hk ▸ hs.pager.tracks
  have hnum : k.numPages = c.frames := ht.numPages.trans hs.memSize
  have hhand : k.clockHand < k.numPages := ht.numPages ▸ ht.clockHand
  have hbits := ht.written_of_full hs.pager.mem hfull
  have hclear : k.turns < c.frames → k.shadowMemReflist (k.frame k.turns) = some false :=
    fun hlt => Clock.clear_of_turns_lt hbits hhand (hnum ▸ hlt)
  have hround (heq : k.turns = c.frames) (i : ℕ) (hi : i < c.frames) :
      k.shadowMemReflist i = some true :=
    Clock.set_of_turns_eq hhand (heq.trans hnum.symm) (hnum ▸ hi)
  refine ⟨k, k.swept k.turns, k.turns, hnum ▸ Clock.turns_le, hk, ?_, hnum ▸ hbits,
    ⟨hnum, hnum ▸ hhand⟩, ⟨hnum, hnum ▸ Clock.frame_lt hhand _⟩,
    fun n => Clock.sweep_eq_swept hhand hbits, hnum ▸ rfl,
    fun j hj => hnum ▸ Clock.set_of_lt_turns hj, hclear, fun heq => ⟨?_, hround heq⟩,
    fun i => hnum ▸ rfl, fun us t vs v hts hv hmem hvs => hround ?_⟩
  · rw [hk]
    exact ht.getPageToEvict_eq hs.pager.mem hfull
  · exact (congrArg k.frame (heq.trans hnum.symm)).trans (Clock.frame_numPages hhand)
  · -- The bit of the frame named is set, so the hand has gone all the way round.
    subst hts
    have hbit : s.bit (k.frame k.turns) = some true := Setup.bit_of_touched h₀ h hv hvs hmem
    rw [Sim.bit, hk] at hbit
    refine (hnum ▸ Clock.turns_le : k.turns ≤ c.frames).lt_or_eq.resolve_left fun hlt => ?_
    cases hbit.symm.trans (hclear hlt)

/-- When a page more is loaded than there are frames, the hand goes all the way round. -/
theorem clock_sweeps_crowded : ∃ s : Sim Policy.clock.replace,
    Setup.crowded.Reachable Policy.clock.replace s ∧ ∃ k' : Clock,
      Policy.clock.replace.getPageToEvict false s.tick.pager.mem s.tick.pager.rep =
        .ok (k'.clockHand, k') ∧ k'.clockHand = 0 ∧
      ∀ i < 32, k'.shadowMemReflist i = some false := by
  obtain ⟨s₀, ts, s, h₀, h, -, hs⟩ := Setup.exists_run_of_after (R := Policy.clock.replace)
    (c := .crowded) (n := 97) (P := fun s => s.tick.ioDue && !s.tick.pager.mem.hasFreePage &&
      Clock.clockHand s.tick.pager.rep == 0 && (List.range 32).all fun i =>
        Clock.shadowMemReflist s.tick.pager.rep i == some true) (by decide +kernel)
  simp only [Bool.and_eq_true, Bool.not_eq_true', List.all_eq_true, beq_iff_eq, List.mem_range]
    at hs
  obtain ⟨⟨⟨hdue, hfull⟩, hhand⟩, hset⟩ := hs
  obtain ⟨k, k', d, hd, rfl, hok, -, -, hnum, -, -, -, hclear, hround, hbits, -⟩ :=
    clock_sweeps .crowded h₀ h hdue hfull
  -- No bit is clear, so the sweep takes 32 turns.
  obtain rfl : d = 32 := hd.lt_or_eq.resolve_left fun hlt => by
    have := (hset k'.clockHand hnum.2).symm.trans (hclear hlt)
    cases this
  refine ⟨s, .of_run h₀ h, k', hok, (hround rfl).1.trans hhand, fun i hi => ?_⟩
  rw [hbits, hhand, if_pos ⟨i, hi, by rw [Nat.zero_add]; exact Nat.mod_eq_of_lt hi⟩]

end Pfsim
