import Pfsim.Replace.Policy
import Pfsim.Simulator.Reachable

/-!
# Frames and victims

What memory and the replacement module are at the head of the simulation loop,
in any run.

* `frames_agree`: the frame table, the virtual pages, the freelist and the
  counter agree;
* `replacement_tracks`: the queue of the LRU and FIFO modules is that of the
  resident pages, and all modules name an occupied frame when memory is full;
* `frame_found_iff`: an I/O which is over finds a frame if and only if the
  frames without a bit in the freelist are not the only ones left.
-/

namespace Pfsim

/-! ## Memory -/

theorem Memory.WellFormed.evictPage_quiet {m m' : Memory} (h : m.WellFormed) {ppn : ℕ}
    (he : m.evictPage ppn = .ok m') : m'.stderr = [] := by
  cases hv : m.memory ppn with
  | none =>
    rw [Memory.evictPage, hv] at he
    split at he <;> cases he
  | some v =>
    rw [Memory.evictPage_eq h hv] at he
    obtain rfl := Except.ok.inj he
    exact h.quiet

/-- At the head of the loop, the frame table, the virtual pages, the freelist and
    the counter agree. Hence the frame found for a page is empty when the page is
    loaded, and no eviction is a failsafe one. -/
theorem frames_agree (c : Setup) (π : Policy) {s : Sim π.replace} (h : c.Reachable π.replace s) :
    s.pager.mem.memSize = c.frames ∧
      (∀ ppn v, s.pager.mem.memory ppn = some v ↔ s.pager.mem.live v = true ∧
        (s.pager.mem.vpages v).inMemory = true ∧ (s.pager.mem.vpages v).currentPPN = ppn) ∧
      (∀ ppn < 32 * (c.frames / 32),
        s.pager.mem.bitIsSet ppn = true ↔ s.pager.mem.memory ppn ≠ none) ∧
      (∀ ppn, 32 * (c.frames / 32) ≤ ppn → s.pager.mem.memory ppn = none) ∧
      (∀ ppn ppn' v, s.pager.mem.memory ppn = some v → s.pager.mem.memory ppn' = some v →
        ppn = ppn') ∧
      s.pager.mem.allocated =
        ((Finset.range c.frames).filter fun ppn => (s.pager.mem.memory ppn).isSome).card ∧
      s.pager.mem.allocated ≤ c.frames ∧
      (∀ ppn victim pg, s.tick.findFrame c = .ok (ppn, victim, pg) → pg.mem.memory ppn = none) ∧
      (∀ ppn m', s.pager.mem.evictPage ppn = .ok m' → m'.stderr = []) ∧
      s.pager.mem.stderr = [] ∧
      ∀ cond, s.notDone = true → s.step c true ≠ .error (.assertFailed cond) := by
  have hs := h.wellFormed
  have hm := hs.pager.mem
  have hsize := hs.memSize
  refine ⟨hsize, fun ppn v => hm.memory_iff.trans and_assoc, fun ppn hp => ?_, fun ppn hp => ?_,
    fun ppn ppn' v => hm.frame_unique, ?_, hsize ▸ hm.allocated_le, fun ppn victim pg hf => ?_,
    fun ppn m' => hm.evictPage_quiet, hm.quiet, fun cond hr he => ?_⟩
  · rw [hs.bitIsSet hp, Option.isSome_iff_ne_none]
  -- No bit tracks a frame past the last whole word, so no page is ever loaded there.
  · cases hv : s.pager.mem.memory ppn with
    | none => rfl
    | some v => exact absurd (hs.frame_lt hv) (not_lt.2 hp)
  · rw [hm.allocated_eq, Memory.occupied, hsize]
  · exact (Sim.findFrame_ok hs.tick hf).empty
  · exact h.step_ne_assertFailed hr cond he

theorem frames_agree_sample : ∃ s : Sim Policy.clock.replace,
    Setup.sample.Reachable Policy.clock.replace s ∧ s.pager.mem.allocated = 2 ∧
      ((Finset.range 32).filter fun ppn => (s.pager.mem.memory ppn).isSome).card = 2 := by
  obtain ⟨s₀, ts, s, h₀, h, -, hs⟩ := Setup.exists_run_of_after (R := Policy.clock.replace)
    (c := .sample) (n := 5) (P := fun s => s.pager.mem.allocated = 2) (by decide +kernel)
  have hs : s.pager.mem.allocated = 2 := by simpa using hs
  have hr := Setup.Reachable.of_run h₀ h
  obtain ⟨-, -, -, -, -, hcard, -⟩ := frames_agree .sample .clock hr
  exact ⟨s, hr, hs, hcard.symm.trans hs⟩

/-! ## Victims -/

/-- The replacement queue, in the builds which have one. -/
def Policy.pageQueue : (π : Policy) → π.replace.State → Option PageQueue
  | lru, q => some q
  | fifo, q => some q
  | clock, _ => none
  | random _, _ => none

theorem Policy.tracks (π : Policy) {m : Memory} {rep : π.replace.State} {q : PageQueue}
    (h : ReplaceModule.Lawful.Tracks m rep) (hq : π.pageQueue rep = some q) : q.Tracks m := by
  cases π with
  | lru | fifo =>
    obtain rfl := Option.some.inj hq
    exact h
  | clock | random => cases hq

/-- The victim is the page dequeued, where there is a queue. -/
theorem Policy.dequeues (π : Policy) {ndebug : Bool} {m : Memory} {rep rep' : π.replace.State}
    {q : PageQueue} {ppn : ℕ} (hm : m.WellFormed) (h : ReplaceModule.Lawful.Tracks m rep)
    (hq : π.pageQueue rep = some q) (hv : π.replace.getPageToEvict ndebug m rep = .ok (ppn, rep')) :
    ∃ v q', π.pageQueue rep' = some q' ∧ q.queue = v :: q'.queue ∧ m.memory ppn = some v := by
  have ht := π.tracks h hq
  cases π with
  | lru | fifo =>
    obtain rfl := Option.some.inj hq
    obtain ⟨v, hqueue, hp⟩ := ht.eq_cons_of_getPageToEvict hm hv
    exact ⟨v, rep', rfl, hqueue, hp⟩
  | clock | random => cases hq

/-- At the head of the loop, the replacement queue has each resident page once
    and nothing else, so that no assertion on it fails; and when a victim is
    needed, the module names an occupied frame, that of the page dequeued where
    there is a queue. -/
theorem replacement_tracks (c : Setup) (π : Policy) {s : Sim π.replace}
    (h : c.Reachable π.replace s) :
    (∀ q, π.pageQueue s.pager.rep = some q →
      q.queue.Nodup ∧
      (∀ v, v ∈ q.queue ↔ s.pager.mem.live v = true ∧ (s.pager.mem.vpages v).inMemory = true) ∧
      (∀ v, s.pager.mem.live v = true → (s.pager.mem.vpages v).overhead = some v) ∧
      (∀ v, q.inQueue v = some true ↔ v ∈ q.queue) ∧
      q.pages = q.queue.length ∧ q.queue.length = s.pager.mem.allocated ∧
      q.pages ≤ q.capacity ∧ q.capacity = c.frames) ∧
    (∀ cond, s.notDone = true → s.step c true ≠ .error (.assertFailed cond)) ∧
    (s.tick.ioDue = true → s.tick.pager.mem.hasFreePage = false →
      0 < s.tick.pager.mem.allocated ∧ ∃ ppn v rep,
        π.replace.getPageToEvict c.ndebug s.tick.pager.mem s.tick.pager.rep = .ok (ppn, rep) ∧
        ppn < c.frames ∧ s.tick.pager.mem.memory ppn = some v ∧
        s.tick.pager.mem.live v = true ∧ (s.tick.pager.mem.vpages v).inMemory = true ∧
        ∀ q, π.pageQueue s.tick.pager.rep = some q →
          ∃ q', π.pageQueue rep = some q' ∧ q.queue = v :: q'.queue) := by
  have hs := h.wellFormed
  have hm := hs.pager.mem
  refine ⟨fun q hq => ?_, fun cond hr he => ?_, fun _ hfull => ?_⟩
  · have ht := π.tracks hs.pager.tracks hq
    refine ⟨ht.nodup, ht.mem_queue, ht.overhead, ht.inQueue_iff, ht.pages, ht.length, ?_,
      by rw [ht.capacity, hs.memSize]⟩
    rw [ht.pages, ht.length, ht.capacity]
    exact_mod_cast hm.allocated_le
  · exact h.step_ne_assertFailed hr cond he
  · rw [Sim.tick_pager] at hfull ⊢
    obtain ⟨ppn, v, rep, hok, hv, -⟩ := ReplaceModule.Lawful.getPageToEvict_ok c.ndebug hm
      hs.pager.tracks (hs.memSize ▸ c.frames_pos) hfull
    have hr := hm.resident hv
    refine ⟨hm.allocated_pos hv, ppn, v, rep, hok, hs.memSize ▸ hm.frame_lt_memSize hv, hv, hr.1,
      hr.2, fun q hq => ?_⟩
    -- The page dequeued is the one in the frame.
    obtain ⟨v', q', hq', hqueue, hv'⟩ := π.dequeues hm hs.pager.tracks hq hok
    obtain rfl : v = v' := Option.some.inj (hv.symm.trans hv')
    exact ⟨q', hq', hqueue⟩

/-- More pages than there are frames, all of them referenced in turn. -/
def Setup.crowded : Setup :=
  .debug 1 32 ((List.range 33).flatMap fun n => '1' :: ' ' :: (Nat.toDigits 10 n ++ ['\n']))
    Nat.one_pos word_pos

theorem replacement_tracks_crowded : ∃ s : Sim Policy.lru.replace,
    Setup.crowded.Reachable Policy.lru.replace s ∧ s.tick.ioDue = true ∧
      ∃ ppn v rep, Policy.lru.replace.getPageToEvict false s.tick.pager.mem s.tick.pager.rep =
        .ok (ppn, rep) ∧ s.tick.pager.mem.memory ppn = some v := by
  obtain ⟨s₀, ts, s, h₀, h, -, hs⟩ := Setup.exists_run_of_after (R := Policy.lru.replace)
    (c := .crowded) (n := 97) (P := fun s => s.tick.ioDue && !s.tick.pager.mem.hasFreePage)
    (by decide +kernel)
  have hs : s.tick.ioDue = true ∧ s.tick.pager.mem.hasFreePage = false := by simpa using hs
  have hr := Setup.Reachable.of_run h₀ h
  obtain ⟨-, -, hv⟩ := replacement_tracks .crowded .lru hr
  obtain ⟨-, ppn, v, rep, hok, -, hv, -⟩ := hv hs.1 hs.2
  exact ⟨s, hr, hs.1, ppn, v, rep, hok, hv⟩

/-! ## Free frames -/

/-- What is expected of memory when an I/O is over: either a frame is free, and
    one is found, or all of them are occupied, and a victim is replaced. -/
def Sim.FindsFrame {R : ReplaceModule} (c : Setup) (s : Sim R) : Prop :=
  (s.pager.mem.hasFreePage = true →
    ∃ ppn, s.pager.mem.getFreePage = .ok ppn ∧ ppn < s.pager.mem.memSize ∧
      s.pager.mem.memory ppn = none) ∧
  (s.pager.mem.hasFreePage = false →
    (∀ ppn < s.pager.mem.memSize, s.pager.mem.memory ppn ≠ none) ∧
      ∃ ppn victim pg, s.findFrame c = .ok (ppn, some victim, pg))

theorem Sim.findsFrame_iff {R : ReplaceModule} [R.Lawful] {c : Setup} {s : Sim R}
    (hs : s.WellFormed c) : s.FindsFrame c ↔ ¬(s.pager.mem.tracked ≤ s.pager.mem.allocated ∧
      s.pager.mem.allocated < s.pager.mem.memSize) := by
  cases hfree : s.pager.mem.hasFreePage with
  | true =>
    -- The finder is called: it finds a frame if not all those with a bit are taken.
    have hlt : s.pager.mem.allocated < s.pager.mem.memSize := by
      simpa [Memory.hasFreePage] using hfree
    rw [and_iff_left hlt, not_le]
    constructor
    · intro hf
      obtain ⟨ppn, hget, -⟩ := hf.1 hfree
      by_contra ha
      obtain ⟨msg, herr⟩ := Memory.getFreePage_eq_error hs.pager.mem ha
      rw [herr] at hget
      cases hget
    · intro ha
      obtain ⟨ppn, hget, hlt, hempty, -⟩ := Memory.getFreePage_eq_ok hs.pager.mem ha
      refine ⟨fun _ => ⟨ppn, hget, hlt.trans_le (Memory.tracked_le _), hempty⟩, fun hn => ?_⟩
      rw [hfree] at hn
      cases hn
  | false =>
    have hle : s.pager.mem.memSize ≤ s.pager.mem.allocated := by
      simpa [Memory.hasFreePage] using hfree
    refine iff_of_true ⟨fun hn => ?_, fun _ => ⟨fun k hk => ?_, ?_⟩⟩ fun hn => not_le.2 hn.2 hle
    · rw [hfree] at hn
      cases hn
    · exact Option.ne_none_iff_exists'.2 (hs.pager.mem.full hfree hk)
    · rcases findFrame_cases hs with ⟨-, hn, -⟩ | ⟨ppn, victim, pg, he, hfr⟩
      · rw [hfree] at hn
        cases hn
      · rcases hfr.cases with ⟨hn, -⟩ | ⟨-, u, rfl, -⟩
        · rw [hfree] at hn
          cases hn
        · exact ⟨ppn, u, pg, he⟩

/-- The finder goes by the bits of the freelist, of which there are a multiple of
    32, and the test before it by the counter. What is expected happens if and
    only if it is not the case that all frames with a bit are taken and some
    without are not; so it always does if the number of frames is a multiple
    of 32. -/
theorem frame_found_iff (c : Setup) (π : Policy) {s : Sim π.replace}
    (h : c.Reachable π.replace s) :
    (s.tick.FindsFrame c ↔ ¬(32 * (c.frames / 32) ≤ s.pager.mem.allocated ∧
      s.pager.mem.allocated < c.frames)) ∧
    (32 ∣ c.frames → s.tick.FindsFrame c) := by
  have hiff : s.tick.FindsFrame c ↔ ¬(32 * (c.frames / 32) ≤ s.pager.mem.allocated ∧
      s.pager.mem.allocated < c.frames) := by
    have hiff := Sim.findsFrame_iff h.wellFormed.tick
    rwa [Sim.tick_pager, Memory.tracked, h.wellFormed.memSize] at hiff
  refine ⟨hiff, fun hdvd => hiff.2 fun hn => ?_⟩
  have := Nat.mul_div_cancel' hdvd
  omega

theorem frame_found_iff_sample : ∃ s : Sim Policy.clock.replace,
    Setup.sample.Reachable Policy.clock.replace s ∧ s.tick.ioDue = true ∧
      s.tick.FindsFrame .sample := by
  obtain ⟨s₀, ts, s, h₀, h, -, hs⟩ := Setup.exists_run_of_after (R := Policy.clock.replace)
    (c := .sample) (n := 2) (P := fun s => s.tick.ioDue) (by decide +kernel)
  have hr := Setup.Reachable.of_run h₀ h
  exact ⟨s, hr, hs, (frame_found_iff .sample .clock hr).2 ⟨1, rfl⟩⟩

/-- A memory of one frame, and one reference. -/
def Setup.loneFrame : Setup := .debug DISK_PENALTY 1 ['1', ' ', '0'] DISK_PENALTY_pos Nat.one_pos

/-- With a single frame, which is free, the first I/O finds none, and the program
    exits. -/
theorem frame_not_found : ∃ s : Sim Policy.fifo.replace,
    Setup.loneFrame.Reachable Policy.fifo.replace s ∧ s.tick.ioDue = true ∧
      s.tick.pager.mem.hasFreePage = true ∧ s.tick.pager.mem.memory 0 = none ∧
      (∀ ppn, s.tick.pager.mem.getFreePage ≠ .ok ppn) ∧ ¬s.tick.FindsFrame .loneFrame := by
  obtain ⟨s₀, ts, s, h₀, h, -, hs⟩ := Setup.exists_run_of_after (R := Policy.fifo.replace)
    (c := .loneFrame) (n := 2) (P := fun s => s.tick.ioDue && s.tick.pager.mem.hasFreePage &&
      s.tick.pager.mem.memory 0 == none && !s.tick.pager.mem.getFreePage.isOk) (by decide +kernel)
  obtain ⟨⟨⟨hd, hfree⟩, hempty⟩, hget⟩ :
      ((s.tick.ioDue = true ∧ s.tick.pager.mem.hasFreePage = true) ∧
        s.tick.pager.mem.memory 0 = none) ∧ s.tick.pager.mem.getFreePage.isOk = false := by
    simpa using hs
  have hne : ∀ ppn, s.tick.pager.mem.getFreePage ≠ .ok ppn := fun ppn e => by
    rw [e] at hget
    cases hget
  refine ⟨s, .of_run h₀ h, hd, hfree, hempty, hne, fun hf => ?_⟩
  obtain ⟨ppn, hok, -⟩ := hf.1 hfree
  exact hne ppn hok

end Pfsim
