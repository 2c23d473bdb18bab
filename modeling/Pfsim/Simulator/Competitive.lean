import Pfsim.Simulator.Algorithms
import Pfsim.Simulator.Schedule

/-!
# The builds compared

With a single process number, what is known of replacement algorithms is known of the
simulator, which runs them (`Setup.faults_of_returns`).

* `lru_reuse`: the faults LRU reports are counted by the pages referenced between two
  references of a page;
* `faults_competitive`: LRU and FIFO, with `m` frames, report at most `m / (m + 1 - h)` times
  the faults any policy reports with `h` frames, if `h` is not larger.
-/

namespace Pfsim

variable {R : ReplaceModule} [R.Lawful] {c : Setup} {s s₀ : Sim R} {tr : Trace}
  {ts : List (Machine.Transition (Sim R) Event)}

/-- The pages hit are those of the records, in order. -/
theorem pagesHit_single (htext : c.text = tr.text) (hpid : tr.Single) (h₀ : c.start R = .ok s₀)
    (h : (c.machine R).Run s₀ ts s) :
    (pagesHit ts).map Prod.snd = (List.range s.stat.tmr).map tr.references := by
  refine Setup.run_invariant (J := fun ts s => (pagesHit ts).map Prod.snd =
    (List.range s.stat.tmr).map tr.references) h₀ h ?_ fun ts s e s' hr hj hm => ?_
  · obtain ⟨ps, -, rfl⟩ := Setup.start_eq h₀
    rfl
  · rw [pagesHit_append, List.map_append, hj, hm.tmr_tpi.1]
    cases e with
    | completion | idle | miss => exact List.append_nil _
    | hit r =>
      obtain ⟨u, hu⟩ := hm.reads rfl
      rw [Event.hits, List.range_succ, List.map_append]
      exact congrArg (_ ++ [·]) (hu.vpn_single htext hpid hr).2

/-- A whole run serves the page numbers of the records, in order. -/
theorem serves_references (htext : c.text = tr.text) (hpid : tr.Single)
    (h₀ : c.start R = .ok s₀) (h : (c.machine R).Returns s₀ ts s) :
    ∃ C n, Paging.Serves c.frames tr.references tr.length C n ∧ n ≤ s.stat.tpi := by
  have hlen := length_pagesHit h₀ h.1
  have hserves := (serves_hits h₀ h.1).map Prod.snd
  have hmap := pagesHit_single htext hpid h₀ h.1
  rw [(Setup.Reachable.of_run h₀ h.1).tmr_of_done htext h.2] at hlen hmap
  rw [hlen] at hserves
  refine ⟨_, _, hserves.congr fun j hj => ?_, length_pagesLoaded_le h₀ h.1⟩
  have hj' : j < (pagesHit ts).length := hj.trans_eq hlen.symm
  have := congrArg (·[j]?) hmap
  simp only [List.getElem?_map, List.getElem?_range hj, Option.map_some,
    List.getElem?_eq_getElem hj'] at this
  rw [Function.comp_apply, hitAt, List.getD_eq_getElem _ _ hj']
  exact (Option.some.inj this).symm

/-- With a single process number, the faults LRU reports, if it returns, are the references of
    pages since whose last reference more pages than there are frames have been referenced, and
    of new ones. It does return if the frames all have a bit, and `malloc` leaves `NULL` in what
    is used before it is written. -/
theorem lru_reuse (c : Setup) (tr : Trace) (htext : c.text = tr.text) (hpid : tr.Single) :
    (32 ∣ c.frames → c.Blank → ∃ s₀ ts s, c.start Policy.lru.replace = .ok s₀ ∧
      (c.machine Policy.lru.replace).Returns s₀ ts s) ∧
    ∀ s₀ ts s, c.start Policy.lru.replace = .ok s₀ →
      (c.machine Policy.lru.replace).Returns s₀ ts s →
      s.stat.tpi = ((Finset.range tr.length).filter fun k => ∀ j < k,
        tr.references j = tr.references k →
          c.frames < (Paging.pages tr.references j k).card).card := by
  refine ⟨fun h32 hb => hb.returns_single htext hpid h32, fun s₀ ts s h₀ h => ?_⟩
  rw [Setup.faults_of_returns htext hpid h₀ h, ← LruStack.misses_eq_card]
  exact LruStack.faults_lru c.frames_pos _ _

/-- The algorithms of LRU and FIFO are conservative. -/
theorem Policy.conservative {π : Policy} (hπ : π = .lru ∨ π = .fifo) {m : ℕ} (hm : 0 < m)
    (σ : ℕ → ℕ) : Paging.Conservative m σ ((π.algorithm m).faults σ) := by
  rcases hπ with rfl | rfl
  · have hfaults : (Policy.lru.algorithm m).faults σ = LruStack.misses m σ :=
      funext fun k => LruStack.faults_lru hm σ k
    rw [hfaults]
    exact LruStack.conservative_misses m σ
  · exact Paging.conservative_fifo m σ

/-- With a single process number, and two sizes of memory, the faults which LRU or FIFO reports
    with the larger memory, or with the same, are at most `m / (m + 1 - h)` times those any policy
    reports with the other one, `m` and `h` being the numbers of frames, if both return. They do
    if the frames all have a bit, and `malloc` leaves `NULL` in what is used before it is
    written. -/
theorem faults_competitive (tr : Trace) (hpid : tr.Single) (c c' : Setup)
    (htext : c.text = tr.text) (htext' : c'.text = tr.text) (hle : c'.frames ≤ c.frames)
    (π π' : Policy) (hπ : π = .lru ∨ π = .fifo) :
    (32 ∣ c.frames → c.Blank → ∃ s₀ ts s, c.start π.replace = .ok s₀ ∧
      (c.machine π.replace).Returns s₀ ts s) ∧
    (32 ∣ c'.frames → c'.Blank → ∃ s₀' ts' s', c'.start π'.replace = .ok s₀' ∧
      (c'.machine π'.replace).Returns s₀' ts' s') ∧
    ∀ s₀ ts s s₀' ts' s', c.start π.replace = .ok s₀ → (c.machine π.replace).Returns s₀ ts s →
      c'.start π'.replace = .ok s₀' → (c'.machine π'.replace).Returns s₀' ts' s' →
      (c.frames + 1 - c'.frames) * s.stat.tpi ≤ c.frames * s'.stat.tpi := by
  refine ⟨fun h32 hb => hb.returns_single htext hpid h32,
    fun h32 hb => hb.returns_single htext' hpid h32, fun s₀ ts s s₀' ts' s' h₀ h h₀' h' => ?_⟩
  obtain ⟨C, n, hserves, hn⟩ := serves_references htext' hpid h₀' h'
  rw [Setup.faults_of_returns htext hpid h₀ h]
  calc (c.frames + 1 - c'.frames) * (π.algorithm c.frames).faults tr.references tr.length
      ≤ c.frames * n :=
        (Policy.conservative hπ c.frames_pos _).competitive c'.frames_pos hle hserves
    _ ≤ c.frames * s'.stat.tpi := Nat.mul_le_mul_left _ hn

/-- With `32` frames, the second reference to page `0` is a fault, and that to page `33` is not. -/
theorem lru_reuse_again : ∃ (c : Setup) (s₀ : Sim Policy.lru.replace) (ts : _) (s : _),
    c.text = Trace.overflowing.text ∧ c.frames = 32 ∧
      (c.machine Policy.lru.replace).Returns s₀ ts s ∧ s.stat.tpi = 35 := by
  let c : Setup := .debug 2 32 Trace.overflowing.text Nat.two_pos Setup.word_pos
  obtain ⟨hret, hall⟩ := lru_reuse c .overflowing rfl Trace.overflowing_single
  obtain ⟨s₀, ts, s, h₀, h⟩ := hret ⟨1, rfl⟩ (Setup.debug_blank _ _)
  exact ⟨c, s₀, ts, s, rfl, rfl, h, (hall s₀ ts s h₀ h).trans (by decide +kernel)⟩

/-- The pages from `0` to `69`, then `0` again: they overflow `64` frames. -/
def Trace.circling : Trace := .ofPages (List.range 70 ++ [0])

theorem Trace.circling_single : Trace.circling.Single :=
  show ∀ k, 1 ≤ k → k ≤ circling.length → circling.pid k = circling.pid 1 by decide +kernel

/-- FIFO with `64` frames, and the clock with `32`. -/
theorem faults_competitive_again : ∃ (c c' : Setup) (s₀ s : Sim Policy.fifo.replace)
    (s₀' s' : Sim Policy.clock.replace) (ts ts' : _), c.text = Trace.circling.text ∧
      c'.text = Trace.circling.text ∧ c.frames = 64 ∧ c'.frames = 32 ∧
      (c.machine Policy.fifo.replace).Returns s₀ ts s ∧
      (c'.machine Policy.clock.replace).Returns s₀' ts' s' ∧
      33 * s.stat.tpi ≤ 64 * s'.stat.tpi := by
  let c : Setup := .debug 2 64 Trace.circling.text Nat.two_pos (by decide +kernel)
  let c' : Setup := .debug 2 32 Trace.circling.text Nat.two_pos Setup.word_pos
  obtain ⟨hret, hret', hall⟩ := faults_competitive .circling Trace.circling_single c c' rfl rfl
    (by decide +kernel) .fifo .clock (.inr rfl)
  obtain ⟨s₀, ts, s, h₀, h⟩ := hret ⟨2, rfl⟩ (Setup.debug_blank _ _)
  obtain ⟨s₀', ts', s', h₀', h'⟩ := hret' ⟨1, rfl⟩ (Setup.debug_blank _ _)
  exact ⟨c, c', s₀, s, s₀', s', ts, ts', rfl, rfl, rfl, rfl, h, h', hall s₀ ts s s₀' ts' s' h₀ h
    h₀' h'⟩

end Pfsim
