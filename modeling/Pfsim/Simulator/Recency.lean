import Pfsim.Simulator.Queue

/-!
# Recency

The replacement queue lists the resident pages in the order in which they were last
renewed (`Policy.Ordered`), through hits, loads, replacements and exits of processes;
so the page at its head, the victim, is the one renewed longest ago.

* `lru_evicts_least_recent`: LRU evicts the page touched longest ago;
* `fifo_evicts_oldest`: FIFO evicts the page loaded longest ago.
-/

namespace Pfsim

open Machine (lastTime)

/-- When the page `v` was last loaded or hit. -/
def lastTouch {R : ReplaceModule} (ts : List (Machine.Transition (Sim R) Event)) (v : PageId) : ℕ :=
  lastTime Sim.time (fun e => e.touched = some v) ts

/-- When the page `v` was last loaded. -/
def lastLoad {R : ReplaceModule} (ts : List (Machine.Transition (Sim R) Event)) (v : PageId) : ℕ :=
  lastTime Sim.time (fun e => e.loaded = some v) ts

variable {π : Policy} {c : Setup} {s s' s₀ : Sim π.replace} {e : Event} {q : PageQueue}
  {ts : List (Machine.Transition (Sim π.replace) Event)}

/-- When the page `v` was last put at the tail of the queue. -/
def Policy.lastRenewal (π : Policy) (ts : List (Machine.Transition (Sim π.replace) Event))
    (v : PageId) : ℕ :=
  lastTime Sim.time (fun e => π.renewed e = some v) ts

theorem Policy.lastRenewal_append {v : PageId} : π.lastRenewal (ts ++ [⟨s, e, s'⟩]) v =
    if π.renewed e = some v then s'.time else π.lastRenewal ts v := by
  rw [Policy.lastRenewal, Machine.lastTime_append]
  simp [Policy.lastRenewal]

/-- The queue is in the order of the renewals, after the steps `ts`. -/
structure Policy.Ordered (π : Policy) (ts : List (Machine.Transition (Sim π.replace) Event))
    (time : ℕ) (queue : List PageId) : Prop where
  sorted : queue.Pairwise fun u v => π.lastRenewal ts u < π.lastRenewal ts v
  pos : ∀ v ∈ queue, 0 < π.lastRenewal ts v
  le_time : ∀ v, π.lastRenewal ts v ≤ time

/-- Time goes forward. -/
theorem Sim.Move.time_le (h : s.Move c e s') : s.time ≤ s'.time := by
  by_cases he : e = .idle
  · subst he
    obtain ⟨b, bs, hb, -⟩ := h.idle_blocked
    rw [(h.time_idle hb).1]
    exact Nat.le_add_right ..
  · rw [h.time he]
    exact Nat.le_succ _

/-- Only iterations which take a tick renew a page. -/
theorem Sim.Move.time_of_renewed (h : s.Move c e s') {v : PageId} (hv : π.renewed e = some v) :
    s'.time = s.time + 1 := by
  refine h.time ?_
  rintro rfl
  cases π <;> cases hv

theorem Policy.Ordered.filter {time : ℕ} {queue : List PageId} (h : π.Ordered ts time queue)
    (P : PageId → Bool) : π.Ordered ts time (queue.filter P) :=
  ⟨h.sorted.filter P, fun v hv => h.pos v (List.mem_filter.1 hv).1, h.le_time⟩

/-- An iteration keeps the queue in order: the page renewed goes to the tail. -/
theorem Policy.Ordered.requeued {queue : List PageId} (h : π.Ordered ts s.time queue)
    (hnd : queue.Nodup) (hm : s.Move c e s') :
    π.Ordered (ts ++ [⟨s, e, s'⟩]) s'.time (π.requeued e queue) := by
  cases he : π.renewed e with
  | none =>
    have hlast (v : PageId) : π.lastRenewal (ts ++ [⟨s, e, s'⟩]) v = π.lastRenewal ts v := by
      rw [Policy.lastRenewal_append, if_neg (by simp [he])]
    rw [Policy.requeued, he]
    exact ⟨by simpa only [hlast] using h.sorted, by simpa only [hlast] using h.pos,
      fun v => (hlast v).trans_le ((h.le_time v).trans hm.time_le)⟩
  | some v =>
    have htime := hm.time_of_renewed he
    have hself : π.lastRenewal (ts ++ [⟨s, e, s'⟩]) v = s'.time := by
      rw [Policy.lastRenewal_append, if_pos he]
    have hother : ∀ u ≠ v, π.lastRenewal (ts ++ [⟨s, e, s'⟩]) u = π.lastRenewal ts u := by
      intro u hu
      rw [Policy.lastRenewal_append, he, if_neg fun h => hu (Option.some.inj h).symm]
    -- The pages before `v` are those of the queue, but for `v` and the victim.
    have hsub : ((e.evicted.elim queue queue.erase).erase v).Sublist queue := by
      refine List.erase_sublist.trans ?_
      cases e.evicted with
      | none => exact .refl _
      | some u => exact List.erase_sublist
    have hne : ∀ u ∈ (e.evicted.elim queue queue.erase).erase v, u ≠ v := by
      have hnd' : (e.evicted.elim queue queue.erase).Nodup := by
        cases e.evicted with
        | none => exact hnd
        | some u => exact hnd.erase u
      exact fun u hu => (hnd'.mem_erase_iff.1 hu).1
    rw [Policy.requeued, he]
    refine ⟨List.pairwise_append.2 ⟨?_, List.pairwise_singleton _ _, fun u hu w hw => ?_⟩,
      fun u hu => ?_, fun u => ?_⟩
    · refine (h.sorted.sublist hsub).imp_of_mem fun {u w} hu hw hlt => ?_
      rwa [hother u (hne u hu), hother w (hne w hw)]
    · rw [List.mem_singleton.1 hw, hself, hother u (hne u hu), htime]
      exact Nat.lt_succ_of_le (h.le_time u)
    · rcases List.mem_append.1 hu with hu | hu
      · rw [hother u (hne u hu)]
        exact h.pos u (hsub.subset hu)
      · rw [List.mem_singleton.1 hu, hself, htime]
        exact Nat.succ_pos _
    · by_cases huv : u = v
      · rw [huv, hself]
      · rw [hother u huv]
        exact (h.le_time u).trans hm.time_le

/-- In any run, the queue is in the order of the renewals. -/
theorem Setup.queue_ordered (hπ : ∀ rep, ∃ q, π.pageQueue rep = some q)
    (h₀ : c.start π.replace = .ok s₀) (h : (c.machine π.replace).Run s₀ ts s) :
    ∃ q, π.pageQueue s.pager.rep = some q ∧ π.Ordered ts s.time q.queue := by
  refine Setup.run_invariant (J := fun ts s => ∃ q, π.pageQueue s.pager.rep = some q ∧
    π.Ordered ts s.time q.queue) h₀ h ?_ fun ts s e s' hs ⟨q, hq, ho⟩ hm => ?_
  · obtain ⟨ps, -, rfl⟩ := Setup.start_eq h₀
    obtain ⟨q, hq⟩ := hπ (Sim.init π.replace c ps).pager.rep
    have hempty : q.queue = [] := Policy.queue_init hq
    exact ⟨q, hq, by rw [hempty]; exact ⟨.nil, nofun, fun v => Nat.zero_le _⟩⟩
  · have hw := hs.wellFormed
    obtain ⟨q', hq', hqueue⟩ := hm.queue_eq hw hq
    exact ⟨q', hq', hqueue ▸ (ho.requeued (π.tracks hw.pager.tracks hq).nodup hm).filter _⟩

/-- In any run, the queue lists the resident pages in the order of their renewals, and
    the victim is the one renewed longest ago. -/
theorem Setup.queue_recency (hπ : ∀ rep, ∃ q, π.pageQueue rep = some q)
    (h₀ : c.start π.replace = .ok s₀) (h : (c.machine π.replace).Run s₀ ts s) :
    ∃ q, π.pageQueue s.pager.rep = some q ∧
      q.queue.Pairwise (fun u v => π.lastRenewal ts u < π.lastRenewal ts v) ∧
      (∀ v, v ∈ q.queue ↔ s.pager.mem.live v = true ∧ (s.pager.mem.vpages v).inMemory = true) ∧
      (∀ v ∈ q.queue, 0 < π.lastRenewal ts v) ∧
      (s.tick.ioDue = true → s.tick.pager.mem.hasFreePage = false → ∃ ppn v rep,
        π.replace.getPageToEvict c.ndebug s.tick.pager.mem s.tick.pager.rep = .ok (ppn, rep) ∧
        s.tick.pager.mem.memory ppn = some v ∧
        ∀ u, s.tick.pager.mem.live u = true → (s.tick.pager.mem.vpages u).inMemory = true →
          u ≠ v → π.lastRenewal ts v < π.lastRenewal ts u) := by
  have hs := (Setup.Reachable.of_run h₀ h).wellFormed
  obtain ⟨q, hq, ho⟩ := Setup.queue_ordered hπ h₀ h
  have ht := π.tracks hs.pager.tracks hq
  refine ⟨q, hq, ho.sorted, ht.mem_queue, ho.pos, fun _ hfull => ?_⟩
  rw [Sim.tick_pager] at hfull ⊢
  obtain ⟨ppn, v, rep, hok, hv, -⟩ := ReplaceModule.Lawful.getPageToEvict_ok c.ndebug hs.pager.mem
    hs.pager.tracks (hs.memSize ▸ c.frames_pos) hfull
  obtain ⟨v', q', -, hqueue, hv'⟩ := π.dequeues hs.pager.mem hs.pager.tracks hq hok
  obtain rfl : v = v' := Option.some.inj (hv.symm.trans hv')
  refine ⟨ppn, v, rep, hok, hv, fun u hl hm hne => ?_⟩
  have hmem := (ht.mem_queue u).2 ⟨hl, hm⟩
  have hsorted := ho.sorted
  rw [hqueue] at hmem hsorted
  exact (List.pairwise_cons.1 hsorted).1 u ((List.mem_cons.1 hmem).resolve_left hne)

/-- In LRU, at the head of the loop, the queue lists the resident pages, all of them
    touched before, from the one touched longest ago to the one touched last; and
    whenever a victim is asked for, the module names the frame of the resident page
    touched longest ago. -/
theorem lru_evicts_least_recent (c : Setup) {s₀ s : Sim Policy.lru.replace}
    {ts : List (Machine.Transition (Sim Policy.lru.replace) Event)}
    (h₀ : c.start Policy.lru.replace = .ok s₀)
    (h : (c.machine Policy.lru.replace).Run s₀ ts s) :
    (PageQueue.queue s.pager.rep).Pairwise (fun u v => lastTouch ts u < lastTouch ts v) ∧
    (∀ v, v ∈ PageQueue.queue s.pager.rep ↔
      s.pager.mem.live v = true ∧ (s.pager.mem.vpages v).inMemory = true) ∧
    (∀ v ∈ PageQueue.queue s.pager.rep, 0 < lastTouch ts v) ∧
    (s.tick.ioDue = true → s.tick.pager.mem.hasFreePage = false → ∃ ppn v rep,
      Policy.lru.replace.getPageToEvict c.ndebug s.tick.pager.mem s.tick.pager.rep =
        .ok (ppn, rep) ∧
      s.tick.pager.mem.memory ppn = some v ∧
      ∀ u, s.tick.pager.mem.live u = true → (s.tick.pager.mem.vpages u).inMemory = true →
        u ≠ v → lastTouch ts v < lastTouch ts u) := by
  have hqueue (rep : Policy.lru.replace.State) : ∃ q, Policy.lru.pageQueue rep = some q :=
    ⟨rep, rfl⟩
  obtain ⟨q, hq, hspec⟩ := Setup.queue_recency hqueue h₀ h
  obtain rfl := Option.some.inj hq
  exact hspec

/-- As many pages as there are frames, the first of which is referenced again before a
    page more. -/
def Setup.revisited : Setup :=
  .debug 1 32 ((List.range 32 ++ [0, 32]).flatMap fun n =>
    '1' :: ' ' :: (Nat.toDigits 10 n ++ ['\n'])) Nat.one_pos Setup.word_pos

/-- It is then the second page that goes. -/
theorem lru_evicts_least_recent_revisited : ∃ s₀ ts s,
    Setup.revisited.start Policy.lru.replace = .ok s₀ ∧
      (Setup.revisited.machine Policy.lru.replace).Run s₀ ts s ∧ ∃ ppn rep,
        Policy.lru.replace.getPageToEvict false s.tick.pager.mem s.tick.pager.rep = .ok (ppn, rep) ∧
        s.tick.pager.mem.memory ppn = some 1 ∧ lastTouch ts 1 < lastTouch ts 0 := by
  obtain ⟨s₀, ts, s, h₀, h, -, hs⟩ := Setup.exists_run_of_after (R := Policy.lru.replace)
    (c := .revisited) (n := 98) (P := fun s => s.tick.ioDue && !s.tick.pager.mem.hasFreePage &&
      (s.tick.pager.mem.live 0 && (s.tick.pager.mem.vpages 0).inMemory) &&
      ((Policy.lru.replace.getPageToEvict false s.tick.pager.mem s.tick.pager.rep).toOption.any
        fun r => s.tick.pager.mem.memory r.1 == some 1)) (by decide +kernel)
  simp only [Bool.and_eq_true, Bool.not_eq_true'] at hs
  obtain ⟨⟨⟨hd, hfull⟩, hl, hm⟩, hvictim⟩ := hs
  obtain ⟨-, -, -, hev⟩ := lru_evicts_least_recent .revisited h₀ h
  obtain ⟨ppn, v, rep, hok, hv, hall⟩ := hev hd hfull
  obtain rfl : v = 1 := by
    rw [show Setup.revisited.ndebug = false from rfl] at hok
    rw [hok, Except.toOption, Option.any_some, hv] at hvictim
    simpa using hvictim
  exact ⟨s₀, ts, s, h₀, h, ppn, rep, hok, hv, hall 0 hl hm (by decide)⟩

/-- In FIFO, at the head of the loop, the queue lists the resident pages, all of them
    loaded before, from the one loaded longest ago to the one loaded last, whatever the
    hits in between; and whenever a victim is asked for, the module names the frame of
    the resident page whose last load is the earliest. -/
theorem fifo_evicts_oldest (c : Setup) {s₀ s : Sim Policy.fifo.replace}
    {ts : List (Machine.Transition (Sim Policy.fifo.replace) Event)}
    (h₀ : c.start Policy.fifo.replace = .ok s₀)
    (h : (c.machine Policy.fifo.replace).Run s₀ ts s) :
    (PageQueue.queue s.pager.rep).Pairwise (fun u v => lastLoad ts u < lastLoad ts v) ∧
    (∀ v, v ∈ PageQueue.queue s.pager.rep ↔
      s.pager.mem.live v = true ∧ (s.pager.mem.vpages v).inMemory = true) ∧
    (∀ v ∈ PageQueue.queue s.pager.rep, 0 < lastLoad ts v) ∧
    (s.tick.ioDue = true → s.tick.pager.mem.hasFreePage = false → ∃ ppn v rep,
      Policy.fifo.replace.getPageToEvict c.ndebug s.tick.pager.mem s.tick.pager.rep =
        .ok (ppn, rep) ∧
      s.tick.pager.mem.memory ppn = some v ∧
      ∀ u, s.tick.pager.mem.live u = true → (s.tick.pager.mem.vpages u).inMemory = true →
        u ≠ v → lastLoad ts v < lastLoad ts u) := by
  have hqueue (rep : Policy.fifo.replace.State) : ∃ q, Policy.fifo.pageQueue rep = some q :=
    ⟨rep, rfl⟩
  obtain ⟨q, hq, hspec⟩ := Setup.queue_recency hqueue h₀ h
  obtain rfl := Option.some.inj hq
  exact hspec

/-- The first page, although referenced again, goes first. -/
theorem fifo_evicts_oldest_revisited : ∃ s₀ ts s,
    Setup.revisited.start Policy.fifo.replace = .ok s₀ ∧
      (Setup.revisited.machine Policy.fifo.replace).Run s₀ ts s ∧ ∃ ppn rep,
        Policy.fifo.replace.getPageToEvict false s.tick.pager.mem s.tick.pager.rep =
          .ok (ppn, rep) ∧
        s.tick.pager.mem.memory ppn = some 0 ∧ lastLoad ts 0 < lastLoad ts 1 := by
  obtain ⟨s₀, ts, s, h₀, h, -, hs⟩ := Setup.exists_run_of_after (R := Policy.fifo.replace)
    (c := .revisited) (n := 98) (P := fun s => s.tick.ioDue && !s.tick.pager.mem.hasFreePage &&
      (s.tick.pager.mem.live 1 && (s.tick.pager.mem.vpages 1).inMemory) &&
      ((Policy.fifo.replace.getPageToEvict false s.tick.pager.mem s.tick.pager.rep).toOption.any
        fun r => s.tick.pager.mem.memory r.1 == some 0)) (by decide +kernel)
  simp only [Bool.and_eq_true, Bool.not_eq_true'] at hs
  obtain ⟨⟨⟨hd, hfull⟩, hl, hm⟩, hvictim⟩ := hs
  obtain ⟨-, -, -, hev⟩ := fifo_evicts_oldest .revisited h₀ h
  obtain ⟨ppn, v, rep, hok, hv, hall⟩ := hev hd hfull
  obtain rfl : v = 0 := by
    rw [show Setup.revisited.ndebug = false from rfl] at hok
    rw [hok, Except.toOption, Option.any_some, hv] at hvictim
    simpa using hvictim
  exact ⟨s₀, ts, s, h₀, h, ppn, rep, hok, hv, hall 1 hl hm (by decide)⟩

end Pfsim
