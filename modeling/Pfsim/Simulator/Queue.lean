import Pfsim.Simulator.Frames

/-!
# The replacement queue

LRU and FIFO keep a queue of the resident pages. An iteration takes the victim off
it, if there is one, puts the page it *renews* at the tail, and drops the pages
freed, the rest staying in order (`Sim.Move.queue_eq`). In both modules a load
renews the page; in LRU a hit does too.
-/

namespace Pfsim

/-- The page loaded in an iteration. -/
def Event.loaded : Event → Option PageId
  | completion _ v _ _ => some v
  | _ => none

/-- The page loaded or hit in an iteration. -/
def Event.touched : Event → Option PageId
  | completion _ v _ _ => some v
  | hit r => some r.v
  | _ => none

/-- The page evicted in an iteration. -/
def Event.evicted : Event → Option PageId
  | completion _ _ _ victim => victim
  | _ => none

namespace Policy

/-- The page an iteration puts at the tail of the queue. -/
def renewed : Policy → Event → Option PageId
  | lru => Event.touched
  | _ => Event.loaded

/-- The queue after an iteration, but for the pages freed. -/
def requeued (π : Policy) (e : Event) (queue : List PageId) : List PageId :=
  match π.renewed e with
  | none => queue
  | some v => (e.evicted.elim queue queue.erase).erase v ++ [v]

variable {π : Policy} {ndebug : Bool} {m : Memory} {rep rep' : π.replace.State} {q : PageQueue}
  {v : PageId} {queue : List PageId}

/-- A load renews its page, in both modules. -/
theorem requeued_completion {p : ProcId} {ppn : ℕ} {victim : Option PageId} :
    π.requeued (.completion p v ppn victim) queue =
      (victim.elim queue queue.erase).erase v ++ [v] := by
  cases π <;> rfl

theorem requeued_idle : π.requeued .idle queue = queue := by cases π <;> rfl

theorem requeued_miss {r : Reference} : π.requeued (.miss r) queue = queue := by cases π <;> rfl

/-- Without the page hit, a hit leaves the queue as it was. -/
theorem filter_requeued_hit {r : Reference} {P : PageId → Bool} (hnd : queue.Nodup)
    (hP : P r.v = false) : (π.requeued (.hit r) queue).filter P = queue.filter P := by
  have hlru : (queue.erase r.v ++ [r.v]).filter P = queue.filter P := by
    rw [List.filter_append, List.filter_singleton, hP, hnd.erase_eq_filter, List.filter_filter]
    refine (List.append_nil _).trans (List.filter_congr fun u _ => ?_)
    by_cases hu : u = r.v <;> simp [hu, hP]
  cases π with
  | lru => exact hlru
  | fifo | clock | random => rfl

theorem queue_init {n : ℕ} (hq : π.pageQueue (π.replace.initReplacementModule n) = some q) :
    q.queue = [] := by
  cases π with
  | lru | fifo =>
    obtain rfl := Option.some.inj hq
    rfl
  | clock | random => cases hq

theorem queue_initOverhead (hq : π.pageQueue rep = some q) (v : PageId) :
    ∃ q', π.pageQueue (π.replace.initOverhead rep v).1 = some q' ∧ q'.queue = q.queue := by
  cases π with
  | lru | fifo =>
    obtain rfl := Option.some.inj hq
    exact ⟨_, rfl, rfl⟩
  | clock | random => cases hq

theorem queue_access {r : Reference} (hq : π.pageQueue rep = some q)
    (h : π.replace.notifyPageAccess ndebug m rep (some r.v) = .ok rep') :
    ∃ q', π.pageQueue rep' = some q' ∧ q'.queue = π.requeued (.hit r) q.queue := by
  cases π with
  | lru =>
    obtain rfl := Option.some.inj hq
    exact ⟨rep', rfl, PageQueue.queue_of_moveToTail h⟩
  | fifo =>
    obtain rfl := Option.some.inj hq
    exact ⟨rep, congrArg some (Except.ok.inj h).symm, rfl⟩
  | clock | random => cases hq

theorem queue_load (hq : π.pageQueue rep = some q)
    (h : π.replace.notifyPageLoad ndebug m rep (some v) = .ok rep') :
    ∃ q', π.pageQueue rep' = some q' ∧ q'.queue = q.queue ++ [v] := by
  cases π with
  | lru | fifo =>
    obtain rfl := Option.some.inj hq
    exact ⟨rep', rfl, PageQueue.queue_of_notifyPageLoad h⟩
  | clock | random => cases hq

theorem queue_release (hm : m.WellFormed) (ht : ReplaceModule.Lawful.Tracks m rep)
    (hq : π.pageQueue rep = some q) (hl : m.live v = true)
    (h : π.replace.releaseOverhead ndebug rep (m.vpages v).overhead = .ok rep') :
    ∃ q', π.pageQueue rep' = some q' ∧ q'.queue = q.queue.erase v := by
  have ht := π.tracks ht hq
  rw [ReplaceModule.releaseOverhead, if_neg (by simp [ht.overhead v hl])] at h
  obtain ⟨q', hok, hqueue, -⟩ := ht.freeOverhead_ok ndebug hm hl
  cases π with
  | lru | fifo =>
    obtain rfl := Option.some.inj hq
    obtain rfl := Except.ok.inj (hok.symm.trans h)
    exact ⟨q', rfl, hqueue⟩
  | clock | random => cases hq

/-- Freeing pages, in any order, takes them off the queue. -/
theorem queue_freeAll {vs : List PageId} {pg pg' : Pager π.replace} (h : pg.WellFormed)
    (hnd : vs.Nodup) (hl : ∀ v ∈ vs, pg.mem.live v = true)
    (hf : pg.freeAll ndebug vs = .ok pg') (hq : π.pageQueue pg.rep = some q) :
    ∃ q', π.pageQueue pg'.rep = some q' ∧ q'.queue = q.queue.filter (· ∉ vs) := by
  induction vs generalizing pg q with
  | nil =>
    obtain rfl := Except.ok.inj hf
    exact ⟨q, hq, by simp⟩
  | cons v vs ih =>
    obtain ⟨hv, hnd⟩ := List.nodup_cons.1 hnd
    obtain ⟨rep, hrel, hok, hw⟩ := Pager.freeVPage_ok ndebug h (hl v List.mem_cons_self)
    rw [Pager.freeAll, hok, ok_bind] at hf
    obtain ⟨q₁, hq₁, hqueue⟩ := queue_release h.mem h.tracks hq (hl v List.mem_cons_self) hrel
    have hl' : ∀ u ∈ vs, ((pg.mem.dropped v).freePage v).live u = true := fun u hu =>
      ((Pager.freed_single pg v rep).live u).2
        ⟨hl u (List.mem_cons_of_mem v hu), fun e => hv (List.mem_singleton.1 e ▸ hu)⟩
    obtain ⟨q', hq', hfilter⟩ := ih hw hnd hl' hf hq₁
    refine ⟨q', hq', ?_⟩
    rw [hfilter, hqueue, ((π.tracks h.tracks hq).nodup).erase_eq_filter, List.filter_filter]
    refine List.filter_congr fun u _ => ?_
    by_cases huv : u = v <;> simp [huv]

end Policy

namespace Sim

variable {π : Policy} {c : Setup} {s s' u : Sim π.replace} {e : Event} {r : Reference}
  {q : PageQueue}

theorem Reads.pageQueue (h : s.Reads c r u) (hq : π.pageQueue s.pager.rep = some q) :
    ∃ q', π.pageQueue u.pager.rep = some q' ∧ q'.queue = q.queue := by
  obtain ⟨rest, -, rfl⟩ := h.scan
  have hpager : (s.tick.reading c r.p r.pid rest).pager = s.pager := tick_pager
  rw [paged]
  split
  · exact ⟨q, by rwa [hpager], rfl⟩
  · rw [hpager, Pager.newVPage]
    dsimp only
    split
    · exact Policy.queue_initOverhead hq _
    · exact ⟨q, hq, rfl⟩

/-- The accounted hit, in the queue. -/
theorem Reads.queue_accessed {rep : π.replace.State} (h : s.Reads c r u) (hs : s.WellFormed c)
    (hm : u.pager.mem.Resident r.v)
    (ha : π.replace.notifyPageAccess c.ndebug u.pager.mem u.pager.rep
      (u.pager.mem.vpages r.v).overhead = .ok rep) (hq : π.pageQueue s.pager.rep = some q) :
    ∃ q', π.pageQueue rep = some q' ∧ q'.queue = π.requeued (.hit r) q.queue := by
  obtain ⟨q₁, hq₁, hqueue⟩ := h.pageQueue hq
  have ht := π.tracks (h.wellFormed hs).pager.tracks hq₁
  rw [ht.overhead r.v hm.1] at ha
  rw [← hqueue]
  exact Policy.queue_access hq₁ ha

/-- The pages queued are live. -/
theorem WellFormed.filter_queue (hs : s.WellFormed c) (hq : π.pageQueue s.pager.rep = some q) :
    q.queue.filter s.pager.mem.live = q.queue :=
  List.filter_eq_self.2 fun v hv => (((π.tracks hs.pager.tracks hq).mem_queue v).1 hv).1

/-- The search for a frame takes the victim off the queue. -/
theorem queue_findFrame {ppn : ℕ} {victim : Option PageId} {pg : Pager π.replace}
    (hs : s.WellFormed c) (hf : s.findFrame c = .ok (ppn, victim, pg))
    (hq : π.pageQueue s.pager.rep = some q) : ∃ q', π.pageQueue pg.rep = some q' ∧
      q'.queue = victim.elim q.queue q.queue.erase := by
  rw [findFrame] at hf
  split at hf
  · obtain ⟨ppn', -, hf⟩ := bind_eq_ok.1 hf
    obtain ⟨rfl, rfl, rfl⟩ : ppn' = ppn ∧ none = victim ∧ s.pager = pg := by simpa using hf
    exact ⟨q, hq, rfl⟩
  · obtain ⟨⟨ppn', rep⟩, hget, hf⟩ := bind_eq_ok.1 hf
    obtain ⟨mem, -, hf⟩ := bind_eq_ok.1 hf
    obtain ⟨v, q', hq', hqueue, hv⟩ := π.dequeues hs.pager.mem hs.pager.tracks hq hget
    obtain ⟨rfl, rfl, rfl⟩ : ppn' = ppn ∧ s.pager.mem.memory ppn' = victim ∧ ⟨mem, rep⟩ = pg := by
      simpa using hf
    refine ⟨q', hq', ?_⟩
    rw [hv, Option.elim_some, hqueue, List.erase_cons_head]

/-- What an iteration does to the queue. -/
theorem Move.queue_eq (h : s.Move c e s') (hs : s.WellFormed c)
    (hq : π.pageQueue s.pager.rep = some q) : ∃ q', π.pageQueue s'.pager.rep = some q' ∧
      q'.queue = (π.requeued e q.queue).filter s'.pager.mem.live := by
  have hs' := h.wellFormed hs
  -- But for the end of a process, no page is freed.
  suffices hkey : (∃ q', π.pageQueue s'.pager.rep = some q' ∧
      q'.queue = π.requeued e q.queue) ∨ ∃ q', π.pageQueue s'.pager.rep = some q' ∧
        q'.queue = (π.requeued e q.queue).filter s'.pager.mem.live by
    rcases hkey with ⟨q', hq', hqueue⟩ | hkey
    · exact ⟨q', hq', by rw [← hqueue, hs'.filter_queue hq']⟩
    · exact hkey
  cases h with
  | @completion p bs v ppn victim pg rep hp hw hv hf hl =>
    refine .inl ?_
    obtain ⟨hlive, -, hr⟩ := hs.awaited (hp ▸ List.mem_cons_self) hv
    have hfr := findFrame_ok hs hf
    obtain ⟨q₁, hq₁, hqueue⟩ := queue_findFrame hs hf hq
    have ht := π.tracks hfr.wellFormed.tracks hq₁
    rw [ht.overhead v ((hfr.keeps v).live.trans hlive)] at hl
    obtain ⟨q', hq', hload⟩ := Policy.queue_load hq₁ hl
    -- The page loaded was not in memory, thus not in the queue.
    have hnot : v ∉ q₁.queue := fun hmem => hr ((hfr.keeps v).resident ((ht.mem_queue v).1 hmem))
    refine ⟨q', hq', ?_⟩
    rw [Policy.requeued_completion, hload, ← hqueue, List.erase_of_not_mem hnot]
  | @idle b bs =>
    have hpager : (s.tick.skipped b).pager = s.pager := tick_pager
    exact .inl ⟨q, by rwa [hpager], Policy.requeued_idle.symm⟩
  | jump h hm ha => exact .inl (h.queue_accessed hs hm ha hq)
  | next h hm ha => exact .inl (h.queue_accessed hs hm ha hq)
  | @finish r u rep pg h hm ha hl hi hf =>
    obtain ⟨q₁, hq₁, hqueue⟩ := h.queue_accessed hs hm ha hq
    obtain ⟨queue, hr⟩ := h.head
    have hw := (h.wellFormed hs).accessed hm ha
    have hmem : r.p ∈ (u.accessed rep).ps.pq .RUNNABLE := h.pq ▸ hr ▸ List.mem_cons_self
    obtain ⟨hnd, hlive⟩ := hw.destroyed hmem
    obtain ⟨pg', hok, -, hfr⟩ := Pager.freeAll_ok c.ndebug hw.pager hnd hlive
    obtain rfl : pg = pg' := Except.ok.inj (hf.symm.trans hok)
    obtain ⟨q', hq', hfilter⟩ := Policy.queue_freeAll hw.pager hnd hlive hf hq₁
    refine .inr ⟨q', hq', ?_⟩
    rw [hfilter, ← hqueue]
    refine List.filter_congr fun v hv => ?_
    have hv := (((π.tracks hw.pager.tracks hq₁).mem_queue v).1 hv).1
    exact Bool.eq_iff_iff.2 (decide_eq_true_iff.trans
      ((hfr.live v).trans (and_iff_right hv)).symm)
  | miss h =>
    obtain ⟨q₁, hq₁, hqueue⟩ := h.pageQueue hq
    exact .inl ⟨q₁, hq₁, hqueue.trans Policy.requeued_miss.symm⟩

end Sim

end Pfsim
