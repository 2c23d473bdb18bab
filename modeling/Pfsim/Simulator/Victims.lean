import Pfsim.Simulator.Queue
import Pfsim.Simulator.Twin

/-!
# The choice of victims

The victims a policy chooses do not depend on the numbers of the pages, nor on the order
in which pages are freed: two replacement modules of the same policy, told of the same
loads and hits, keep the same queue, or the same reference bits (`Policy.Same`), and name
the same victims.

* `Policy.inStep`, `Policy.agree`: every policy is in step with itself, and agrees with
  itself.
-/

namespace Pfsim

/-- Freeing pages leaves the module as it was, if it does so with each overhead. -/
theorem Pager.rep_of_freeAll {R : ReplaceModule} [R.Lawful] {ndebug : Bool} {vs : List PageId}
    {pg pg' : Pager R} (hR : ∀ (r : R.State) o, R.freeOverhead ndebug r o = .ok r)
    (h : pg.WellFormed) (hnd : vs.Nodup) (hl : ∀ v ∈ vs, pg.mem.live v = true)
    (hf : pg.freeAll ndebug vs = .ok pg') : pg'.rep = pg.rep := by
  induction vs generalizing pg with
  | nil =>
    obtain rfl := Except.ok.inj hf
    rfl
  | cons v vs ih =>
    obtain ⟨hv, hnd⟩ := List.nodup_cons.1 hnd
    obtain ⟨rep, hrel, hok, hw⟩ := Pager.freeVPage_ok ndebug h (hl v List.mem_cons_self)
    rw [Pager.freeAll, hok, ok_bind] at hf
    have hrep : rep = pg.rep := by
      rw [ReplaceModule.releaseOverhead, hR, ite_self] at hrel
      exact (Except.ok.inj hrel).symm
    have hl' : ∀ u ∈ vs, ((pg.mem.dropped v).freePage v).live u = true := fun u hu =>
      ((Pager.freed_single pg v rep).live u).2
        ⟨hl u (List.mem_cons_of_mem v hu), fun e => hv (List.mem_singleton.1 e ▸ hu)⟩
    exact (ih hw hnd hl' hf).trans hrep

namespace Policy

/-- The states of two modules of a policy, the same as far as victims are concerned. -/
def Same : (π : Policy) → π.replace.State → π.replace.State → Prop
  | lru, q, q' => PageQueue.queue q' = PageQueue.queue q
  | fifo, q, q' => PageQueue.queue q' = PageQueue.queue q
  | clock, c, c' => c' = c
  | random _, r, r' => r' = r

variable {f : ℕ → ℕ} {ndebug : Bool} {π : Policy}

/-- The queues are the same. -/
theorem same_iff {rep rep' : π.replace.State} {q q' : PageQueue} (hq : π.pageQueue rep = some q)
    (hq' : π.pageQueue rep' = some q') : π.Same rep rep' ↔ q'.queue = q.queue := by
  cases π with
  | lru | fifo =>
    obtain rfl := Option.some.inj hq
    obtain rfl := Option.some.inj hq'
    rfl
  | clock | random => cases hq

/-- A hit of the same page. -/
theorem same_access {pg pg' : Pager π.replace} {v : PageId} {r r' : π.replace.State}
    (h : pg.WellFormed) (h' : pg'.WellFormed) (ht : pg.Twin f π.Same pg') (hv : pg.mem.Resident v)
    (hr : π.replace.notifyPageAccess ndebug pg.mem pg.rep (pg.mem.vpages v).overhead = .ok r)
    (hr' : π.replace.notifyPageAccess ndebug pg'.mem pg'.rep (pg'.mem.vpages v).overhead = .ok r') :
    π.Same r r' := by
  have hl : pg'.mem.live v = true := (congrFun ht.mem.live v).trans hv.1
  have hrep := ht.rep
  cases π with
  | lru =>
    -- The node of the page is moved to the tail of both queues.
    have hk : PageQueue.Tracks pg.mem pg.rep := h.tracks
    have hk' : PageQueue.Tracks pg'.mem pg'.rep := h'.tracks
    rw [hk.overhead v hv.1] at hr
    rw [hk'.overhead v hl] at hr'
    have e := PageQueue.queue_of_moveToTail hr
    have e' := PageQueue.queue_of_moveToTail hr'
    change PageQueue.queue pg'.rep = PageQueue.queue pg.rep at hrep
    rw [hrep] at e'
    exact e'.trans e.symm
  | fifo | random =>
    obtain rfl := Except.ok.inj hr
    obtain rfl := Except.ok.inj hr'
    exact hrep
  | clock =>
    -- The bit set is that of its frame.
    have hk : Clock.Tracks pg.mem pg.rep := h.tracks
    have hk' : Clock.Tracks pg'.mem pg'.rep := h'.tracks
    rw [hk.overhead v hv.1] at hr
    rw [hk'.overhead v hl] at hr'
    have e := Clock.eq_of_notifyPageAccess hr
    have e' := Clock.eq_of_notifyPageAccess hr'
    change pg'.rep = pg.rep at hrep
    rw [hrep, ht.mem.currentPPN v hv.1] at e'
    exact e'.trans e.symm

/-- A load of the same page, in the same frame. -/
theorem same_load {pg pg' : Pager π.replace} {v : PageId} {ppn : ℕ} {r r' : π.replace.State}
    (h : pg.WellFormed) (h' : pg'.WellFormed) (ht : pg.Twin f π.Same pg')
    (hv : pg.mem.live v = true)
    (hr : π.replace.notifyPageLoad ndebug (pg.mem.loaded v ppn) pg.rep
      (pg.mem.vpages v).overhead = .ok r)
    (hr' : π.replace.notifyPageLoad ndebug (pg'.mem.loaded v ppn) pg'.rep
      (pg'.mem.vpages v).overhead = .ok r') : π.Same r r' := by
  have hl : pg'.mem.live v = true := (congrFun ht.mem.live v).trans hv
  have hrep := ht.rep
  cases π with
  | lru | fifo =>
    have hk : PageQueue.Tracks pg.mem pg.rep := h.tracks
    have hk' : PageQueue.Tracks pg'.mem pg'.rep := h'.tracks
    rw [hk.overhead v hv] at hr
    rw [hk'.overhead v hl] at hr'
    have e := PageQueue.queue_of_notifyPageLoad hr
    have e' := PageQueue.queue_of_notifyPageLoad hr'
    change PageQueue.queue pg'.rep = PageQueue.queue pg.rep at hrep
    rw [hrep] at e'
    exact e'.trans e.symm
  | clock =>
    have hk : Clock.Tracks pg.mem pg.rep := h.tracks
    have hk' : Clock.Tracks pg'.mem pg'.rep := h'.tracks
    rw [hk.overhead v hv] at hr
    rw [hk'.overhead v hl] at hr'
    have e := Clock.eq_of_notifyPageAccess hr
    have e' := Clock.eq_of_notifyPageAccess hr'
    -- The frame is the one the page has just been loaded in.
    have hppn (m : Memory) : ((m.loaded v ppn).vpages v).currentPPN = ppn := by
      simp [Memory.loaded]
    change pg'.rep = pg.rep at hrep
    rw [hrep, hppn] at e'
    rw [hppn] at e
    exact e'.trans e.symm
  | random =>
    obtain rfl := Except.ok.inj hr
    obtain rfl := Except.ok.inj hr'
    exact hrep

/-- The same pages freed, in different orders. -/
theorem same_freeAll {pg p₁ pg' p₁' : Pager π.replace} {vs vs' : List PageId}
    (h : pg.WellFormed) (h' : pg'.WellFormed) (ht : pg.Twin f π.Same pg') (hnd : vs.Nodup)
    (hperm : vs.Perm vs') (hl : ∀ v ∈ vs, pg.mem.live v = true)
    (hf : pg.freeAll ndebug vs = .ok p₁) (hf' : pg'.freeAll ndebug vs' = .ok p₁') :
    π.Same p₁.rep p₁'.rep := by
  have hnd' : vs'.Nodup := hperm.nodup_iff.1 hnd
  have hl' : ∀ v ∈ vs', pg'.mem.live v = true := fun v hv => by
    rw [ht.mem.live]
    exact hl v (hperm.mem_iff.2 hv)
  have hrep := ht.rep
  cases π with
  | lru | fifo =>
    obtain ⟨q, hq, hqueue⟩ := queue_freeAll h hnd hl hf rfl
    obtain ⟨q', hq', hqueue'⟩ := queue_freeAll h' hnd' hl' hf' rfl
    refine (same_iff hq hq').2 ?_
    change PageQueue.queue pg'.rep = PageQueue.queue pg.rep at hrep
    rw [hqueue', hqueue, hrep]
    exact List.filter_congr fun v _ => decide_eq_decide.2 (not_congr hperm.mem_iff.symm)
  | clock | random =>
    have e := Pager.rep_of_freeAll (fun _ _ => rfl) h hnd hl hf
    have e' := Pager.rep_of_freeAll (fun _ _ => rfl) h' hnd' hl' hf'
    exact e'.trans (Eq.trans hrep e.symm)

/-- A policy is in step with itself. -/
theorem inStep (π : Policy) (ndebug : Bool) (f : ℕ → ℕ) :
    ReplaceModule.InStep ndebug f π.Same where
  init n := by cases π <;> rfl
  new v h := by cases π <;> exact h
  access := same_access
  load := same_load
  freeAll := same_freeAll

/-- It names the same victim. -/
theorem agree (π : Policy) (ndebug : Bool) (f : ℕ → ℕ) : ReplaceModule.Agree ndebug f π.Same := by
  intro pg pg' ppn ppn' r r' h h' ht hfull hr hr'
  have hfull' : pg'.mem.hasFreePage = false := (ht.mem.hasFreePage h.mem h'.mem).trans hfull
  have hrep := ht.rep
  cases π with
  | lru | fifo =>
    have hk : PageQueue.Tracks pg.mem pg.rep := h.tracks
    have hk' : PageQueue.Tracks pg'.mem pg'.rep := h'.tracks
    -- Both name the frame of the head of their queue, which is in it only.
    obtain ⟨v, hqueue, hv⟩ := hk.eq_cons_of_getPageToEvict h.mem hr
    obtain ⟨v', hqueue', hv'⟩ := hk'.eq_cons_of_getPageToEvict h'.mem hr'
    change PageQueue.queue pg'.rep = PageQueue.queue pg.rep at hrep
    rw [hqueue', hqueue] at hrep
    obtain ⟨rfl, hrest⟩ := List.cons.inj hrep
    rw [ht.mem.memory] at hv'
    exact ⟨h.mem.frame_unique hv' hv, hrest⟩
  | clock =>
    have hk : Clock.Tracks pg.mem pg.rep := h.tracks
    have hk' : Clock.Tracks pg'.mem pg'.rep := h'.tracks
    have e := (hk.getPageToEvict_eq h.mem hfull).symm.trans hr
    have e' := (hk'.getPageToEvict_eq h'.mem hfull').symm.trans hr'
    change pg'.rep = pg.rep at hrep
    rw [hrep, e] at e'
    obtain ⟨rfl, rfl⟩ := Prod.mk.inj (Except.ok.inj e')
    exact ⟨rfl, rfl⟩
  | random rand =>
    change pg'.rep = pg.rep at hrep
    rw [hrep] at hr'
    have e : (ppn, r) = (ppn', r') := Except.ok.inj (hr.symm.trans hr')
    obtain ⟨rfl, rfl⟩ := Prod.mk.inj e
    exact ⟨rfl, rfl⟩

end Policy

end Pfsim
