import Pfsim.Process.WellFormed
import Pfsim.Simulator

/-!
# Well-formed simulators

What holds of the simulator at all times (`Sim.WellFormed`), besides its
processes and its memory being well formed: every process owns the pages of its
page table (`Process.Settled`), a blocked one waits for one of them, which is
not in memory, and a runnable one waits for nothing.

An operation of the simulator works on a single process, and leaves the pages of
the others as they are, except for evicting them. This is why they remain as
they should be (`Sim.WellFormed.update`).
-/

namespace Pfsim

namespace Memory

variable {m : Memory} {u v : PageId} {ppn pid vpn : ℕ} {o : Option PageId}

@[simp] theorem pid_evicted : ((m.evicted ppn u).vpages v).pid = (m.vpages v).pid := by
  by_cases h : v = u <;> simp [evicted, h]

@[simp] theorem vpn_evicted : ((m.evicted ppn u).vpages v).vpn = (m.vpages v).vpn := by
  by_cases h : v = u <;> simp [evicted, h]

@[simp] theorem pid_loaded : ((m.loaded u ppn).vpages v).pid = (m.vpages v).pid := by
  by_cases h : v = u <;> simp [loaded, h]

@[simp] theorem vpn_loaded : ((m.loaded u ppn).vpages v).vpn = (m.vpages v).vpn := by
  by_cases h : v = u <;> simp [loaded, h]

@[simp] theorem overhead_loaded :
    ((m.loaded u ppn).vpages v).overhead = (m.vpages v).overhead := by
  by_cases h : v = u <;> simp [loaded, h]

@[simp] theorem overhead_evicted :
    ((m.evicted ppn u).vpages v).overhead = (m.vpages v).overhead := by
  by_cases h : v = u <;> simp [evicted, h]

theorem live_newPage : (m.newPage pid vpn o).live v = if v = m.nextPage then true else m.live v :=
  Function.update_apply ..

theorem vpages_newPage : (m.newPage pid vpn o).vpages v =
    if v = m.nextPage then ⟨vpn, pid, o, false, 0⟩ else m.vpages v :=
  Function.update_apply ..

/-- The page `v` in `m'` is what it was in `m`, or has been evicted. -/
structure Keeps (m m' : Memory) (v : PageId) : Prop where
  live : m'.live v = m.live v
  pid : (m'.vpages v).pid = (m.vpages v).pid
  vpn : (m'.vpages v).vpn = (m.vpages v).vpn
  resident : m'.Resident v → m.Resident v

theorem Keeps.refl (m : Memory) (v : PageId) : m.Keeps m v := ⟨rfl, rfl, rfl, id⟩

theorem Keeps.trans {m' m'' : Memory} (h : m.Keeps m' v) (h' : m'.Keeps m'' v) : m.Keeps m'' v :=
  ⟨h'.live.trans h.live, h'.pid.trans h.pid, h'.vpn.trans h.vpn, h.resident ∘ h'.resident⟩

/-- Eviction leaves all pages in place. -/
theorem keeps_evicted : m.Keeps (m.evicted ppn u) v :=
  ⟨rfl, pid_evicted, vpn_evicted, fun h => (resident_evicted.1 h).1⟩

/-- Loading a page leaves the others in place. -/
theorem keeps_loaded (hl : m.live u = true) (hv : v ≠ u) : m.Keeps (m.loaded u ppn) v :=
  ⟨rfl, pid_loaded, vpn_loaded, fun h => ((resident_loaded hl).1 h).resolve_right hv⟩

/-- Making a page leaves the others in place. -/
theorem WellFormed.keeps_newPage (h : m.WellFormed) (hv : m.live v = true) (pid vpn : ℕ)
    (o : Option PageId) :
    m.Keeps (m.newPage pid vpn o) v := by
  have hn : v ≠ m.nextPage := (h.lt_nextPage hv).ne
  exact ⟨by rw [live_newPage, if_neg hn], by rw [vpages_newPage, if_neg hn],
    by rw [vpages_newPage, if_neg hn], (resident_newPage h).1⟩

end Memory

/-- Freeing pages leaves the others in place. -/
theorem Pager.Freed.keeps {R : ReplaceModule} {pg pg' : Pager R} {vs : List PageId} {v : PageId}
    (h : Freed vs pg pg') (hv : v ∉ vs) : pg.mem.Keeps pg'.mem v := by
  have hb : pg'.mem.live v = true ↔ pg.mem.live v = true := by rw [h.live, and_iff_left hv]
  exact ⟨Bool.eq_iff_iff.2 hb, by rw [h.vpages v hv], by rw [h.vpages v hv],
    fun hr => ((h.resident v).1 hr).1⟩

namespace PageTable

variable {pt : PageTable} {vpn : ℕ} {v : PageId}

theorem mem_of_get (h : pt.get vpn = some v) : (vpn, v) ∈ pt := by
  obtain ⟨l, l', rfl, -⟩ := List.lookup_eq_some_iff.1 ((get_eq_lookup pt vpn).symm.trans h)
  simp

/-- A new page is the last of its table. -/
theorem add_eq (h : pt.get vpn = none) : pt.add vpn v = pt ++ [(vpn, v)] := by
  rw [add, h]
  rfl

theorem notMem_of_get (h : pt.get vpn = none) : vpn ∉ pt.map Prod.fst := by
  intro hm
  obtain ⟨⟨k, v⟩, hk, rfl⟩ := List.mem_map.1 hm
  rw [get_eq_lookup] at h
  have := List.lookup_eq_none_iff.1 h _ hk
  simp at this

/-- It is found there. -/
theorem get_add (h : pt.get vpn = none) : (pt.add vpn v).get vpn = some v := by
  rw [add_eq h, get_eq_lookup]
  rw [get_eq_lookup] at h
  exact List.lookup_eq_some_iff.2 ⟨pt, [], rfl, fun p hp => List.lookup_eq_none_iff.1 h p hp⟩

end PageTable

/-- What a process has, and waits for, according to its status. -/
structure Process.Settled (c : Setup) (mem : Memory) (p : Process) : Prop where
  keys : p.status ≠ .FINISHED → (p.pageTable.map Prod.fst).Nodup
  page : p.status ≠ .FINISHED → ∀ {vpn v}, (vpn, v) ∈ p.pageTable →
    mem.live v = true ∧ (mem.vpages v).pid = p.pid ∧ (mem.vpages v).vpn = vpn
  /-- A blocked process waits for the page of the record at its position. -/
  awaits : p.status = .BLOCKED → ∃ pid vpn rest v,
    fscanf simulatorFormat (c.text.drop p.currentPos) = ⟨2, [pid, vpn], rest⟩ ∧
      p.waitingOnPage = some v ∧ p.getVirtualPage vpn = some v ∧ ¬mem.Resident v
  ready : p.status = .RUNNABLE → p.waitTime = 0 ∧ p.waitingOnPage = none

/-- A process is settled whatever happens to the pages of others. -/
theorem Process.Settled.frame {c : Setup} {mem mem' : Memory} {p : Process}
    (h : p.Settled c mem)
    (hk : ∀ v, mem.live v = true → (mem.vpages v).pid = p.pid → mem.Keeps mem' v) :
    p.Settled c mem' where
  keys := h.keys
  page hs vpn v hv := by
    obtain ⟨hl, hp, hvpn⟩ := h.page hs hv
    have := hk v hl hp
    exact ⟨this.live.trans hl, this.pid.trans hp, this.vpn.trans hvpn⟩
  awaits hs := by
    obtain ⟨pid, vpn, rest, v, hscan, hw, hv, hr⟩ := h.awaits hs
    obtain ⟨hl, hp, -⟩ := h.page (by simp [hs]) (PageTable.mem_of_get hv)
    exact ⟨pid, vpn, rest, v, hscan, hw, hv, fun hr' => hr ((hk v hl hp).resident hr')⟩
  ready := h.ready

namespace Sim

variable {R : ReplaceModule} [R.Lawful] {c : Setup} {s s' : Sim R} {p : ProcId}

omit [R.Lawful] in
theorem notDone_eq_false_iff :
    s.notDone = false ↔ s.ps.pq .RUNNABLE = [] ∧ s.ps.pq .BLOCKED = [] := by
  simp [notDone, Processes.existsWithStatus]

omit [R.Lawful] in
/-- When no process is runnable, one is blocked. -/
theorem exists_blocked (hrun : s.notDone = true) (hr : s.ps.pq .RUNNABLE = []) :
    ∃ b bs, s.ps.pq .BLOCKED = b :: bs := by
  refine List.exists_cons_of_ne_nil fun hb => ?_
  rw [notDone_eq_false_iff.2 ⟨hr, hb⟩] at hrun
  cases hrun

/-- The processes and the memory are well formed, and agree. -/
structure WellFormed (c : Setup) (s : Sim R) : Prop where
  ps : s.ps.WellFormed
  pager : s.pager.WellFormed
  memSize : s.pager.mem.memSize = c.frames
  settled : ∀ {p}, p < s.ps.nextProc → (s.ps.procs p).Settled c s.pager.mem

namespace WellFormed

/-- The pages of a process are those with its `pid`. -/
theorem pid_ne (h : s.WellFormed c) {q : ProcId} (hp : p < s.ps.nextProc)
    (hq : q < s.ps.nextProc) (hpq : q ≠ p) : (s.ps.procs q).pid ≠ (s.ps.procs p).pid :=
  fun e => hpq (h.ps.pid_inj hq hp e)

/-- The bit of a frame is set if and only if the frame is occupied. -/
theorem bitIsSet (h : s.WellFormed c) {ppn : ℕ} (hlt : ppn < 32 * (c.frames / 32)) :
    s.pager.mem.bitIsSet ppn = (s.pager.mem.memory ppn).isSome := by
  rw [Memory.bitIsSet_eq, h.pager.mem.bit (by rwa [Memory.tracked, h.memSize])]

/-- An occupied frame has a bit. -/
theorem frame_lt (h : s.WellFormed c) {ppn : ℕ} {v : PageId}
    (hv : s.pager.mem.memory ppn = some v) : ppn < 32 * (c.frames / 32) := by
  have hlt := h.pager.mem.frame_lt hv
  rwa [Memory.tracked, h.memSize] at hlt

/-- An operation on the process `p`: the other processes are left alone, and
    their pages too, except for evictions. -/
theorem update (h : s.WellFormed c) (hps : s'.ps.WellFormed) (hpager : s'.pager.WellFormed)
    (hsize : s'.pager.mem.memSize = s.pager.mem.memSize)
    (hn : s'.ps.nextProc = s.ps.nextProc) (hp : p < s.ps.nextProc)
    (hothers : ∀ q ≠ p, s'.ps.procs q = s.ps.procs q)
    (hkeeps : ∀ v, s.pager.mem.live v = true →
      (s.pager.mem.vpages v).pid ≠ (s.ps.procs p).pid → s.pager.mem.Keeps s'.pager.mem v)
    (hself : (s'.ps.procs p).Settled c s'.pager.mem) : s'.WellFormed c := by
  refine ⟨hps, hpager, hsize.trans h.memSize, fun {q} hq => ?_⟩
  rw [hn] at hq
  by_cases hqp : q = p
  · exact hqp ▸ hself
  · rw [hothers q hqp]
    exact (h.settled hq).frame fun v hl hv => hkeeps v hl (hv ▸ h.pid_ne hp hq hqp)

/-- The pages in the page table of a process are its own, each once. -/
theorem nodup_pages (h : s.WellFormed c) (hp : p < s.ps.nextProc)
    (hs : (s.ps.procs p).status ≠ .FINISHED) :
    ((s.ps.procs p).pageTable.map Prod.snd).Nodup := by
  have hset := h.settled hp
  refine List.Nodup.of_map (fun v => (s.pager.mem.vpages v).vpn) ?_
  rw [List.map_map]
  refine (List.map_congr_left fun e he => ?_) ▸ hset.keys hs
  exact ((hset.page hs he).2.2).symm

/-- The loop goes on until all processes have finished. -/
theorem notDone_iff (hs : s.WellFormed c) :
    s.notDone = true ↔ ∃ p < s.ps.nextProc, (s.ps.procs p).status ≠ .FINISHED := by
  rw [← not_iff_not, Bool.not_eq_true, notDone_eq_false_iff]
  push Not
  refine ⟨fun ⟨hr, hb⟩ p hp => ?_, fun hall => ?_⟩
  · have hmem : p ∈ s.ps.pq (s.ps.procs p).status := hs.ps.mem_pq.2 ⟨hp, rfl⟩
    cases hst : (s.ps.procs p).status with
    | RUNNABLE => simp [hst, hr] at hmem
    | BLOCKED => simp [hst, hb] at hmem
    | FINISHED => rfl
  · have hnil {st : ProcessStatus} (hst : st ≠ .FINISHED) : s.ps.pq st = [] :=
      List.eq_nil_iff_forall_not_mem.2 fun p hp =>
        hst ((hs.ps.status hp).symm.trans (hall p (hs.ps.lt hp)))
    exact ⟨hnil (by simp), hnil (by simp)⟩

/-- With a single process, it is either runnable or blocked. -/
theorem single (hs : s.WellFormed c) (h : s.ps.nextProc ≤ 1) :
    s.ps.pq .RUNNABLE = [] ∨ s.ps.pq .BLOCKED = [] := by
  by_contra hne
  push Not at hne
  obtain ⟨p, queue, hp⟩ := List.exists_cons_of_ne_nil hne.1
  obtain ⟨b, bs, hb⟩ := List.exists_cons_of_ne_nil hne.2
  have hp : p ∈ s.ps.pq .RUNNABLE := hp ▸ List.mem_cons_self
  have hb : b ∈ s.ps.pq .BLOCKED := hb ▸ List.mem_cons_self
  have hp0 : p = 0 := Nat.lt_one_iff.1 ((hs.ps.lt hp).trans_le h)
  have hb0 : b = 0 := Nat.lt_one_iff.1 ((hs.ps.lt hb).trans_le h)
  exact hs.ps.disjoint (by simp) hp (hp0.trans hb0.symm ▸ hb)

end WellFormed

end Sim

end Pfsim
