import Pfsim.Machine.Lockstep
import Pfsim.Process.Twin
import Pfsim.Simulator.Reachable

/-!
# Twin simulations

Two simulations are *twins* (`Sim.Twin`) if their processes are, and the same pages are in
the same frames: they may differ in the layout of their trace files, in the page numbers,
which are renamed, in the order in which pages are freed, and in what their replacement
modules keep, as long as these are in step with each other (`ReplaceModule.InStep`) and,
when a victim is needed, name the same one (`ReplaceModule.Agree`).

* `Sim.lockstep`: twin simulations remain so, step by step, and end in the same way.
-/

namespace Pfsim

variable {At : ℕ → ℕ → Prop} {f : ℕ → ℕ}

/-! ## Memory -/

/-- The same live pages are in the same frames, but for the numbers of the pages, which
    are renamed, and their overhead. -/
structure Memory.Twin (f : ℕ → ℕ) (m m' : Memory) : Prop where
  memSize : m'.memSize = m.memSize
  memory : m'.memory = m.memory
  live : m'.live = m.live
  nextPage : m'.nextPage = m.nextPage
  vpn : ∀ v, m.live v = true → (m'.vpages v).vpn = f (m.vpages v).vpn
  pid : ∀ v, m.live v = true → (m'.vpages v).pid = (m.vpages v).pid
  inMemory : ∀ v, m.live v = true → (m'.vpages v).inMemory = (m.vpages v).inMemory
  currentPPN : ∀ v, m.live v = true → (m'.vpages v).currentPPN = (m.vpages v).currentPPN

namespace Memory.Twin

variable {m m' : Memory} {u v : PageId} {ppn : ℕ}

/-- The same pages are in memory. -/
theorem resident_iff (h : m.Twin f m') : m'.Resident v ↔ m.Resident v := by
  rw [Resident, Resident, h.live]
  exact and_congr_right fun hl => by rw [h.inMemory v hl]

theorem tracked (h : m.Twin f m') : m'.tracked = m.tracked := by
  rw [Memory.tracked, Memory.tracked, h.memSize]

theorem allocated (h : m.Twin f m') (hm : m.WellFormed) (hm' : m'.WellFormed) :
    m'.allocated = m.allocated := by
  rw [hm.allocated_eq, hm'.allocated_eq, occupied, occupied, h.memSize, h.memory]

/-- Both memories are full, or neither is. -/
theorem hasFreePage (h : m.Twin f m') (hm : m.WellFormed) (hm' : m'.WellFormed) :
    m'.hasFreePage = m.hasFreePage := by
  rw [Memory.hasFreePage, Memory.hasFreePage, h.memSize, h.allocated hm hm']

/-- The bitmaps are the same, as far as they are read. -/
theorem freelist (h : m.Twin f m') (hm : m.WellFormed) (hm' : m'.WellFormed) {i : ℕ}
    (hi : i < m.memSize / 32) : m'.freelist i = m.freelist i := by
  refine BitVec.eq_of_getMsbD_eq fun j hj => ?_
  have hlt : 32 * i + j < m.tracked := by
    rw [Memory.tracked]
    omega
  have hdiv : (32 * i + j) / 32 = i := by omega
  have hmod : (32 * i + j) % 32 = j := by omega
  have hbit : Bitmap.mem m'.freelist (32 * i + j) = Bitmap.mem m.freelist (32 * i + j) := by
    rw [hm'.bit (h.tracked ▸ hlt), hm.bit hlt, h.memory]
  rwa [Bitmap.mem, Bitmap.mem, hdiv, hmod] at hbit

/-- The same frame is free. -/
theorem getFreePage (h : m.Twin f m') (hm : m.WellFormed) (hm' : m'.WellFormed) :
    m'.getFreePage = m.getFreePage := by
  have key : ∀ n i, i + n ≤ m.memSize / 32 →
      m'.getFreePageFrom n i = m.getFreePageFrom n i := by
    intro n
    induction n with
    | zero => exact fun _ _ => rfl
    | succ n ih =>
      intro i hi
      rw [getFreePageFrom, getFreePageFrom, h.freelist hm hm' (by omega), ih (i + 1) (by omega)]
  rw [Memory.getFreePage, Memory.getFreePage, h.memSize]
  exact key _ 0 (by omega)

/-- The same page is made, with numbers which correspond. -/
theorem newPage (h : m.Twin f m') (pid vpn : ℕ) (o o' : Option PageId) :
    (m.newPage pid vpn o).Twin f (m'.newPage pid (f vpn) o') := by
  have hpage {v : PageId} (hv : (m.newPage pid vpn o).live v = true) :
      (v = m.nextPage ∧ (m.newPage pid vpn o).vpages v = ⟨vpn, pid, o, false, 0⟩ ∧
        (m'.newPage pid (f vpn) o').vpages v = ⟨f vpn, pid, o', false, 0⟩) ∨
      (m.live v = true ∧ (m.newPage pid vpn o).vpages v = m.vpages v ∧
        (m'.newPage pid (f vpn) o').vpages v = m'.vpages v) := by
    rw [live_newPage] at hv
    rw [vpages_newPage, vpages_newPage, h.nextPage]
    split at hv
    · next hn => exact .inl ⟨hn, if_pos hn, if_pos hn⟩
    · next hn => exact .inr ⟨hv, if_neg hn, if_neg hn⟩
  refine ⟨h.memSize, h.memory, ?_, congrArg (· + 1) h.nextPage, fun v hv => ?_, fun v hv => ?_,
    fun v hv => ?_, fun v hv => ?_⟩
  · funext v
    rw [live_newPage, live_newPage, h.nextPage, h.live]
  all_goals
    rcases hpage hv with ⟨-, e, e'⟩ | ⟨hl, e, e'⟩ <;> rw [e, e']
  exacts [h.vpn v hl, h.pid v hl, h.inMemory v hl, h.currentPPN v hl]

/-- The same page is evicted. -/
theorem evicted (h : m.Twin f m') (ppn : ℕ) (u : PageId) :
    (m.evicted ppn u).Twin f (m'.evicted ppn u) where
  memSize := h.memSize
  memory := by rw [Memory.evicted, Memory.evicted, h.memory]
  live := h.live
  nextPage := h.nextPage
  vpn v hv := by rw [vpn_evicted, vpn_evicted]; exact h.vpn v hv
  pid v hv := by rw [pid_evicted, pid_evicted]; exact h.pid v hv
  inMemory v hv := by
    by_cases huv : v = u
    · simp [Memory.evicted, huv]
    · simpa [Memory.evicted, huv] using h.inMemory v hv
  currentPPN v hv := by
    by_cases huv : v = u
    · simpa [Memory.evicted, huv] using h.currentPPN u (huv ▸ hv)
    · simpa [Memory.evicted, huv] using h.currentPPN v hv

/-- The same page is loaded. -/
theorem loaded (h : m.Twin f m') (u : PageId) (ppn : ℕ) :
    (m.loaded u ppn).Twin f (m'.loaded u ppn) where
  memSize := h.memSize
  memory := by rw [Memory.loaded, Memory.loaded, h.memory]
  live := h.live
  nextPage := h.nextPage
  vpn v hv := by rw [vpn_loaded, vpn_loaded]; exact h.vpn v hv
  pid v hv := by rw [pid_loaded, pid_loaded]; exact h.pid v hv
  inMemory v hv := by
    by_cases huv : v = u
    · simp [Memory.loaded, huv]
    · simpa [Memory.loaded, huv] using h.inMemory v hv
  currentPPN v hv := by
    by_cases huv : v = u
    · simp [Memory.loaded, huv]
    · simpa [Memory.loaded, huv] using h.currentPPN v hv

end Memory.Twin

/-! ## Replacement modules -/

variable {R R' : ReplaceModule}

/-- The memories are twins, and the states of the replacement modules are related. -/
structure Pager.Twin (f : ℕ → ℕ) (Q : R.State → R'.State → Prop) (pg : Pager R) (pg' : Pager R') :
    Prop where
  mem : pg.mem.Twin f pg'.mem
  rep : Q pg.rep pg'.rep

variable {Q : R.State → R'.State → Prop}

section Lawful

variable [R.Lawful] [R'.Lawful]

/-- Two modules are in step if what they are told of keeps their states related: whatever
    the order in which pages are freed. -/
structure ReplaceModule.InStep (ndebug : Bool) (f : ℕ → ℕ) (Q : R.State → R'.State → Prop) :
    Prop where
  init (n : ℕ) : Q (R.initReplacementModule n) (R'.initReplacementModule n)
  new {r : R.State} {r' : R'.State} (v : PageId) : Q r r' →
    Q (R.initOverhead r v).1 (R'.initOverhead r' v).1
  access {pg : Pager R} {pg' : Pager R'} {v : PageId} {r : R.State} {r' : R'.State} :
    pg.WellFormed → pg'.WellFormed → pg.Twin f Q pg' → pg.mem.Resident v →
    R.notifyPageAccess ndebug pg.mem pg.rep (pg.mem.vpages v).overhead = .ok r →
    R'.notifyPageAccess ndebug pg'.mem pg'.rep (pg'.mem.vpages v).overhead = .ok r' → Q r r'
  load {pg : Pager R} {pg' : Pager R'} {v : PageId} {ppn : ℕ} {r : R.State} {r' : R'.State} :
    pg.WellFormed → pg'.WellFormed → pg.Twin f Q pg' → pg.mem.live v = true →
    R.notifyPageLoad ndebug (pg.mem.loaded v ppn) pg.rep (pg.mem.vpages v).overhead = .ok r →
    R'.notifyPageLoad ndebug (pg'.mem.loaded v ppn) pg'.rep (pg'.mem.vpages v).overhead = .ok r' →
    Q r r'
  freeAll {pg p₁ : Pager R} {pg' p₁' : Pager R'} {vs vs' : List PageId} :
    pg.WellFormed → pg'.WellFormed → pg.Twin f Q pg' → vs.Nodup → vs.Perm vs' →
    (∀ v ∈ vs, pg.mem.live v = true) → pg.freeAll ndebug vs = .ok p₁ →
    pg'.freeAll ndebug vs' = .ok p₁' → Q p₁.rep p₁'.rep

/-- Then they agree if they name the same victim. -/
def ReplaceModule.Agree (ndebug : Bool) (f : ℕ → ℕ) (Q : R.State → R'.State → Prop) : Prop :=
  ∀ {pg : Pager R} {pg' : Pager R'} {ppn ppn' : ℕ} {r : R.State} {r' : R'.State},
    pg.WellFormed → pg'.WellFormed → pg.Twin f Q pg' → pg.mem.hasFreePage = false →
    R.getPageToEvict ndebug pg.mem pg.rep = .ok (ppn, r) →
    R'.getPageToEvict ndebug pg'.mem pg'.rep = .ok (ppn', r') → ppn' = ppn ∧ Q r r'

namespace Pager.Twin

variable {pg p₁ : Pager R} {pg' p₁' : Pager R'} {vs vs' : List PageId} {ndebug : Bool}

omit [R.Lawful] [R'.Lawful] in
theorem newVPage (hstep : ∀ {r r'} v, Q r r' → Q (R.initOverhead r v).1 (R'.initOverhead r' v).1)
    (h : pg.Twin f Q pg') {pid : ℕ} (hpid : pid ≠ 0) (vpn : ℕ) :
    (pg.newVPage pid vpn).1.Twin f Q (pg'.newVPage pid (f vpn)).1 := by
  simp only [Pager.newVPage, if_pos hpid, h.mem.nextPage]
  exact ⟨h.mem.newPage .., hstep _ h.rep⟩

/-- Freeing the same pages, in different orders. -/
theorem freed (h : pg.Twin f Q pg') (hw : pg.WellFormed) (hw' : pg'.WellFormed)
    (h₁ : p₁.WellFormed) (h₁' : p₁'.WellFormed) (hf : Freed vs pg p₁) (hf' : Freed vs' pg' p₁')
    (hvs : ∀ v, v ∈ vs' ↔ v ∈ vs) (hrep : Q p₁.rep p₁'.rep) : p₁.Twin f Q p₁' := by
  have hkeep {v : PageId} (hv : p₁.mem.live v = true) : pg.mem.live v = true ∧
      p₁.mem.vpages v = pg.mem.vpages v ∧ p₁'.mem.vpages v = pg'.mem.vpages v := by
    obtain ⟨hl, hnot⟩ := (hf.live v).1 hv
    exact ⟨hl, hf.vpages v hnot, hf'.vpages v (mt (hvs v).1 hnot)⟩
  refine ⟨⟨?_, ?_, ?_, ?_, fun v hv => ?_, fun v hv => ?_, fun v hv => ?_, fun v hv => ?_⟩, hrep⟩
  · rw [hf'.memSize, hf.memSize, h.mem.memSize]
  · funext ppn
    refine Option.ext fun v => ?_
    rw [hf'.memory_iff hw' h₁', hf.memory_iff hw h₁, h.mem.memory, hvs]
  · funext v
    rw [Bool.eq_iff_iff, hf'.live, hf.live, h.mem.live, hvs]
  · rw [hf'.nextPage, hf.nextPage, h.mem.nextPage]
  all_goals
    obtain ⟨hl, e, e'⟩ := hkeep hv
    rw [e, e']
  exacts [h.mem.vpn v hl, h.mem.pid v hl, h.mem.inMemory v hl, h.mem.currentPPN v hl]

end Pager.Twin

end Lawful

/-! ## Simulators -/

/-- The builds and the trace files of two simulations: `malloc` leaves `NULL` in the roots of
    the same page tables, and from offsets which correspond, records are read which are the
    same but for their page numbers, which are renamed, or there is none. -/
structure Setup.Twin (At : ℕ → ℕ → Prop) (f : ℕ → ℕ) (c c' : Setup) : Prop where
  ndebug : c'.ndebug = c.ndebug
  diskPenalty : c'.diskPenalty = c.diskPenalty
  frames : c'.frames = c.frames
  root (p : ProcId) : c'.root p = 0 ↔ c.root p = 0
  injective : Function.Injective f
  aligned : Aligned At
  scan {x x' : ℕ} : At x x' →
    (∃ pid vpn rest rest', fscanf simulatorFormat (c.text.drop x) = ⟨2, [pid, vpn], rest⟩ ∧
      fscanf simulatorFormat (c'.text.drop x') = ⟨2, [pid, f vpn], rest'⟩ ∧
      At (c.text.length - rest.length) (c'.text.length - rest'.length)) ∨
    (∀ pid vpn rest, fscanf simulatorFormat (c.text.drop x) ≠ ⟨2, [pid, vpn], rest⟩) ∧
      ∀ pid vpn rest, fscanf simulatorFormat (c'.text.drop x') ≠ ⟨2, [pid, vpn], rest⟩

/-- A simulation is a twin of itself. -/
theorem Setup.Twin.refl (c : Setup) : c.Twin Eq id c where
  ndebug := rfl
  diskPenalty := rfl
  frames := rfl
  root _ := .rfl
  injective := Function.injective_id
  aligned := ⟨rfl, fun hx hy => by rw [hx, hy]⟩
  scan {x x'} hx := by
    subst hx
    by_cases h : ∃ pid vpn rest, fscanf simulatorFormat (c.text.drop x) = ⟨2, [pid, vpn], rest⟩
    · obtain ⟨pid, vpn, rest, h⟩ := h
      exact .inl ⟨pid, vpn, rest, rest, h, h, rfl⟩
    · push Not at h
      exact .inr ⟨h, h⟩

/-- The same memory reference, but for its page number. -/
structure Reference.Twin (At : ℕ → ℕ → Prop) (f : ℕ → ℕ) (r r' : Reference) : Prop where
  p : r'.p = r.p
  line : r'.line = r.line
  fpos : At r.fpos r'.fpos
  pid : r'.pid = r.pid
  vpn : r'.vpn = f r.vpn
  v : r'.v = r.v

/-- The iterations come to the same, but for the page numbers. -/
inductive Event.Twin (At : ℕ → ℕ → Prop) (f : ℕ → ℕ) : Event → Event → Prop
  | completion (p : ProcId) (v : PageId) (ppn : ℕ) (victim : Option PageId) :
      Twin At f (.completion p v ppn victim) (.completion p v ppn victim)
  | idle : Twin At f .idle .idle
  | hit {r r' : Reference} : r.Twin At f r' → Twin At f (.hit r) (.hit r')
  | miss {r r' : Reference} : r.Twin At f r' → Twin At f (.miss r) (.miss r')

theorem Reference.Twin.eq {r r' : Reference} (h : r.Twin Eq id r') : r' = r := by
  obtain ⟨h₁, h₂, h₃, h₄, h₅, h₆⟩ := h
  cases r'
  cases r
  simp_all

theorem Event.Twin.eq {e e' : Event} (h : e.Twin Eq id e') : e' = e := by
  cases h with
  | completion | idle => rfl
  | hit hr | miss hr => rw [hr.eq]

/-- The simulations are the same, but for offsets, page numbers, and replacement modules. -/
structure Sim.Twin (At : ℕ → ℕ → Prop) (f : ℕ → ℕ) (Q : R.State → R'.State → Prop) (s : Sim R)
    (s' : Sim R') : Prop where
  time : s'.time = s.time
  p : s'.p = s.p
  cursor : At s.cursor s'.cursor
  ps : s.ps.Twin At f s'.ps
  pager : s.pager.Twin f Q s'.pager
  stat : s'.stat = s.stat
  stderr : s'.stderr = s.stderr

namespace Sim.Twin

variable {c c' : Setup} {s : Sim R} {s' : Sim R'} {p : ProcId}

/-- At the start. -/
theorem init {ps ps' : Processes} (hat : Aligned At) (hframes : c'.frames = c.frames)
    (h : ps.Twin At f ps')
    (hq : Q (R.initReplacementModule c.frames) (R'.initReplacementModule c.frames)) :
    (Sim.init R c ps).Twin At f Q (Sim.init R' c' ps') where
  time := rfl
  p := h.peek .RUNNABLE
  cursor := hat.zero
  ps := h
  pager := by
    have hmem : (Memory.init c.frames).Twin f (Memory.init c.frames) :=
      ⟨rfl, rfl, rfl, rfl, nofun, nofun, nofun, nofun⟩
    rw [Sim.init, Sim.init, Pager.init, Pager.init, hframes]
    exact ⟨hmem, hq⟩
  stat := rfl
  stderr := rfl

/-- Both go on, or neither does. -/
theorem notDone (h : s.Twin At f Q s') : s'.notDone = s.notDone := by
  rw [Sim.notDone, Sim.notDone, h.ps.existsWithStatus, h.ps.existsWithStatus]

theorem modify {g g' : Process → Process} (h : s.Twin At f Q s')
    (hg : (g (s.ps.procs p)).Twin At f (g' (s'.ps.procs p))) :
    (s.modify p g).Twin At f Q (s'.modify p g') :=
  { h with ps := h.ps.modify hg }

/-- The same I/O is due. -/
theorem ioDue (h : s.Twin At f Q s') : s'.ioDue = s.ioDue := by
  rw [Sim.ioDue, Sim.ioDue, h.ps.peek]
  split
  · rfl
  · rw [(h.ps.procs _).waitTime]

/-- The next process is at the same record. -/
theorem position (h : s.Twin At f Q s') (p : ProcId) : At (s.position p) (s'.position p) := by
  rw [Sim.position, Sim.position, h.p]
  split
  · exact h.cursor
  · exact (h.ps.procs p).currentPos

/-- A record is read. -/
theorem reading (p : ProcId) (pid : ℕ) {rest rest' : List Char} (h : s.Twin At f Q s')
    (hrest : At (c.text.length - rest.length) (c'.text.length - rest'.length)) :
    (s.reading c p pid rest).Twin At f Q (s'.reading c' p pid rest') :=
  { h with
    p := rfl
    cursor := hrest
    stderr := by rw [Sim.reading, Sim.reading, (h.ps.procs p).pid, h.stderr] }

/-- A page is found, or made. -/
theorem paged (hf : Function.Injective f)
    (hnew : ∀ {r r'} v, Q r r' → Q (R.initOverhead r v).1 (R'.initOverhead r' v).1)
    (h : s.Twin At f Q s') (hp : (s.ps.procs p).pid ≠ 0) (vpn : ℕ) :
    (s.paged p vpn).Twin At f Q (s'.paged p (f vpn)) := by
  have hproc := h.ps.procs p
  rw [Sim.paged, Sim.paged, hproc.getVirtualPage hf, hproc.pid, h.pager.mem.nextPage]
  split
  · exact h
  · have hps : (s.ps.modify p fun p =>
          { p with pageTable := p.pageTable.add vpn s.pager.mem.nextPage }).Twin At f
        (s'.ps.modify p fun p =>
          { p with pageTable := p.pageTable.add (f vpn) s.pager.mem.nextPage }) :=
      h.ps.modify (hproc.add hf vpn _)
    exact { h with pager := h.pager.newVPage hnew hp vpn, ps := hps }

/-- A hit is accounted for. -/
theorem accessed (h : s.Twin At f Q s') {rep : R.State} {rep' : R'.State} (hq : Q rep rep') :
    (s.accessed rep).Twin At f Q (s'.accessed rep') :=
  { h with
    stat := congrArg Stat.hit h.stat
    pager := ⟨h.pager.mem, hq⟩ }

/-- The same process jumps to its next interval. -/
theorem jumped (hat : Aligned At) (h : s.Twin At f Q s') (p : ProcId) :
    (s.jumped p).Twin At f Q (s'.jumped p) :=
  have hj := (h.ps.procs p).jumpToNextInterval hat
  { h with
    cursor := hj.currentPos
    ps := (h.ps.modify hj).moved hat _ _ }

/-- The same process finishes. -/
theorem finished (hat : Aligned At) (h : s.Twin At f Q s') (p : ProcId) {pg : Pager R}
    {pg' : Pager R'} (hpg : pg.Twin f Q pg') :
    (s.finished p pg).Twin At f Q (s'.finished p pg') :=
  { h with
    p := rfl
    pager := hpg
    ps := ((h.ps.modify { h.ps.procs p with currentPos := hat.zero }).moved hat _ _).free p }

/-- The same process is blocked, for the same page. -/
theorem blocked (hat : Aligned At) (hd : c'.diskPenalty = c.diskPenalty) (h : s.Twin At f Q s')
    (p : ProcId) (v : PageId) {x x' : ℕ} (hx : At x x') :
    (s.blocked c p v x).Twin At f Q (s'.blocked c' p v x') :=
  { h with
    stat := congrArg Stat.miss h.stat
    ps := (h.ps.modify { h.ps.procs p with
      waitTime := hd, waitingOnPage := rfl, currentPos := hx }).moved hat _ _ }

/-- The same I/O is over. -/
theorem completed (hat : Aligned At) (h : s.Twin At f Q s') (q : ProcId) {pg : Pager R}
    {pg' : Pager R'} (hpg : pg.Twin f Q pg') :
    (s.completed q pg).Twin At f Q (s'.completed q pg') :=
  { h with
    cursor := (h.ps.procs q).currentPos
    pager := hpg
    ps := (h.ps.modify { h.ps.procs q with waitingOnPage := rfl }).moved hat _ _ }

section Time

variable [R.Lawful] [R'.Lawful]

theorem pass (h : s.Twin At f Q s') (hs : s.WellFormed c) (hs' : s'.WellFormed c') (n : ℕ) :
    (s.pass n).Twin At f Q (s'.pass n) :=
  { h with
    time := congrArg (· + n) h.time
    stat := by
      have ha : s'.pager.mem.howManyAllocPages = s.pager.mem.howManyAllocPages :=
        h.pager.mem.allocated hs.pager.mem hs'.pager.mem
      rw [Sim.pass, Sim.pass, h.stat, ha, h.ps.existsWithStatus] }

/-- A tick passes on both sides. -/
theorem tick (h : s.Twin At f Q s') (hs : s.WellFormed c) (hs' : s'.WellFormed c') :
    s.tick.Twin At f Q s'.tick := by
  have hp := h.pass hs hs' CLOCK_TICK
  rw [Sim.tick, Sim.tick, countDown, countDown, hp.ps.peek]
  split
  · exact hp
  · exact hp.modify { hp.ps.procs _ with
      waitTime := congrArg (· - CLOCK_TICK) (hp.ps.procs _).waitTime }

theorem skipped (h : s.Twin At f Q s') (hs : s.WellFormed c) (hs' : s'.WellFormed c')
    (b : ProcId) : (s.skipped b).Twin At f Q (s'.skipped b) := by
  rw [Sim.skipped, Sim.skipped, (h.ps.procs b).waitTime]
  exact (h.pass hs hs' _).modify { h.ps.procs b with waitTime := rfl }

end Time

end Sim.Twin

/-! ## Moves -/

namespace Sim

variable [R.Lawful] [R'.Lawful] {c c' : Setup} {s u s₁ : Sim R} {s' : Sim R'} {e : Event}
  {r : Reference} {ppn : ℕ} {victim : Option PageId} {pg : Pager R}

omit [R.Lawful] [R'.Lawful] in
/-- The same is undefined, if the overheads are checked alike. -/
theorem Misread.twin (hc : c.Twin At f c')
    (hov : ∀ v, R'.assertOverhead c'.ndebug (c'.overhead v) =
      R.assertOverhead c.ndebug (c.overhead v)) (h : s.Twin At f Q s') {p : ProcId} {vpn : ℕ}
    {stop : Stop} (hm : s.Misread c p vpn stop) : s'.Misread c' p (f vpn) stop := by
  have hproc := h.ps.procs p
  have hnil : (s'.ps.procs p).pageTable = [] ↔ (s.ps.procs p).pageTable = [] := by
    rw [hproc.pageTable, PageTable.renamed, List.map_eq_nil_iff]
  cases hm with
  | root ht hne => exact .root (hnil.2 ht) (mt (hc.root p).1 hne)
  | overhead hroot hv ho =>
    refine .overhead (fun ht => (hc.root p).2 (hroot (hnil.1 ht)))
      ((hproc.getVirtualPage hc.injective vpn).trans hv) ?_
    rw [h.pager.mem.nextPage, hov]
    exact ho

omit [R.Lawful] [R'.Lawful] in
/-- Pages can be looked for on both sides. -/
theorem Searchable.twin (hc : c.Twin At f c')
    (hov : ∀ v, R'.assertOverhead c'.ndebug (c'.overhead v) =
      R.assertOverhead c.ndebug (c.overhead v)) (h : s.Twin At f Q s') {p : ProcId} {vpn : ℕ}
    (hn : s.Searchable c p vpn) : s'.Searchable c' p (f vpn) where
  root ht := by
    rw [(h.ps.procs p).pageTable, PageTable.renamed, List.map_eq_nil_iff] at ht
    exact (hc.root p).2 (hn.root ht)
  overhead hv := by
    rw [(h.ps.procs p).getVirtualPage hc.injective vpn] at hv
    rw [h.pager.mem.nextPage, hov]
    exact hn.overhead hv

section Moves

variable (hov : ∀ v, R'.assertOverhead c'.ndebug (c'.overhead v) =
  R.assertOverhead c.ndebug (c.overhead v))

include hov in
/-- The same line is read. -/
theorem Reads.twin (hc : c.Twin At f c') (hq : ReplaceModule.InStep c.ndebug f Q)
    (hs : s.WellFormed c) (hs' : s'.WellFormed c') (h : s.Twin At f Q s') (hr : s.Reads c r u) :
    ∃ r' u', s'.Reads c' r' u' ∧ r.Twin At f r' ∧ u.Twin At f Q u' := by
  obtain ⟨queue, hhead⟩ := hr.head
  obtain ⟨rest, hscan, hu⟩ := hr.scan
  have hpos := h.position r.p
  have hmem : r.p ∈ s.ps.pq .RUNNABLE := hhead ▸ List.mem_cons_self
  have hpid : ((s.tick.reading c r.p r.pid rest).ps.procs r.p).pid ≠ 0 := by
    change (s.tick.ps.procs r.p).pid ≠ 0
    rw [tick_procs]
    exact hs.ps.pid_ne_zero (hs.ps.lt hmem)
  rcases hc.scan hpos with ⟨pid, vpn, rest₁, rest', hscan₁, hscan', hrest⟩ | ⟨hnone, -⟩
  · rw [← hr.fpos, hscan] at hscan₁
    obtain ⟨⟨rfl, rfl⟩, rfl⟩ : (r.pid = pid ∧ r.vpn = vpn) ∧ rest = rest₁ := by simpa using hscan₁
    have hu' := ((h.tick hs hs').reading r.p r.pid hrest).paged hc.injective hq.new
      hpid r.vpn
    rw [← hu] at hu'
    refine ⟨⟨r.p, r.line, s'.position r.p, r.pid, f r.vpn, r.v⟩, _,
      ⟨⟨queue, by rw [h.ps.pq, hhead]⟩, ?_, ?_, rfl, ⟨rest', hscan', rfl⟩, ?_,
        hr.searchable.twin hc hov h⟩,
      ⟨rfl, rfl, hr.fpos ▸ hpos, rfl, rfl, rfl⟩, hu'⟩
    · exact (h.tick hs hs').ioDue.trans hr.notDue
    · exact hr.line.trans (h.ps.procs r.p).currentline.symm
    · exact ((hu'.ps.procs r.p).getVirtualPage hc.injective r.vpn).trans hr.page
  · exact absurd hscan (hr.fpos ▸ hnone r.pid r.vpn rest)

/-- The same frame is found. -/
theorem Twin.findFrame (hc : c.Twin At f c') (hs : s.WellFormed c) (hs' : s'.WellFormed c')
    (h : s.Twin At f Q s')
    (hagree : s.pager.mem.hasFreePage = false → ReplaceModule.Agree c.ndebug f Q)
    (hf : s.findFrame c = .ok (ppn, victim, pg)) :
    ∃ pg', s'.findFrame c' = .ok (ppn, victim, pg') ∧ pg.Twin f Q pg' := by
  have hm := hs.pager.mem
  have hm' := hs'.pager.mem
  have hfree := h.pager.mem.hasFreePage hm hm'
  rw [Sim.findFrame] at hf ⊢
  rw [hfree]
  cases hfull : s.pager.mem.hasFreePage with
  | true =>
    rw [hfull, if_pos rfl] at hf
    rw [if_pos rfl, h.pager.mem.getFreePage hm hm']
    obtain ⟨k, hk, hf⟩ := bind_eq_ok.1 hf
    obtain ⟨rfl, rfl, rfl⟩ : k = ppn ∧ none = victim ∧ s.pager = pg := by simpa using hf
    exact ⟨s'.pager, by rw [hk, ok_bind], h.pager⟩
  | false =>
    -- The other module names a victim, and the two of them agree on it.
    have hpos : 0 < s'.pager.mem.memSize := hs'.memSize ▸ c'.frames_pos
    obtain ⟨k, v, rep', hget', hv', -⟩ := ReplaceModule.Lawful.getPageToEvict_ok c'.ndebug hm'
      hs'.pager.tracks hpos (hfree.trans hfull)
    rw [hfull] at hf
    obtain ⟨⟨k₁, rep⟩, hget, hf⟩ := bind_eq_ok.1 hf
    obtain ⟨rfl, hrep⟩ := hagree hfull hs.pager hs'.pager h.pager hfull hget (hc.ndebug ▸ hget')
    have hv : s.pager.mem.memory k = some v := h.pager.mem.memory ▸ hv'
    simp only [Memory.evictPage_eq hm hv, ok_bind, hv] at hf
    obtain ⟨rfl, rfl, rfl⟩ : k = ppn ∧ some v = victim ∧ ⟨s.pager.mem.evicted k v, rep⟩ = pg := by
      simpa using hf
    refine ⟨⟨s'.pager.mem.evicted k v, rep'⟩, ?_, h.pager.mem.evicted k v, hrep⟩
    simp only [hget', ok_bind, Memory.evictPage_eq hm' hv', hv', Bool.false_eq_true, if_false]

include hov in
/-- The same hit is made, and accounted for. -/
theorem Reads.twin_hit {rep : R.State} (hc : c.Twin At f c')
    (hq : ReplaceModule.InStep c.ndebug f Q) (hs : s.WellFormed c) (hs' : s'.WellFormed c')
    (h : s.Twin At f Q s') (hr : s.Reads c r u) (hm : u.pager.mem.Resident r.v)
    (ha : R.notifyPageAccess c.ndebug u.pager.mem u.pager.rep (u.pager.mem.vpages r.v).overhead =
      .ok rep) :
    ∃ r' u' rep', s'.Reads c' r' u' ∧ r.Twin At f r' ∧ u'.pager.mem.Resident r'.v ∧
      R'.notifyPageAccess c'.ndebug u'.pager.mem u'.pager.rep
        (u'.pager.mem.vpages r'.v).overhead = .ok rep' ∧
      (u.ps.procs r.p).Twin At f (u'.ps.procs r'.p) ∧
        (u.accessed rep).Twin At f Q (u'.accessed rep') := by
  obtain ⟨r', u', hr', href, hu⟩ := hr.twin hov hc hq hs hs' h
  have hw := (hr.wellFormed hs).pager
  have hw' := (hr'.wellFormed hs').pager
  have hm' : u'.pager.mem.Resident r.v := hu.pager.mem.resident_iff.2 hm
  obtain ⟨rep', ha', -⟩ :=
    ReplaceModule.Lawful.notifyPageAccess_ok c'.ndebug hw'.mem hw'.tracks hm'
  have hrep : Q rep rep' := hq.access hw hw' hu.pager hm ha (hc.ndebug ▸ ha')
  refine ⟨r', u', rep', hr', href, ?_, ?_, href.p ▸ hu.ps.procs r.p, hu.accessed hrep⟩
  · rwa [href.v]
  · rwa [href.v]

/-- The same pages are freed, by each in its own order. -/
theorem Twin.freeAll {u' : Sim R'} (hc : c.Twin At f c')
    (hq : ReplaceModule.InStep c.ndebug f Q) (hu : u.WellFormed c) (hu' : u'.WellFormed c')
    (h : u.Twin At f Q u') {p : ProcId} (hp : p ∈ u.ps.pq .RUNNABLE)
    (hf : u.pager.freeAll c.ndebug ((c.tdestroy (u.ps.procs p).pageTable).map Prod.snd) =
      .ok pg) :
    ∃ pg', u'.pager.freeAll c'.ndebug ((c'.tdestroy (u'.ps.procs p).pageTable).map Prod.snd) =
      .ok pg' ∧ pg.Twin f Q pg' := by
  have hp' : p ∈ u'.ps.pq .RUNNABLE := by rwa [h.ps.pq]
  obtain ⟨pg₁, hok, hpg, hfr⟩ := hu.freeAll hp
  obtain rfl : pg = pg₁ := Except.ok.inj (hf.symm.trans hok)
  obtain ⟨pg', hf', hpg', hfr'⟩ := hu'.freeAll hp'
  obtain ⟨hnd, hlive⟩ := hu.destroyed hp
  have hpages : (u'.ps.procs p).pageTable.map Prod.snd = (u.ps.procs p).pageTable.map Prod.snd := by
    rw [(h.ps.procs p).pageTable, PageTable.snd_renamed]
  have hperm : ((c.tdestroy (u.ps.procs p).pageTable).map Prod.snd).Perm
      ((c'.tdestroy (u'.ps.procs p).pageTable).map Prod.snd) := by
    refine ((c.tdestroy_perm _).map Prod.snd).trans ?_
    rw [← hpages]
    exact ((c'.tdestroy_perm _).map Prod.snd).symm
  have hrep : Q pg.rep pg'.rep :=
    hq.freeAll hu.pager hu'.pager h.pager hnd hperm hlive hf (hc.ndebug ▸ hf')
  exact ⟨pg', hf',
    h.pager.freed hu.pager hu'.pager hpg hpg' hfr hfr' (fun v => by rw [hpages]) hrep⟩

include hov in
/-- The same move can be made. -/
theorem Move.twin (hc : c.Twin At f c') (hq : ReplaceModule.InStep c.ndebug f Q)
    (hs : s.WellFormed c) (hs' : s'.WellFormed c') (h : s.Twin At f Q s')
    (hagree : s.tick.ioDue = true → s.pager.mem.hasFreePage = false →
      ReplaceModule.Agree c.ndebug f Q) (hm : s.Move c e s₁) :
    ∃ e' s₁', s'.Move c' e' s₁' ∧ e.Twin At f e' ∧ s₁.Twin At f Q s₁' := by
  have htick := h.tick hs hs'
  have hdue : s'.tick.ioDue = s.tick.ioDue := htick.ioDue
  cases hm with
  | @completion q bs v ppn victim pg rep hb hw hv hf hl =>
    have hb' : s'.ps.pq .BLOCKED = q :: bs := by rw [h.ps.pq, hb]
    have hv' : (s'.ps.procs q).waitingOnPage = some v := (h.ps.procs q).waitingOnPage.trans hv
    -- The same frame is found, so that the page awaited is loaded in it on both sides.
    obtain ⟨pg', hf', hpg⟩ := h.findFrame hc hs hs' (hagree hw) hf
    obtain ⟨rep', hl', -⟩ := hs'.load (hb' ▸ List.mem_cons_self) hv' hf'
    have hlive := (hs.awaited (hb ▸ List.mem_cons_self) hv).1
    have hfr := findFrame_ok hs hf
    have hrep : Q rep rep' := hq.load hfr.wellFormed (findFrame_ok hs' hf').wellFormed hpg
      ((hfr.keeps v).live.trans hlive) hl (hc.ndebug ▸ hl')
    exact ⟨_, _, .completion hb' (hdue.trans hw) hv' hf' hl', .completion q v ppn victim,
      htick.completed hc.aligned q ⟨hpg.mem.loaded v ppn, hrep⟩⟩
  | @idle b bs hr hb hw =>
    have hr' : s'.ps.pq .RUNNABLE = [] := by rw [h.ps.pq, hr]
    have hb' : s'.ps.pq .BLOCKED = b :: bs := by rw [h.ps.pq, hb]
    exact ⟨_, _, .idle hr' hb' (hdue.trans hw), .idle, htick.skipped hs.tick hs'.tick b⟩
  | @jump r u rep hr hm ha hl hi =>
    obtain ⟨r', u', rep', hr', href, hm', ha', hproc, hacc⟩ := hr.twin_hit hov hc hq hs hs' h hm ha
    refine ⟨_, _, .jump hr' hm' ha' (hproc.onLastLine.trans hl) (hproc.hasIntervals.trans hi),
      .hit href, ?_⟩
    rw [href.p]
    exact hacc.jumped hc.aligned r.p
  | @next r u rep hr hm ha hl =>
    obtain ⟨r', u', rep', hr', href, hm', ha', hproc, hacc⟩ := hr.twin_hit hov hc hq hs hs' h hm ha
    refine ⟨_, _, .next hr' hm' ha' (hproc.hasLines.trans hl), .hit href, ?_⟩
    rw [href.p]
    exact hacc.modify (hacc.ps.procs r.p).nextLine
  | @finish r u rep pg hr hm ha hl hi hf =>
    obtain ⟨r', u', rep', hr', href, hm', ha', hproc, hacc⟩ := hr.twin_hit hov hc hq hs hs' h hm ha
    have hw := (hr.wellFormed hs).accessed hm ha
    have hw' := (hr'.wellFormed hs').accessed hm' ha'
    obtain ⟨queue, hhead⟩ := hr.head
    have hmem : r.p ∈ (u.accessed rep).ps.pq .RUNNABLE := hr.pq ▸ hhead ▸ List.mem_cons_self
    -- The same pages are freed, maybe in another order.
    obtain ⟨pg', hf', htwin⟩ := hacc.freeAll hc hq hw hw' hmem hf
    rw [← href.p] at hf'
    refine ⟨_, _, .finish hr' hm' ha' (hproc.onLastLine.trans hl) (hproc.hasIntervals.trans hi) hf',
      .hit href, ?_⟩
    rw [href.p]
    exact hacc.finished hc.aligned r.p htwin
  | @miss r u hr hm =>
    obtain ⟨r', u', hr', href, hu⟩ := hr.twin hov hc hq hs hs' h
    have hm' : ¬u'.pager.mem.Resident r'.v := by rwa [href.v, hu.pager.mem.resident_iff]
    refine ⟨_, _, .miss hr' hm', .miss href, ?_⟩
    rw [href.p, href.v]
    exact hu.blocked hc.aligned hc.diskPenalty r.p r.v href.fpos

/-- The same exit is made. -/
theorem Exit.twin {err : Stop} (hc : c.Twin At f c') (hs : s.WellFormed c) (hs' : s'.WellFormed c')
    (h : s.Twin At f Q s') (hx : s.Exit c) (herr : s.step c true = .error err) :
    s'.step c' true = .error err := by
  have hm := hs.pager.mem
  have hm' := hs'.pager.mem
  have hdue : s'.tick.ioDue = s.tick.ioDue := (h.tick hs hs').ioDue
  cases hx with
  | noFrame hw ht ha =>
    rw [step_noFrame hs true hw ht ha] at herr
    obtain rfl := Except.error.inj herr
    refine step_noFrame hs' true (hdue.trans hw) ?_ ((h.pager.mem.hasFreePage hm hm').trans ha)
    rwa [h.pager.mem.tracked, h.pager.mem.allocated hm hm']
  | @noRecord p queue hw hr hscan =>
    rw [step_noRecord hs true hw hr hscan] at herr
    obtain rfl := Except.error.inj herr
    refine step_noRecord hs' true (hdue.trans hw) (by rw [h.ps.pq, hr]) ?_
    rcases hc.scan (h.position p) with ⟨pid, vpn, rest, -, hrec, -⟩ | ⟨-, hnone⟩
    · exact absurd hrec (hscan pid vpn rest)
    · exact hnone

include hov in
/-- The same is used of what `malloc` left. -/
theorem Unwritten.twin {err : Stop} (hc : c.Twin At f c') (hs : s.WellFormed c)
    (hs' : s'.WellFormed c') (h : s.Twin At f Q s') (hun : s.Unwritten c)
    (herr : s.step c true = .error err) : s'.step c' true = .error err := by
  obtain ⟨p, queue, pid, vpn, rest, hq, hscan, hn⟩ := hun.search
  obtain ⟨stop, hm⟩ := exists_misread (mt searchable_tick.1 hn)
  rw [step_misread hs true hun.notDue hq hscan hm] at herr
  obtain rfl := Except.error.inj herr
  have htick := h.tick hs hs'
  rcases hc.scan (h.position p) with ⟨pid₁, vpn₁, rest₁, rest', hscan₁, hscan', -⟩ | ⟨hnone, -⟩
  · obtain ⟨⟨rfl, rfl⟩, rfl⟩ : (pid = pid₁ ∧ vpn = vpn₁) ∧ rest = rest₁ := by
      simpa using hscan.symm.trans hscan₁
    exact step_misread hs' true (htick.ioDue.trans hun.notDue) ((congrFun h.ps.pq _).trans hq)
      hscan' (hm.twin hc hov htick)
  · exact absurd hscan (hnone pid vpn rest)

end Moves

/-- Twin simulations, in well-formed states. -/
structure Twins (At : ℕ → ℕ → Prop) (f : ℕ → ℕ) (Q : R.State → R'.State → Prop) (c c' : Setup)
    (s : Sim R) (s' : Sim R') : Prop where
  left : s.WellFormed c
  right : s'.WellFormed c'
  twin : s.Twin At f Q s'

/-- Twin simulations are in lockstep, from the states where their replacement modules
    agree on the victim, if one is needed. -/
theorem lockstep (hov : ∀ v, R'.assertOverhead c'.ndebug (c'.overhead v) =
      R.assertOverhead c.ndebug (c.overhead v))
    (hc : c.Twin At f c') (hq : ReplaceModule.InStep c.ndebug f Q)
    {G : Sim R → Prop} (hG : ∀ s, G s → s.tick.ioDue = true → s.pager.mem.hasFreePage = false →
      ReplaceModule.Agree c.ndebug f Q) :
    Machine.Lockstep (c.machine R) (c'.machine R') G (Twins At f Q c c') (Event.Twin At f) where
  running h := h.twin.notDone
  step {s s₁ s' e} hg h hr hstep := by
    have hm := move_of_step h.left hr hstep
    obtain ⟨e', s₁', hm', he, h₁⟩ := hm.twin hov hc hq h.left h.right h.twin (hG s hg)
    exact ⟨e', s₁', hm'.step_eq h.right, he, hm.wellFormed h.left, hm'.wellFormed h.right, h₁⟩
  error {s s' e} _ h hr herr := by
    rcases step_cases h.left hr with ⟨e₁, s₁, hok, -⟩ | ⟨hx, -⟩ | ⟨hun, -⟩
    · cases hok.symm.trans herr
    · exact hx.twin hc h.left h.right h.twin herr
    · exact hun.twin hov hc h.left h.right h.twin herr

end Sim

end Pfsim
