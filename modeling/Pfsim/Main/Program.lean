import Pfsim.Main.Report
import Pfsim.Simulator.Asserts
import Pfsim.Simulator.Faults
import Pfsim.Simulator.Usage
import Pfsim.TraceParser.Format

/-!
# The program

`main`, from the command line to the results: the arguments are parsed, the trace file is
opened and indexed, the simulation is run, and its results are printed (`Report`). The number
of iterations given to the loop is that of the longest run there can be on a file of this
length (`Setup.maxIterations`).

* `main_outcome`: the program ends, with results, with a message and an exit, or where it uses
  what `malloc` left, and when it does which (`Outcome`);
* `main_report`: the results printed are proper averages of the counters;
* `main_ndebug`: the assertions, compiled or not, change nothing.
-/

namespace Pfsim

/-- What the program finds besides its command line: how it is compiled, the files it can
    read, and what the language and its library leave open. -/
structure Environment where
  /-- Whether assertions are compiled out. -/
  ndebug : Bool
  /-- The constant `DISK_PENALTY`. -/
  diskPenalty : ℕ
  diskPenalty_pos : 0 < diskPenalty
  /-- The contents of the file of this name, if it can be opened. -/
  fopen : List Char → Option (List Char)
  slot : ℕ → ℕ
  root : ProcId → ℕ
  overhead : PageId → ℕ
  tdestroy : PageTable → PageTable
  tdestroy_perm : ∀ pt, (tdestroy pt).Perm pt

namespace Environment

variable (env : Environment)

/-- The simulation of the file `text` with `frames` pages of memory. -/
def setup (frames : ℕ) (hf : 0 < frames) (text : List Char) : Setup where
  ndebug := env.ndebug
  diskPenalty := env.diskPenalty
  diskPenalty_pos := env.diskPenalty_pos
  frames := frames
  frames_pos := hf
  text := text
  slot := env.slot
  root := env.root
  overhead := env.overhead
  tdestroy := env.tdestroy
  tdestroy_perm := env.tdestroy_perm

/-- `malloc` leaves `NULL` in what is used before it is written. -/
structure Blank : Prop where
  root : ∀ p, env.root p = 0
  overhead : env.ndebug = true ∨ ∀ v, env.overhead v = 0

/-- The build without assertions, if `ndebug` is defined, or with them. -/
def build (ndebug : Bool) : Environment := { env with ndebug }

end Environment

/-- What is printed at the end of the simulation. -/
def Args.report {R : ReplaceModule} (args : Args) (s : Sim R) : Report where
  filename := args.filename.getD []
  pagesize := args.pagesize
  memsize := args.memsize.tdiv 0x100000
  numberOfPhysicalPages := numberOfPhysicalPages args
  stat := s.stat
  totalSize := s.pager.mem.memSize
  exitTime := s.time
  stderr := s.stderr

/-- `first_pass` and `Simulator_runSimulation`. -/
def Setup.simulate (c : Setup) (R : ReplaceModule) : Except Stop (Sim R) := do
  let s ← c.start R
  (c.machine R).loop .outOfFuel (c.maxIterations c.text.length c.text.length + 1) s

/-- `main`, linked with the replacement module `R`. Without `assert`s, a number of pages that
    is not positive would go on to `Memory_init`; but there is none (`parseArgs_pos`). -/
def main (env : Environment) (R : ReplaceModule) (argv : List (List Char)) :
    Except Stop Report := do
  let args ← parseArgs argv
  assert env.ndebug (args.memsize > 0) "memsize > 0"
  assert env.ndebug (args.pagesize > 0) "pagesize > 0"
  assert env.ndebug (args.filename ≠ none) "filename != NULL"
  assert env.ndebug (numberOfPhysicalPages args > 0) "numberOfPhysicalPages > 0"
  match args.filename.bind env.fopen with
  | none => .error (.exitFailure "ERROR: error opening specified trace file\n")
  | some text =>
    let frames := (numberOfPhysicalPages args % 2 ^ 64).toNat
    if hf : 0 < frames then do
      let s ← (env.setup frames hf text).simulate R
      .ok (args.report s)
    else .error (.undefined "Memory_init(0)")

/-! ## The simulation -/

namespace Setup

variable {R : ReplaceModule} [R.Lawful] {c : Setup} {s s₀ : Sim R}

/-- The iterations given to the loop are enough. -/
theorem length_lt (hD : 3 ≤ c.diskPenalty) {ts : List (Machine.Transition (Sim R) Event)}
    (h₀ : c.start R = .ok s₀) (h : (c.machine R).Run s₀ ts s) :
    ts.length < c.maxIterations c.text.length c.text.length + 1 := by
  obtain ⟨hproc, hleft⟩ := linesLeft_le h₀
  exact Nat.lt_succ_of_le ((length_le_maxIterations hD h₀ h).trans
    (c.maxIterations_mono (hproc.trans hleft) hleft))

/-- A run which is over is the whole simulation. -/
theorem simulate_of_returns (hD : 3 ≤ c.diskPenalty)
    {ts : List (Machine.Transition (Sim R) Event)} (h₀ : c.start R = .ok s₀)
    (h : (c.machine R).Returns s₀ ts s) : c.simulate R = .ok s := by
  rw [simulate, h₀, ok_bind]
  exact h.loop_eq (Nat.le_of_lt (length_lt hD h₀ h.1))

theorem simulate_of_stops (hD : 3 ≤ c.diskPenalty) {e : Stop}
    {ts : List (Machine.Transition (Sim R) Event)} (h₀ : c.start R = .ok s₀)
    (h : (c.machine R).Stops s₀ ts s e) : c.simulate R = .error e := by
  rw [simulate, h₀, ok_bind]
  exact h.loop_eq (length_lt hD h₀ h.1)

/-- And there is one. -/
theorem exists_end (hD : 3 ≤ c.diskPenalty) (h₀ : c.start R = .ok s₀) :
    ∃ ts s, (c.machine R).Returns s₀ ts s ∨
      (s.Exit c ∧ ∃ msg, (c.machine R).Stops s₀ ts s (.exitFailure msg)) ∨
      s.Unwritten c ∧ ∃ what, (c.machine R).Stops s₀ ts s (.undefined what) := by
  rcases Machine.loop_cases (c.machine R) .outOfFuel
    (c.maxIterations c.text.length c.text.length + 1) s₀ with
    ⟨ts, s, h, -⟩ | ⟨ts, s, e, h, -⟩ | ⟨ts, s, h, hlen, -⟩
  · exact ⟨ts, s, .inl h⟩
  · obtain ⟨hrun, hr, hstop⟩ := h
    have hs := Reachable.of_run h₀ hrun
    rcases Sim.step_cases hs.wellFormed hr with
      ⟨e', s', hok, -⟩ | ⟨hexit, msg, hmsg⟩ | ⟨hun, what, hwhat⟩
    · cases hok.symm.trans hstop
    · exact ⟨ts, s, .inr (.inl ⟨hexit, msg, hrun, hr, hmsg⟩)⟩
    · exact ⟨ts, s, .inr (.inr ⟨hun, what, hrun, hr, hwhat⟩)⟩
  · -- There are not as many iterations.
    exact absurd hlen (length_lt hD h₀ h).ne

/-- The simulation returns, or exits with a message, in the first pass or in the loop, or it
    uses what `malloc` left. -/
theorem simulate_cases (π : Policy) (hD : 3 ≤ c.diskPenalty) :
    (∃ s₀ ts s, c.start π.replace = .ok s₀ ∧ (c.machine π.replace).Returns s₀ ts s ∧
      c.simulate π.replace = .ok s) ∨
    (∃ n, Rejected c.slot c.text ∧ c.simulate π.replace = .error (invalidFormat n)) ∨
    (∃ s msg, c.Reachable π.replace s ∧ s.Exit c ∧
      c.simulate π.replace = .error (.exitFailure msg)) ∨
    ∃ s what, c.Reachable π.replace s ∧ s.Unwritten c ∧
      c.simulate π.replace = .error (.undefined what) := by
  rcases firstPass_cases c.slot c.text with ⟨ps, hps, -⟩ | ⟨n, hn, hrej⟩
  · have h₀ : c.start π.replace = .ok (.init π.replace c ps) := by rw [start, hps, ok_bind]
    obtain ⟨ts, s, h | ⟨hexit, msg, h⟩ | ⟨hun, what, h⟩⟩ := exists_end hD h₀
    · exact .inl ⟨_, ts, s, h₀, h, simulate_of_returns hD h₀ h⟩
    · exact .inr (.inr (.inl ⟨s, msg, .of_run h₀ h.1, hexit, simulate_of_stops hD h₀ h⟩))
    · exact .inr (.inr (.inr ⟨s, what, .of_run h₀ h.1, hun, simulate_of_stops hD h₀ h⟩))
  · exact .inr (.inl ⟨n, hrej, by rw [simulate, start, hn]; rfl⟩)

omit [R.Lawful] in
theorem returns_of_simulate (h : c.simulate R = .ok s) :
    ∃ s₀ ts, c.start R = .ok s₀ ∧ (c.machine R).Returns s₀ ts s := by
  obtain ⟨s₀, h₀, h⟩ := bind_eq_ok.1 h
  rcases Machine.loop_cases (c.machine R) .outOfFuel
    (c.maxIterations c.text.length c.text.length + 1) s₀ with
    ⟨ts, s', hr, he⟩ | ⟨ts, s', e, -, he⟩ | ⟨ts, s', -, -, he⟩
  · obtain rfl := Except.ok.inj (h.symm.trans he)
    exact ⟨s₀, ts, h₀, hr⟩
  · cases h.symm.trans he
  · cases h.symm.trans he

/-- It takes no time if there are no records, only. -/
theorem time_eq_zero_iff {ts : List (Machine.Transition (Sim R) Event)}
    (h₀ : c.start R = .ok s₀) (h : (c.machine R).Returns s₀ ts s) :
    s.time = 0 ↔ s.stat.tmr = 0 := by
  have hs := Reachable.of_run h₀ h.1
  obtain ⟨⟨htrp, htime⟩, -⟩ := hs.usage
  refine ⟨fun h0 => by omega, fun h0 => ?_⟩
  have hleft : s.linesLeft = 0 := Finset.sum_eq_zero fun p hp => by
    rw [(hs.finished h.2 (Finset.mem_range.1 hp)).2, List.length_nil]
  have hlines := tmr_add_left h₀ h.1
  obtain ⟨hproc, -⟩ := linesLeft_le h₀
  -- Without processes, the loop is over from the start.
  have hdone : ¬s₀.notDone = true := fun hr => by
    obtain ⟨p, hp, -⟩ := (start_wellFormed h₀).notDone_iff.1 hr
    rw [← hlines, h0, hleft] at hproc
    exact absurd (hp.trans_le hproc) (Nat.not_lt_zero p)
  cases ts with
  | nil =>
    obtain rfl := Machine.Run.nil_iff.1 h.1
    obtain ⟨ps, -, rfl⟩ := start_eq h₀
    rfl
  | cons t ts => exact absurd h.1.cons.2.1 hdone

/-- The two builds simulate alike, if the overhead of new pages is not checked, or passes. -/
theorem simulate_build [R.Guarded] (c : Setup)
    (hov : ∀ v, R.assertOverhead false (c.overhead v) = R.assertOverhead true (c.overhead v)) :
    (c.build true).simulate R = (c.build false).simulate R := by
  have hstart : (c.build true).start R = (c.build false).start R := rfl
  rw [simulate, simulate, hstart]
  cases h₀ : (c.build false).start R with
  | error e => rfl
  | ok s₀ =>
    exact Machine.SameSteps.loop_eq (c.build_sameSteps hov) ⟨s₀, h₀, .refl⟩

end Setup

/-! ## The whole program -/

variable {env : Environment} {R : ReplaceModule} {argv : List (List Char)} {a : Args}
  {text : List Char} {rep : Report}

/-- The simulation that is run with the arguments `a`. -/
structure Environment.Runs (env : Environment) (a : Args) (c : Setup) : Prop where
  file : a.filename.bind env.fopen = some c.text
  frames : (c.frames : ℤ) = numberOfPhysicalPages a
  setup : c = env.setup c.frames c.frames_pos c.text

theorem Environment.Runs.blank {c : Setup} (h : env.Runs a c) (hb : env.Blank) : c.Blank := by
  rw [h.setup]
  exact ⟨hb.root, hb.overhead⟩

theorem main_of_noFile (h : parseArgs argv = .ok a) (hf : a.filename.bind env.fopen = none) :
    main env R argv = .error (.exitFailure "ERROR: error opening specified trace file\n") := by
  obtain ⟨hm, hp, hfile, hn, -⟩ := parseArgs_pos h
  rw [main, h, ok_bind, assert_ok hm, ok_bind, assert_ok hp, ok_bind, assert_ok hfile, ok_bind,
    assert_ok (show numberOfPhysicalPages a > 0 by omega), ok_bind, hf]

theorem frames_pos (h : parseArgs argv = .ok a) :
    0 < (numberOfPhysicalPages a % 2 ^ 64).toNat ∧
      ((numberOfPhysicalPages a % 2 ^ 64).toNat : ℤ) = numberOfPhysicalPages a := by
  obtain ⟨-, -, -, hn, hlt⟩ := parseArgs_pos h
  have hmod : numberOfPhysicalPages a % 2 ^ 64 = numberOfPhysicalPages a :=
    Int.emod_eq_of_lt (by omega) (by omega)
  omega

/-- With a file, the program simulates. -/
theorem main_of_file (h : parseArgs argv = .ok a) (hf : a.filename.bind env.fopen = some text) :
    main env R argv = (env.setup _ (frames_pos h).1 text).simulate R >>= fun s =>
      .ok (a.report s) := by
  obtain ⟨hm, hp, hfile, hn, -⟩ := parseArgs_pos h
  rw [main, h, ok_bind, assert_ok hm, ok_bind, assert_ok hp, ok_bind, assert_ok hfile, ok_bind,
    assert_ok (show numberOfPhysicalPages a > 0 by omega), ok_bind, hf]
  exact dif_pos (frames_pos h).1

theorem runs_setup (h : parseArgs argv = .ok a) (hf : a.filename.bind env.fopen = some text) :
    env.Runs a (env.setup _ (frames_pos h).1 text) :=
  ⟨hf, (frames_pos h).2, rfl⟩

/-- What the program comes to. -/
inductive Outcome (env : Environment) (R : ReplaceModule) (argv : List (List Char)) :
    Except Stop Report → Prop
  /-- The command line is not accepted. -/
  | usage {msg : String} (h : ∀ a, parseArgs argv ≠ .ok a) :
      Outcome env R argv (.error (.exitFailure msg))
  /-- The trace file cannot be opened. -/
  | noFile {a : Args} (h : parseArgs argv = .ok a) (hf : a.filename.bind env.fopen = none) :
      Outcome env R argv
        (.error (.exitFailure "ERROR: error opening specified trace file\n"))
  /-- The first pass rejects the trace file. -/
  | invalid {a : Args} {c : Setup} {n : ℕ} (h : parseArgs argv = .ok a) (hc : env.Runs a c)
      (hr : Rejected c.slot c.text) : Outcome env R argv (.error (invalidFormat n))
  /-- The simulation cannot go on, for want of a record or of a frame. -/
  | exit {a : Args} {c : Setup} {s : Sim R} {msg : String} (h : parseArgs argv = .ok a)
      (hc : env.Runs a c) (hs : c.Reachable R s) (hx : s.Exit c) :
      Outcome env R argv (.error (.exitFailure msg))
  /-- The simulation uses what `malloc` left, which is not `NULL`: the root of a page table,
      or, with assertions, the overhead of a page. -/
  | unwritten {a : Args} {c : Setup} {s : Sim R} {what : String} (h : parseArgs argv = .ok a)
      (hc : env.Runs a c) (hs : c.Reachable R s) (hu : s.Unwritten c) :
      Outcome env R argv (.error (.undefined what))
  /-- The simulation returns. -/
  | report {a : Args} {c : Setup} {s₀ s : Sim R}
      {ts : List (Machine.Transition (Sim R) Event)} (h : parseArgs argv = .ok a)
      (hc : env.Runs a c) (h₀ : c.start R = .ok s₀) (hr : (c.machine R).Returns s₀ ts s) :
      Outcome env R argv (.ok (a.report s))

/-- What the program comes to is one of these. -/
theorem outcome_main (env : Environment) (hD : 3 ≤ env.diskPenalty) (π : Policy)
    (argv : List (List Char)) : Outcome env π.replace argv (main env π.replace argv) := by
  cases h : parseArgs argv with
  | error e =>
    obtain ⟨msg, rfl⟩ := exits_parseArgs argv e h
    have hmain : main env π.replace argv = .error (.exitFailure msg) := by rw [main, h]; rfl
    rw [hmain]
    exact .usage fun a ha => by cases h.symm.trans ha
  | ok a =>
    cases hf : a.filename.bind env.fopen with
    | none =>
      rw [main_of_noFile h hf]
      exact .noFile h hf
    | some text =>
      have hc := runs_setup h hf
      rw [main_of_file h hf]
      rcases Setup.simulate_cases (c := env.setup _ (frames_pos h).1 text) π hD with
        ⟨s₀, ts, s, h₀, hr, hs⟩ | ⟨n, hrej, hs⟩ | ⟨s, msg, hs, hx, he⟩ | ⟨s, what, hs, hu, he⟩
      · rw [hs, ok_bind]
        exact .report h hc h₀ hr
      · rw [hs]
        exact .invalid h hc hrej
      · rw [he]
        exact .exit h hc hs hx
      · rw [he]
        exact .unwritten h hc hs hu

/-- With the disk penalty of the program, or any of three ticks or more, the program ends,
    whatever the command line and the files: with the results of a simulation which returns,
    with a message and an exit, for one of the reasons there are, or where it uses what `malloc`
    left, which does not happen if that is `NULL`. No other assertion fails, and there are no more
    iterations than the length of the file allows. Two things undefined in C are no outcomes
    here: the product of `-m` is taken to wrap, and the write of a process which finishes into
    the one which finished before, and is freed, to touch nothing else. -/
theorem main_outcome (env : Environment) (hD : 3 ≤ env.diskPenalty) (π : Policy)
    (argv : List (List Char)) : Outcome env π.replace argv (main env π.replace argv) ∧
      (env.Blank → ∀ what, main env π.replace argv ≠ .error (.undefined what)) := by
  have hout := outcome_main env hD π argv
  refine ⟨hout, fun hblank what he => ?_⟩
  rw [he] at hout
  cases hout with
  | unwritten _ hc _ hu => exact (hc.blank hblank).not_unwritten _ hu

/-- A file of one record, and no other. -/
def Environment.sample : Environment where
  ndebug := true
  diskPenalty := 3
  diskPenalty_pos := Nat.succ_pos 2
  fopen filename := if filename = ['t'] then some ['1', ' ', '0'] else none
  slot _ := 0
  root _ := 0
  overhead _ := 0
  tdestroy pt := pt
  tdestroy_perm := PageTable.perm_refl

theorem main_outcome_sample :
    Outcome .sample Policy.clock.replace [['p'], ['x']]
      (main .sample Policy.clock.replace [['p'], ['x']]) ∧
    main .sample Policy.clock.replace [['p'], ['x']] =
      .error (.exitFailure "ERROR: error opening specified trace file\n") :=
  ⟨(main_outcome .sample le_rfl .clock _).1, main_of_noFile (a := ⟨0x100000, 4096, some ['x']⟩)
    (by decide +kernel) rfl⟩

/-- The results: unless there are no records, in which case no time has passed, the averages
    printed are those of the counters to within a millionth, and proper ones. On a well-formed
    trace file, every record has been hit, and the time is that of the faults and of the records
    at most. The counters are taken without the wrap of 64 bits, and the write of a process which
    finishes into the one which finished before, and is freed, is taken to touch nothing else. -/
theorem main_report (env : Environment) (π : Policy) (argv : List (List Char)) {rep : Report}
    (h : main env π.replace argv = .ok rep) :
    (rep.totalSize : ℤ) = rep.numberOfPhysicalPages ∧
      (rep.exitTime = 0 ↔ rep.stat.tmr = 0) ∧
      (rep.exitTime ≠ 0 →
        ((0 < rep.stat.tmu ∧ rep.stat.tmu ≤ rep.totalSize * rep.exitTime) ∧
          |rep.amu - rep.stat.tmu / (rep.exitTime * rep.totalSize)| < 1 / 10 ^ 6 ∧
          0 ≤ rep.amu ∧ rep.amu ≤ 1) ∧
        (0 < rep.stat.trp ∧ rep.stat.trp ≤ rep.exitTime) ∧
          |rep.arp - rep.stat.trp / rep.exitTime| < 1 / 10 ^ 6 ∧ 0 ≤ rep.arp ∧ rep.arp ≤ 1) ∧
      rep.stat.tmr + rep.stat.tpi ≤ rep.exitTime ∧
      ∀ tr : Trace, env.fopen rep.filename = some tr.text → rep.stat.tmr = tr.length ∧
        rep.stat.tpi * env.diskPenalty ≤ rep.exitTime ∧
        rep.exitTime ≤ tr.length + rep.stat.tpi * (env.diskPenalty + 1) := by
  obtain ⟨a, ha, -⟩ := bind_eq_ok.1 h
  obtain ⟨filename, hname⟩ := Option.ne_none_iff_exists'.1 (parseArgs_pos ha).2.2.1
  cases hf : a.filename.bind env.fopen with
  | none => cases h.symm.trans (main_of_noFile ha hf)
  | some text =>
    obtain ⟨s, hsim, hrep⟩ := bind_eq_ok.1 ((main_of_file ha hf).symm.trans h)
    obtain rfl := Except.ok.inj hrep
    obtain ⟨s₀, ts, h₀, hr⟩ := Setup.returns_of_simulate hsim
    have hs := Setup.Reachable.of_run h₀ hr.1
    obtain ⟨⟨hrefs, htrp⟩, htmr, htmu⟩ := hs.usage
    have hzero := Setup.time_eq_zero_iff h₀ hr
    have hframes : (s.pager.mem.memSize : ℤ) = numberOfPhysicalPages a :=
      (congrArg Nat.cast hs.wellFormed.memSize).trans (frames_pos ha).2
    refine ⟨hframes, hzero, fun hne => ?_, hrefs.trans htrp, fun tr htr => ?_⟩
    -- As a page has been hit, memory has been used, and a process has run.
    · have hpos : 0 < s.stat.tmr := Nat.pos_of_ne_zero (mt hzero.2 hne)
      have hsize : 0 < s.pager.mem.memSize := hs.wellFormed.memSize ▸ Setup.frames_pos _
      have htmu : s.stat.tmu ≤ s.pager.mem.memSize * s.time :=
        htmu.trans_eq (congrArg (· * s.time) hs.wellFormed.memSize.symm)
      exact ⟨⟨⟨hpos.trans_le htmr, htmu⟩,
          Report.amu_near (a.report s) (Nat.pos_of_ne_zero hne) hsize htmu⟩,
        ⟨hpos.trans_le ((Nat.le_add_right _ _).trans hrefs), htrp⟩,
          Report.arp_near (a.report s) (Nat.pos_of_ne_zero hne) htrp⟩
    · have htext : text = tr.text := by
        rw [hname] at hf
        have hopen : (a.report s).filename = filename := congrArg (Option.getD · []) hname
        exact Option.some.inj (hf.symm.trans (hopen ▸ htr))
      have htmr := hs.tmr_of_done htext hr.2
      obtain ⟨hle, hge, -⟩ := hs.time_of_done hr.2
      exact ⟨htmr, hle, htmr ▸ hge⟩

theorem main_report_sample : ∃ rep, main .sample Policy.lru.replace [['p'], ['t']] = .ok rep ∧
    rep.exitTime = 5 ∧ rep.arp ≤ 1 := by
  have hany : (main .sample Policy.lru.replace [['p'], ['t']]).toOption.any
      (fun rep => rep.exitTime == 5) = true := by decide +kernel
  obtain ⟨rep, hrep, htime⟩ := (Option.any_eq_true _ _).1 hany
  have h := toOption_eq_some.1 hrep
  have htime : rep.exitTime = 5 := by simpa using htime
  exact ⟨rep, h, htime, ((main_report .sample .lru _ h).2.2.1 (by simp [htime])).2.2.2.2⟩

/-- The debug build, whose assertions are compiled, and the default build, whose are not,
    come to the same, whatever the command line and the files; with LRU and FIFO, if `malloc`
    leaves `NULL` in the overhead of a page, which an assertion uses before it is written. In
    both, the write of a process which finishes into the one which finished before, and is
    freed, is taken to touch nothing else. -/
theorem main_ndebug (env : Environment) (π : Policy)
    (ho : π = .lru ∨ π = .fifo → ∀ v, env.overhead v = 0) (argv : List (List Char)) :
    main (env.build true) π.replace argv = main (env.build false) π.replace argv := by
  cases h : parseArgs argv with
  | error e => rw [main, main, h]; rfl
  | ok a =>
    cases hf : a.filename.bind env.fopen with
    | none =>
      have hmain (b : Bool) : main (env.build b) π.replace argv =
          .error (.exitFailure "ERROR: error opening specified trace file\n") :=
        main_of_noFile h hf
      rw [hmain, hmain]
    | some text =>
      have hmain (b : Bool) : main (env.build b) π.replace argv =
          ((env.setup _ (frames_pos h).1 text).build b).simulate π.replace >>= fun s =>
            .ok (a.report s) := main_of_file h hf
      rw [hmain, hmain,
        Setup.simulate_build _ fun v => Policy.assertOverhead_ndebug fun h => ho h v]

theorem main_ndebug_sample :
    main (Environment.sample.build true) Policy.lru.replace [['p'], ['t']] =
      main (Environment.sample.build false) Policy.lru.replace [['p'], ['t']] :=
  main_ndebug .sample .lru (fun _ _ => rfl) _

end Pfsim
