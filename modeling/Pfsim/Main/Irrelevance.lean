import Pfsim.Main.Program
import Pfsim.Simulator.Boundaries
import Pfsim.Simulator.ColdMisses
import Pfsim.Simulator.Renaming

/-!
# What the results do not depend on

Simulations in lockstep end alike (`Setup.simulate_lockstep`), and so do the programs which run
them.

* `main_renamed`: the program reports the same on two trace files with the same records, but for
  the page numbers, renamed one to one: the layout of the file is nothing to it, nor what
  is in a variable before it is assigned, nor the order in which `tdestroy` goes;
* `main_policy`: it reports the same whichever replacement module it is linked with, if memory
  is large enough for the pages the processes may have.
-/

namespace Pfsim

namespace Setup

variable {R R' : ReplaceModule} [R.Lawful] [R'.Lawful] {c c' : Setup} {s₀ : Sim R} {s₀' : Sim R'}

/-- Simulations in lockstep, from states which correspond, end in states which do, or with the
    same error. -/
theorem simulate_lockstep (hD : 3 ≤ c.diskPenalty) (hD' : 3 ≤ c'.diskPenalty) {G : Sim R → Prop}
    {T : Sim R → Sim R' → Prop} {A : Event → Event → Prop}
    (hlock : Machine.Lockstep (c.machine R) (c'.machine R') G T A)
    (hG : ∀ s, c.Reachable R s → G s) (h₀ : c.start R = .ok s₀) (h₀' : c'.start R' = .ok s₀')
    (ht : T s₀ s₀') :
    (∃ s s', c.simulate R = .ok s ∧ c'.simulate R' = .ok s' ∧ T s s') ∨
      ∃ stop, c.simulate R = .error stop ∧ c'.simulate R' = .error stop := by
  have hstops {stop : Stop} {ts : List (Machine.Transition (Sim R) Event)} {s : Sim R}
      (h : (c.machine R).Stops s₀ ts s stop) :
      ∃ stop, c.simulate R = .error stop ∧ c'.simulate R' = .error stop := by
    obtain ⟨ts', s', hrun, hs, -⟩ := hlock.run ht h.1 fun t ht => hG _ (move_of_mem h₀ h.1 ht).1
    have h' := (hlock.stops_iff (hG s (.of_run h₀ h.1)) hs h.1 hrun).2 h
    exact ⟨stop, simulate_of_stops hD h₀ h, simulate_of_stops hD' h₀' h'⟩
  obtain ⟨ts, s, h | ⟨-, msg, h⟩ | ⟨-, what, h⟩⟩ := exists_end hD h₀
  · obtain ⟨ts', s', hrun, hs, -⟩ := hlock.run ht h.1 fun t ht => hG _ (move_of_mem h₀ h.1 ht).1
    have h' := (hlock.returns_iff hs h.1 hrun).2 h
    exact .inl ⟨s, s', simulate_of_returns hD h₀ h, simulate_of_returns hD' h₀' h', hs⟩
  · exact .inr (hstops h)
  · exact .inr (hstops h)

/-- The simulations of a trace file and of a renamed one. -/
theorem simulate_renamed (c c' : Setup) {tr tr' : Trace} {f : ℕ → ℕ} (hr : tr.Renamed f tr')
    (hf : Function.Injective f) (htext : c.text = tr.text) (htext' : c'.text = tr'.text)
    (hndebug : c'.ndebug = c.ndebug) (hpenalty : c'.diskPenalty = c.diskPenalty)
    (hframes : c'.frames = c.frames) (hheap : c.SameHeap c') (hD : 3 ≤ c.diskPenalty)
    (π : Policy) :
    (∃ s s', c.simulate π.replace = .ok s ∧ c'.simulate π.replace = .ok s' ∧
      s.Twin (tr.Matches tr') f π.Same s') ∨
      ∃ stop, c.simulate π.replace = .error stop ∧ c'.simulate π.replace = .error stop := by
  have hc := hr.setup hf htext htext' hndebug hpenalty hframes hheap
  obtain ⟨ps, ps', hps, hps', ht⟩ := hr.firstPass c.slot c'.slot
  have h₀ : c.start π.replace = .ok (.init π.replace c ps) := by rw [start, htext, hps, ok_bind]
  have h₀' : c'.start π.replace = .ok (.init π.replace c' ps') := by
    rw [start, htext', hps', ok_bind]
  have hlock := Sim.lockstep (hheap.assertOverhead hndebug) hc (π.inStep c.ndebug f)
    (G := fun _ => True) fun _ _ _ _ => π.agree c.ndebug f
  have htwin : Sim.Twins (tr.Matches tr') f π.Same c c' (.init π.replace c ps)
      (.init π.replace c' ps') :=
    ⟨start_wellFormed h₀, start_wellFormed h₀',
      .init hc.aligned hframes ht ((π.inStep c.ndebug f).init _)⟩
  rcases simulate_lockstep hD (hpenalty ▸ hD) hlock (fun _ _ => trivial) h₀ h₀' htwin with
    ⟨s, s', h, h', hs⟩ | hstop
  · exact .inl ⟨s, s', h, h', hs.twin⟩
  · exact .inr hstop

end Setup

/-! ## Enough memory -/

/-- The page numbers of a trace file. -/
def Trace.vpns (tr : Trace) : Finset ℕ := (Finset.Icc 1 tr.length).image tr.vpn

/-- The pages there may be: one for each process number and each page number. -/
def Trace.maxPages (tr : Trace) : ℕ :=
  ((Finset.Icc 1 tr.length).image tr.pid).card * tr.vpns.card

namespace Setup

variable {R : ReplaceModule} [R.Lawful] {c : Setup} {s₀ s : Sim R} {tr : Trace}
  {ts : List (Machine.Transition (Sim R) Event)}

/-- There is a process number for each process. -/
theorem Reachable.nextProc_le_pids (htext : c.text = tr.text) (h : c.Reachable R s) :
    s.ps.nextProc ≤ ((Finset.Icc 1 tr.length).image tr.pid).card := by
  refine (h.invariant (I := fun s => s.ps.nextProc ≤ _) (fun s₀ h₀ => ?_)
    fun s e s' _ _ hi hm => hm.nextProc ▸ hi).2.2
  obtain ⟨ps, rfl, hi⟩ := start_indexed htext h₀
  refine (Finset.card_range ps.nextProc).symm.trans_le
    (Finset.card_le_card_of_injOn (fun p => (ps.procs p).pid) (fun p hp => ?_) ?_)
  · have hp := Finset.mem_range.1 hp
    obtain ⟨hle, hle'⟩ := hi.firstline_le hp
    exact Finset.mem_image.2 ⟨_, Finset.mem_Icc.2 ⟨hle, hle'⟩, (hi.pid_eq hp).symm⟩
  · intro p hp q hq he
    exact hi.key_inj (Finset.mem_range.1 hp) (Finset.mem_range.1 hq) (congrArg pidKey he)

/-- Each process has a page for each page number at most. -/
theorem card_pagesReferenced_le (htext : c.text = tr.text) (h₀ : c.start R = .ok s₀)
    (h : (c.machine R).Run s₀ ts s) : (pagesReferenced ts).toFinset.card ≤ tr.maxPages := by
  rw [Trace.maxPages, ← Finset.card_range ((Finset.Icc 1 tr.length).image tr.pid).card,
    ← Finset.card_product]
  refine Finset.card_le_card fun pg hpg => ?_
  obtain ⟨t, ht, hpg⟩ := List.mem_filterMap.1 (List.mem_toFinset.1 hpg)
  obtain ⟨r, hr, rfl⟩ := Option.map_eq_some_iff.1 hpg
  obtain ⟨hs, hm⟩ := move_of_mem h₀ h ht
  obtain ⟨u, hu⟩ := hm.reads hr
  obtain ⟨k, ⟨h1, hk⟩, -, -, hvpn, -⟩ := (hs.bounded htext).reads htext hs.wellFormed hu
  refine Finset.mem_product.2 ⟨Finset.mem_range.2 ?_, Finset.mem_image.2
    ⟨k, Finset.mem_Icc.2 ⟨h1, hk⟩, hvpn.symm⟩⟩
  exact ((hu.lt hs.wellFormed).trans_eq hu.nextProc).trans_le (hs.nextProc_le_pids htext)

/-- With enough memory, no victim is asked for. -/
theorem Reachable.not_asksVictim (htext : c.text = tr.text)
    (hle : tr.maxPages ≤ c.frames) (h : c.Reachable R s) : ¬s.AsksVictim := by
  obtain ⟨s₀, h₀, ts, hrun⟩ := h
  intro hask
  have hlt := hask.lt_nextPage (Reachable.of_run h₀ hrun).wellFormed
  have hcard := card_pagesReferenced_le htext h₀ hrun
  have ht := tabled_of_run h₀ hrun
  rw [ht.nextPage, ← ht.referenced] at hlt
  omega

/-- Then the replacement module has no say. -/
theorem simulate_policy (htext : c.text = tr.text) (hle : tr.maxPages ≤ c.frames)
    (ho : c.ndebug = true ∨ ∀ v, c.overhead v = 0) (hD : 3 ≤ c.diskPenalty) (π π' : Policy) :
    (∃ s s', c.simulate π.replace = .ok s ∧ c.simulate π'.replace = .ok s' ∧
      s.Twin Eq id (fun _ _ => True) s') ∨
      ∃ stop, c.simulate π.replace = .error stop ∧ c.simulate π'.replace = .error stop := by
  obtain ⟨ps, hps, -⟩ := tr.exists_firstPass c.slot
  have hstart (R : ReplaceModule) : c.start R = .ok (.init R c ps) := by
    rw [start, htext, hps, ok_bind]
  have hstep : @ReplaceModule.InStep π.replace π'.replace _ _ c.ndebug id fun _ _ => True :=
    ReplaceModule.inStep_true c.ndebug
  have hlock := Sim.lockstep (assertOverhead_eq ho) (Twin.refl c) hstep
    (G := fun s : Sim π.replace => ¬s.AsksVictim) fun s hs hdue hfull =>
      absurd ⟨hdue, Sim.tick_pager (s := s) ▸ hfull⟩ hs
  have htwin : Sim.Twins Eq id (fun _ _ => True) c c (.init π.replace c ps)
      (.init π'.replace c ps) :=
    ⟨start_wellFormed (hstart _), start_wellFormed (hstart _),
      .init (Twin.refl c).aligned rfl (.refl ps) trivial⟩
  rcases simulate_lockstep hD hD hlock (fun s hs => hs.not_asksVictim htext hle) (hstart _)
    (hstart _) htwin with ⟨s, s', h, h', hs⟩ | hstop
  · exact .inl ⟨s, s', h, h', hs.twin⟩
  · exact .inr hstop

end Setup

/-! ## The program -/

/-- Twin simulations are reported alike. -/
theorem Sim.Twin.report {At : ℕ → ℕ → Prop} {f : ℕ → ℕ} {R R' : ReplaceModule}
    {Q : R.State → R'.State → Prop} {s : Sim R} {s' : Sim R'} (h : s.Twin At f Q s') (a : Args) :
    a.report s' = a.report s := by
  rw [Args.report, Args.report, h.stat, h.pager.mem.memSize, h.time, h.stderr]

variable {env env' : Environment} {argv : List (List Char)} {a : Args}

/-- If the simulations of two programs are twins, or fail alike, the programs report alike. -/
theorem report_eq {R R' : ReplaceModule} {c c' : Setup} {T : Sim R → Sim R' → Prop}
    (h : (∃ s s', c.simulate R = .ok s ∧ c'.simulate R' = .ok s' ∧ T s s') ∨
      ∃ stop, c.simulate R = .error stop ∧ c'.simulate R' = .error stop)
    (hT : ∀ s s', T s s' → a.report s' = a.report s) :
    (c'.simulate R' >>= fun s => (.ok (a.report s) : Except Stop Report)) =
      c.simulate R >>= fun s => .ok (a.report s) := by
  rcases h with ⟨s, s', h, h', ht⟩ | ⟨stop, h, h'⟩
  · rw [h, h', ok_bind, ok_bind, hT s s' ht]
  · rw [h, h', error_bind, error_bind]

/-- The program reports the same on two trace files with the same records, but for the page
    numbers, renamed one to one, whatever the layout of the files, what is in `curr_pid`
    before it is assigned, and the order in which `tdestroy` goes, provided that `malloc` leaves
    `NULL` in the same places, of those used before they are written (the layout may have it
    leave something else there), and that the write of a process which finishes into the one
    which finished before, and is freed, touches nothing else. -/
theorem main_renamed (env env' : Environment) (hD : 3 ≤ env.diskPenalty)
    (hndebug : env'.ndebug = env.ndebug) (hpenalty : env'.diskPenalty = env.diskPenalty)
    (hroot : ∀ p, env'.root p = 0 ↔ env.root p = 0)
    (hover : env.ndebug = true ∨ ∀ v, env'.overhead v = 0 ↔ env.overhead v = 0)
    (f : ℕ → ℕ) (hmaps : Set.MapsTo f (Set.Iic ULONG_MAX) (Set.Iic ULONG_MAX))
    (hf : Set.InjOn f (Set.Iic ULONG_MAX)) (π : Policy) (argv : List (List Char))
    (hfiles : ∀ a, parseArgs argv = .ok a →
      (a.filename.bind env.fopen = none ∧ a.filename.bind env'.fopen = none) ∨
      ∃ tr tr' : Trace, tr.Renamed f tr' ∧ a.filename.bind env.fopen = some tr.text ∧
        a.filename.bind env'.fopen = some tr'.text) :
    main env' π.replace argv = main env π.replace argv := by
  cases h : parseArgs argv with
  | error e => rw [main, main, h]; rfl
  | ok a =>
    rcases hfiles a h with ⟨hnone, hnone'⟩ | ⟨tr, tr', hr, htext, htext'⟩
    · rw [main_of_noFile h hnone, main_of_noFile h hnone']
    · obtain ⟨g, hg, hgf⟩ := exists_extension hmaps hf
      rw [main_of_file h htext, main_of_file h htext']
      have hsim := Setup.simulate_renamed (env.setup _ (frames_pos h).1 tr.text)
        (env'.setup _ (frames_pos h).1 tr'.text) (hr.congr hgf) hg rfl rfl hndebug hpenalty rfl
        ⟨hroot, hover⟩ hD π
      exact report_eq hsim fun _ _ ht => ht.report a

section Samples

/-- Three records of two processes, on a line each. -/
def Trace.lines : Trace := .ofDigits [('1', '0'), ('2', '0'), ('1', '1')] (by decide +kernel)

/-- The last line is not ended. -/
def Trace.unterminated : Trace :=
  { Trace.lines with trailing := [], trailing_space := fun _ h => absurd h List.not_mem_nil }

/-- A program which finds the file `text`, whatever its name. -/
def Environment.reading (text : List Char) : Environment :=
  { Environment.sample with fopen := fun _ => some text }

/-- The same, where `tdestroy` goes backwards. -/
def Environment.backwards (text : List Char) : Environment :=
  { Environment.reading text with tdestroy := List.reverse, tdestroy_perm := List.reverse_perm }

theorem main_renamed_unterminated : Trace.unterminated.text ≠ Trace.lines.text ∧
    ∃ rep, main (.reading Trace.lines.text) Policy.lru.replace [['p'], ['t']] = .ok rep ∧
      main (.backwards Trace.unterminated.text) Policy.lru.replace [['p'], ['t']] = .ok rep := by
  have hsome : (main (.reading Trace.lines.text) Policy.lru.replace
      [['p'], ['t']]).toOption.isSome = true := by decide +kernel
  obtain ⟨rep, hrep⟩ := Option.isSome_iff_exists.1 hsome
  have hrep := toOption_eq_some.1 hrep
  have hparse : parseArgs [['p'], ['t']] = .ok ⟨0x100000, 4096, some ['t']⟩ := by decide +kernel
  refine ⟨by decide +kernel, rep, hrep, (main_renamed (.reading Trace.lines.text)
    (.backwards Trace.unterminated.text) le_rfl rfl rfl (fun _ => .rfl) (.inl rfl) id
    (Set.mapsTo_id _) Function.injective_id.injOn .lru _ fun a ha => .inr ?_).trans hrep⟩
  obtain rfl := Except.ok.inj (hparse.symm.trans ha)
  exact ⟨.lines, .unterminated, ⟨rfl, fun _ => rfl, fun _ _ _ => rfl⟩, rfl, rfl⟩

end Samples

/-- If memory has as many frames as there are pairs of a process number and a page number of
    the trace file, the program reports the same whichever replacement module it is linked
    with. If assertions are compiled, LRU and FIFO, and not the others, check that `malloc` has
    left `NULL` in the overhead of a new page: it is to be so. The write of a process which
    finishes into the one which finished before, and is freed, is taken to touch nothing else. -/
theorem main_policy (env : Environment) (ho : env.ndebug = true ∨ ∀ v, env.overhead v = 0)
    (hD : 3 ≤ env.diskPenalty) (π π' : Policy) (argv : List (List Char))
    (hfile : ∀ a text, parseArgs argv = .ok a → a.filename.bind env.fopen = some text →
      ∃ tr : Trace, text = tr.text ∧ (tr.maxPages : ℤ) ≤ numberOfPhysicalPages a) :
    main env π'.replace argv = main env π.replace argv := by
  cases h : parseArgs argv with
  | error e => rw [main, main, h]; rfl
  | ok a =>
    cases hf : a.filename.bind env.fopen with
    | none => rw [main_of_noFile h hf, main_of_noFile h hf]
    | some text =>
      obtain ⟨tr, rfl, hle⟩ := hfile a text h hf
      rw [main_of_file h hf, main_of_file h hf]
      refine report_eq (Setup.simulate_policy rfl ?_ ho hD π π') fun _ _ ht => ht.report a
      exact_mod_cast hle.trans_eq (frames_pos h).2.symm

/-- There are four pairs, and `256` frames. -/
theorem main_policy_lines : ∃ rep,
    main (.reading Trace.lines.text) Policy.clock.replace [['p'], ['t']] = .ok rep ∧
      main (.reading Trace.lines.text) (Policy.random id).replace [['p'], ['t']] = .ok rep := by
  have hsome : (main (.reading Trace.lines.text) Policy.clock.replace
      [['p'], ['t']]).toOption.isSome = true := by decide +kernel
  obtain ⟨rep, hrep⟩ := Option.isSome_iff_exists.1 hsome
  have hrep := toOption_eq_some.1 hrep
  have hparse : parseArgs [['p'], ['t']] = .ok ⟨0x100000, 4096, some ['t']⟩ := by decide +kernel
  refine ⟨rep, hrep, (main_policy (.reading Trace.lines.text) (.inl rfl) le_rfl .clock
    (.random id) _ fun a text ha hf => ?_).trans hrep⟩
  obtain rfl := Except.ok.inj (hparse.symm.trans ha)
  obtain rfl := Option.some.inj hf
  exact ⟨.lines, rfl, by decide +kernel⟩

end Pfsim
