import Pfsim.Simulator.Victims
import Pfsim.TraceParser.Renaming

/-!
# Renaming the pages

The simulation of a trace file depends on its page numbers only by which ones are equal.
That of a file with other numbers, renamed one to one, goes through twin states, whatever
the layout of both files and the orders in which pages are freed.

* `renaming_irrelevant`: this, for whole runs.
-/

namespace Pfsim

/-- An iteration, but for the page number and the offset of the record read. -/
def Event.unnumbered : Event → Event
  | hit r => hit { r with fpos := 0, vpn := 0 }
  | miss r => miss { r with fpos := 0, vpn := 0 }
  | e => e

theorem Event.Twin.unnumbered {At : ℕ → ℕ → Prop} {f : ℕ → ℕ} {e e' : Event} (h : e.Twin At f e') :
    e'.unnumbered = e.unnumbered := by
  cases h with
  | completion | idle => rfl
  | @hit r r' hr | @miss r r' hr => simp [Event.unnumbered, hr.p, hr.line, hr.pid, hr.v]

/-- What a simulation reports, and the pages in its frames. -/
structure Sim.SameResults {R R' : ReplaceModule} (s : Sim R) (s' : Sim R') : Prop where
  time : s'.time = s.time
  stat : s'.stat = s.stat
  stderr : s'.stderr = s.stderr
  memory : s'.pager.mem.memory = s.pager.mem.memory

theorem Sim.Twin.sameResults {R R' : ReplaceModule} {At : ℕ → ℕ → Prop} {f : ℕ → ℕ}
    {Q : R.State → R'.State → Prop} {s : Sim R} {s' : Sim R'} (h : s.Twin At f Q s') :
    s.SameResults s' :=
  ⟨h.time, h.stat, h.stderr, h.pager.mem.memory⟩

/-- `malloc` leaves `NULL` in the same places, among those used before they are written. -/
structure Setup.SameHeap (c c' : Setup) : Prop where
  root : ∀ p, c'.root p = 0 ↔ c.root p = 0
  overhead : c.ndebug = true ∨ ∀ v, c'.overhead v = 0 ↔ c.overhead v = 0

/-- Then the overheads of new pages are checked alike. -/
theorem Setup.SameHeap.assertOverhead {c c' : Setup} {π : Policy} (h : c.SameHeap c')
    (hndebug : c'.ndebug = c.ndebug) (v : PageId) :
    π.replace.assertOverhead c'.ndebug (c'.overhead v) =
      π.replace.assertOverhead c.ndebug (c.overhead v) := by
  rw [hndebug]
  exact Policy.assertOverhead_congr (h.overhead.imp_right fun ho => ho v)

/-- The builds are the same, and the trace files as in `Trace.Renamed`. -/
theorem Trace.Renamed.setup {tr tr' : Trace} {f : ℕ → ℕ} {c c' : Setup} (h : tr.Renamed f tr')
    (hf : Function.Injective f) (htext : c.text = tr.text) (htext' : c'.text = tr'.text)
    (hndebug : c'.ndebug = c.ndebug) (hpenalty : c'.diskPenalty = c.diskPenalty)
    (hframes : c'.frames = c.frames) (hheap : c.SameHeap c') : c.Twin (tr.Matches tr') f c' where
  ndebug := hndebug
  diskPenalty := hpenalty
  frames := hframes
  root := hheap.root
  injective := hf
  aligned := h.aligned
  scan hx := by
    rw [htext, htext']
    exact h.scan hx

/-- A renaming of the 64-bit numbers, extended to all numbers. -/
theorem exists_extension {f : ℕ → ℕ} (hmaps : Set.MapsTo f (Set.Iic ULONG_MAX) (Set.Iic ULONG_MAX))
    (hf : Set.InjOn f (Set.Iic ULONG_MAX)) :
    ∃ g : ℕ → ℕ, Function.Injective g ∧ ∀ n ≤ ULONG_MAX, g n = f n := by
  refine ⟨fun n => if n ≤ ULONG_MAX then f n else n, fun m n he => ?_, fun n hn => if_pos hn⟩
  dsimp only at he
  split at he <;> split at he
  · next hm hn => exact hf hm hn he
  · next hm hn => exact absurd (he ▸ hmaps hm) hn
  · next hm hn => exact absurd (he ▸ hmaps hn) hm
  · exact he

/-- The page numbers of a well-formed trace file matter only by which ones are equal. With
    another file which has the same records, but for the page numbers, renamed one to one,
    the simulation goes the same way: its iterations are those of the first one, with the
    same frames and the same victims, and end in the same way, with the same results. It
    may be laid out in another way, and `tdestroy` may visit the nodes in another order; but
    `malloc` is to leave `NULL` in the same places, of those used before they are written, and
    the write of a process which finishes into the one which finished before, and is freed, is
    to touch nothing else. -/
theorem renaming_irrelevant (tr tr' : Trace) (f : ℕ → ℕ)
    (hmaps : Set.MapsTo f (Set.Iic ULONG_MAX) (Set.Iic ULONG_MAX))
    (hf : Set.InjOn f (Set.Iic ULONG_MAX)) (hr : tr.Renamed f tr') (c c' : Setup)
    (htext : c.text = tr.text) (htext' : c'.text = tr'.text) (hndebug : c'.ndebug = c.ndebug)
    (hpenalty : c'.diskPenalty = c.diskPenalty) (hframes : c'.frames = c.frames)
    (hheap : c.SameHeap c') (π : Policy) :
    ∃ s₀ s₀', c.start π.replace = .ok s₀ ∧ c'.start π.replace = .ok s₀' ∧
      ∀ ts s, (c.machine π.replace).Run s₀ ts s → ∃ ts' s',
        (c'.machine π.replace).Run s₀' ts' s' ∧ s.SameResults s' ∧
        List.Forall₂ (fun t t' => t'.lbl.unnumbered = t.lbl.unnumbered ∧
          t.dst.SameResults t'.dst) ts ts' ∧
        ((c'.machine π.replace).Returns s₀' ts' s' ↔ (c.machine π.replace).Returns s₀ ts s) ∧
        ∀ stop, (c'.machine π.replace).Stops s₀' ts' s' stop ↔
          (c.machine π.replace).Stops s₀ ts s stop := by
  -- Only the page numbers which can be read matter.
  obtain ⟨g, hg, hgf⟩ := exists_extension hmaps hf
  have hr := hr.congr hgf
  have hc := hr.setup hg htext htext' hndebug hpenalty hframes hheap
  obtain ⟨ps, ps', hps, hps', ht⟩ := hr.firstPass c.slot c'.slot
  have h₀ : c.start π.replace = .ok (.init π.replace c ps) := by
    rw [Setup.start, htext, hps, ok_bind]
  have h₀' : c'.start π.replace = .ok (.init π.replace c' ps') := by
    rw [Setup.start, htext', hps', ok_bind]
  have hlock := Sim.lockstep (hheap.assertOverhead hndebug) hc (π.inStep c.ndebug g)
    (G := fun _ => True) fun _ _ _ _ => π.agree c.ndebug g
  have htwin : Sim.Twins (tr.Matches tr') g π.Same c c' (.init π.replace c ps)
      (.init π.replace c' ps') :=
    ⟨Setup.start_wellFormed h₀, Setup.start_wellFormed h₀',
      .init hc.aligned hframes ht ((π.inStep c.ndebug g).init _)⟩
  refine ⟨_, _, h₀, h₀', fun ts s h => ?_⟩
  obtain ⟨ts', s', h', hs, hrel⟩ := hlock.run htwin h fun _ _ => trivial
  exact ⟨ts', s', h', hs.twin.sameResults,
    hrel.imp fun t t' ht => ⟨ht.lbl.unnumbered, ht.dst.twin.sameResults⟩,
    hlock.returns_iff hs h h', fun stop => hlock.stops_iff trivial hs h h'⟩

/-- The pages `0` and `1` renamed as each other, under clock replacement. -/
theorem renaming_irrelevant_swap : ∃ (tr tr' : Trace) (s₀ s s₀' s' : Sim Policy.clock.replace)
    (c c' : Setup) (ts ts' : _), c.text = tr.text ∧ c'.text = tr'.text ∧ tr'.vpn 1 = 1 ∧
      tr.vpn 1 = 0 ∧ (c.machine Policy.clock.replace).Returns s₀ ts s ∧
      (c'.machine Policy.clock.replace).Returns s₀' ts' s' ∧ s.SameResults s' := by
  let tr := Trace.ofDigits [('1', '0'), ('2', '1'), ('1', '1')] (by decide)
  let tr' := Trace.ofDigits [('1', '1'), ('2', '0'), ('1', '0')] (by decide)
  let c := Setup.debug 2 32 tr.text (by decide) (by decide)
  let c' := Setup.debug 2 32 tr'.text (by decide) (by decide)
  have hr : tr.Renamed (Equiv.swap 0 1) tr' := by
    refine ⟨rfl, fun k => ?_, fun k h1 hk => ?_⟩
    · rcases k with _ | _ | _ | _ | k <;> rfl
    · have hk : k ≤ 3 := hk
      interval_cases k <;> decide
  obtain ⟨s₀, ts, s, h₀, h, -, hs⟩ := Setup.exists_run_of_after (R := Policy.clock.replace)
    (c := c) (n := 10) (P := fun s => !s.notDone) (by decide +kernel)
  have hmaps : Set.MapsTo (Equiv.swap 0 1) (Set.Iic ULONG_MAX) (Set.Iic ULONG_MAX) := by
    intro n hn
    rw [Set.mem_Iic, Equiv.swap_apply_def]
    split
    · decide
    · split
      · decide
      · exact hn
  obtain ⟨t₀, s₀', ht₀, -, hall⟩ := renaming_irrelevant tr tr' (Equiv.swap 0 1) hmaps
    (Equiv.injective _).injOn hr c c' rfl rfl rfl rfl rfl ⟨fun _ => .rfl, .inr fun _ => .rfl⟩ .clock
  obtain rfl := Except.ok.inj (h₀.symm.trans ht₀)
  obtain ⟨ts', s', -, hsame, -, hret, -⟩ := hall ts s h
  have hd : s.notDone = false := by simpa using hs
  exact ⟨tr, tr', s₀, s, s₀', s', c, c', ts, ts', rfl, rfl, by decide, by decide, ⟨h, hd⟩,
    hret.2 ⟨h, hd⟩, hsame⟩

end Pfsim
