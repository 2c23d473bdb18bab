import Pfsim.Simulator.Schedule
import Pfsim.Simulator.Termination

/-!
# How many faults

The rank which shows that the simulation ends (`Sim.rank`) also tells how long it can take.
Until the next hit, each runnable process may fault once, and once more for each I/O that is
over before the disk has had the time to let all of them fault (`Sim.faultsLeft`); but
every such I/O leaves fewer processes too many.

* `faults_bounded`: so a run has at most so many faults for each hit, and so many
  iterations.
-/

namespace Pfsim

variable {R : ReplaceModule} [R.Lawful] {c : Setup} {s s' s₀ : Sim R} {e : Event} {r : Reference}
  {q : ProcId} {ts : List (Machine.Transition (Sim R) Event)}

/-- The I/Os after which a crowd of `x` processes has had the time to fault. -/
def Setup.rounds (c : Setup) (x : ℕ) : ℕ := (x + (c.diskPenalty - 3)) / (c.diskPenalty - 2)

/-- The faults until a hit, with `n` processes. -/
def Setup.faultsPerHit (c : Setup) (n : ℕ) : ℕ := n + (n - 2) / (c.diskPenalty - 2)

theorem Setup.rounds_zero (c : Setup) : c.rounds 0 = 0 := by
  rw [rounds, Nat.zero_add, Nat.div_eq_zero_iff]
  omega

theorem Setup.rounds_mono (c : Setup) {x y : ℕ} (h : x ≤ y) : c.rounds x ≤ c.rounds y :=
  Nat.div_le_div_right (Nat.add_le_add_right h _)

/-- Each I/O leaves fewer processes in the crowd. -/
theorem Setup.rounds_sub (hD : 3 ≤ c.diskPenalty) {x : ℕ} (hx : 0 < x) :
    c.rounds x = c.rounds (x - (c.diskPenalty - 2)) + 1 := by
  obtain ⟨d, hd⟩ : ∃ d, c.diskPenalty = d + 3 := ⟨c.diskPenalty - 3, by omega⟩
  rw [rounds, rounds, hd, show d + 3 - 3 = d by omega, show d + 3 - 2 = d + 1 by omega,
    ← Nat.add_div_right _ (Nat.succ_pos d)]
  rcases Nat.le_total (d + 1) x with hle | hle
  · rw [Nat.add_right_comm, Nat.sub_add_cancel hle]
  · rw [Nat.sub_eq_zero_of_le hle, Nat.div_eq_of_lt_le (k := 1) (by omega) (by omega),
      Nat.div_eq_of_lt_le (k := 1) (by omega) (by omega)]

/-- With fewer processes than ticks of the disk penalty, each of them faults at most once. -/
theorem Setup.faultsPerHit_of_lt {n : ℕ} (h : n < c.diskPenalty) : c.faultsPerHit n = n := by
  have hzero : (n - 2) / (c.diskPenalty - 2) = 0 := Nat.div_eq_zero_iff.2 (by omega)
  rw [faultsPerHit, hzero, Nat.add_zero]

namespace Sim

open Classical in
/-- The faults there may be until the next hit. -/
noncomputable def faultsLeft (c : Setup) (s : Sim R) : ℕ :=
  if ∃ q, s.Primed c q then 0 else (s.ps.pq .RUNNABLE).length + c.rounds (s.crowd c)

omit [R.Lawful] in
theorem faultsLeft_of_primed (h : s.Primed c q) : s.faultsLeft c = 0 := if_pos ⟨q, h⟩

omit [R.Lawful] in
theorem faultsLeft_le_of (s : Sim R) :
    s.faultsLeft c ≤ (s.ps.pq .RUNNABLE).length + c.rounds (s.crowd c) := by
  rw [faultsLeft]
  split
  · exact Nat.zero_le _
  · exact le_rfl

omit [R.Lawful] in
theorem faultsLeft_of_not_primed (h : ∀ q, ¬s.Primed c q) :
    s.faultsLeft c = (s.ps.pq .RUNNABLE).length + c.rounds (s.crowd c) :=
  if_neg fun ⟨q, hq⟩ => h q hq

omit [R.Lawful] in
/-- With nothing to run, there is an I/O first. -/
theorem faultsLeft_of_nil (hr : s.ps.pq .RUNNABLE = []) : s.faultsLeft c = 0 := by
  have hle := s.faultsLeft_le_of (c := c)
  rw [crowd, hr, List.length_nil, Nat.zero_sub, c.rounds_zero] at hle
  exact Nat.le_zero.1 hle

/-- There are no more processes in the queues than there are processes. -/
theorem WellFormed.length_pq_le (hs : s.WellFormed c) :
    (s.ps.pq .RUNNABLE).length + (s.ps.pq .BLOCKED).length ≤ s.ps.nextProc := by
  have hnd : (s.ps.pq .RUNNABLE ++ s.ps.pq .BLOCKED).Nodup :=
    (hs.ps.nodup _).append (hs.ps.nodup _) fun p hr hb => hs.ps.disjoint (by simp) hr hb
  rw [← List.length_append, ← List.toFinset_card_of_nodup hnd, ← Finset.card_range s.ps.nextProc]
  refine Finset.card_le_card fun p hp => Finset.mem_range.2 ?_
  rcases List.mem_append.1 (List.mem_toFinset.1 hp) with hp | hp
  exacts [hs.ps.lt hp, hs.ps.lt hp]

/-- There are at most so many faults until the next hit. -/
theorem faultsLeft_le (hD : 3 ≤ c.diskPenalty) (hs : s.WellFormed c) (ht : s.Timed c) :
    s.faultsLeft c ≤ c.faultsPerHit s.ps.nextProc := by
  have hle := hs.length_pq_le
  refine s.faultsLeft_le_of.trans ?_
  obtain ⟨d, hd⟩ : ∃ d, c.diskPenalty = d + 3 := ⟨c.diskPenalty - 3, by omega⟩
  have hceil {x : ℕ} : c.rounds (x + 1) = x / (d + 1) + 1 := by
    rw [Setup.rounds, hd, show d + 3 - 3 = d by omega, show d + 3 - 2 = d + 1 by omega,
      Nat.add_assoc, Nat.add_comm 1, Nat.add_div_right _ (Nat.succ_pos d)]
  rw [Setup.faultsPerHit, hd, show d + 3 - 2 = d + 1 by omega]
  cases hb : s.ps.pq .BLOCKED with
  | nil =>
    -- The timer would start with the first fault.
    rw [crowd, untilDue_nil hb, hd]
    rw [hb, List.length_nil] at hle
    cases hx : (s.ps.pq .RUNNABLE).length - (d + 3 + 1 - 1) with
    | zero =>
      rw [c.rounds_zero]
      exact Nat.add_le_add hle (Nat.zero_le _)
    | succ x =>
      have hdiv : (x + (d + 1)) / (d + 1) ≤ (s.ps.nextProc - 2) / (d + 1) :=
        Nat.div_le_div_right (by omega)
      rw [Nat.add_div_right _ (Nat.succ_pos d)] at hdiv
      rw [hceil]
      exact Nat.add_le_add hle hdiv
  | cons b bs =>
    have hu := (ht.head hb).1
    rw [crowd, untilDue_cons hb]
    rw [hb, List.length_cons] at hle
    cases hx : (s.ps.pq .RUNNABLE).length - ((s.ps.procs b).waitTime - 1) with
    | zero =>
      rw [c.rounds_zero]
      exact Nat.add_le_add (by omega) (Nat.zero_le _)
    | succ x =>
      have hdiv : x / (d + 1) ≤ (s.ps.nextProc - 2) / (d + 1) := Nat.div_le_div_right (by omega)
      rw [hceil, Nat.add_comm _ 1, ← Nat.add_assoc]
      exact Nat.add_le_add (by omega) hdiv

/-- Until the next hit, the faults are counted. -/
theorem Move.faultsLeft_le (hD : 3 ≤ c.diskPenalty) (h : s.Move c e s') (hs : s.WellFormed c)
    (ht : s.Timed c) (he : ∀ r, e ≠ .hit r) : e.misses + s'.faultsLeft c ≤ s.faultsLeft c := by
  cases e with
  | hit r => exact absurd rfl (he r)
  | miss r =>
    obtain ⟨hu, hu'⟩ := h.untilDue_miss hs ht
    obtain ⟨queue, hq, hq'⟩ := h.runnable_of_miss
    have hcrowd : s'.crowd c = s.crowd c := by
      rw [crowd, crowd, hq, hq', hu, List.length_cons]
      omega
    have hle := s'.faultsLeft_le_of (c := c)
    rw [faultsLeft_of_not_primed fun q hp => hp.not_miss h, hq, List.length_cons]
    rw [hcrowd, hq'] at hle
    simp only [Event.misses]
    omega
  | idle =>
    obtain ⟨b, bs, -, -, hr, hpq⟩ := h.idle_blocked
    rw [faultsLeft_of_nil ((congrFun hpq _).trans hr)]
    exact Nat.zero_le _
  | completion q v ppn victim =>
    obtain ⟨hu, hu'⟩ := h.untilDue_completion hs ht
    obtain ⟨bs, hb, hdue, -⟩ := h.completion_blocked
    obtain ⟨-, hq, -⟩ := h.completion_proc
    change 0 + _ ≤ _
    rw [Nat.zero_add]
    by_cases hr : s.ps.pq .RUNNABLE = []
    · -- The process is alone, and about to hit.
      rw [faultsLeft_of_primed (h.primed hs hr
        (ioDue_of_untilDue (c := c) (by omega)))]
      exact Nat.zero_le _
    · have hpos := List.length_pos_iff.2 hr
      have hlen : (s'.ps.pq .RUNNABLE).length = (s.ps.pq .RUNNABLE).length + 1 := by
        rw [hq, List.orderedInsert_length]
      have hnot : ∀ q, ¬s.Primed c q := fun q hp => by
        cases hp.notDue.symm.trans hdue
      have hcrowd : s'.crowd c ≤ s.crowd c - (c.diskPenalty - 2) := by
        rw [crowd, crowd, hlen, hu]
        omega
      have hround := Setup.rounds_sub hD (x := s.crowd c) (by rw [crowd, hu]; omega)
      have hmono := c.rounds_mono hcrowd
      have hle := s'.faultsLeft_le_of (c := c)
      rw [faultsLeft_of_not_primed hnot]
      omega

end Sim

/-! ## Whole runs -/

/-- The faults of a run are bounded by its hits. -/
theorem Setup.Reachable.tpi_le (hD : 3 ≤ c.diskPenalty) (h : c.Reachable R s) :
    s.stat.tpi + s.faultsLeft c ≤ c.faultsPerHit s.ps.nextProc * (s.stat.tmr + 1) ∧
      (s.notDone = false → s.stat.tpi ≤ c.faultsPerHit s.ps.nextProc * s.stat.tmr) := by
  refine (h.invariant (I := fun s =>
    s.stat.tpi + s.faultsLeft c ≤ c.faultsPerHit s.ps.nextProc * (s.stat.tmr + 1) ∧
      (s.notDone = false → s.stat.tpi ≤ c.faultsPerHit s.ps.nextProc * s.stat.tmr))
    (fun s₀ h₀ => ?_) fun s e s' hs ht hi hm => ?_).2.2
  · have hle := Sim.faultsLeft_le hD (Setup.start_wellFormed h₀) (Setup.start_timed h₀)
    obtain ⟨ps, -, rfl⟩ := Setup.start_eq h₀
    refine ⟨?_, fun _ => Nat.zero_le _⟩
    simpa [Sim.init, Stat.init] using hle
  obtain ⟨htmr, htpi⟩ := hm.tmr_tpi
  rw [htmr, htpi, hm.nextProc]
  by_cases he : ∀ r, e ≠ .hit r
  · have hhits : e.hits = 0 := by
      cases e with
      | hit r => exact absurd rfl (he r)
      | completion | idle | miss => rfl
    have hleft := hm.faultsLeft_le hD hs ht he
    rw [hhits, Nat.add_zero]
    refine ⟨by omega, fun hdone => ?_⟩
    -- A process is still there.
    obtain ⟨hr, hb⟩ := Sim.notDone_eq_false_iff.1 hdone
    cases e with
    | hit r => exact absurd rfl (he r)
    | miss r => simp [hm.miss_blocked.1] at hb
    | idle =>
      obtain ⟨b, bs, hb', -, -, hpq⟩ := hm.idle_blocked
      rw [hpq, hb'] at hb
      cases hb
    | completion q v ppn victim =>
      have := congrArg List.length (hm.completion_proc.2.1.symm.trans hr)
      simp [List.orderedInsert_length] at this
  · obtain ⟨r, rfl⟩ : ∃ r, e = .hit r := by simpa using he
    have hleft := Sim.faultsLeft_le hD (hm.wellFormed hs) (hm.timed hs ht)
    rw [hm.nextProc] at hleft
    have hle := hi.1
    have hhits : (Event.hit r).hits = 1 := rfl
    have hmisses : (Event.hit r).misses = 0 := rfl
    rw [hhits, hmisses, Nat.mul_succ _ (s.stat.tmr + 1)]
    exact ⟨by omega, fun _ => by omega⟩

/-! ## Iterations -/

/-- The iterations in which all processes are waiting. -/
def idles (ts : List (Machine.Transition (Sim R) Event)) : ℕ :=
  ts.countP fun t => t.lbl.silent

omit [R.Lawful] in
theorem idles_append (ts us : List (Machine.Transition (Sim R) Event)) :
    idles (ts ++ us) = idles ts + idles us := List.countP_append

/-- Each iteration is a hit, a fault, the end of an I/O, or idle. -/
theorem length_run (h₀ : c.start R = .ok s₀) (h : (c.machine R).Run s₀ ts s) :
    ts.length = s.stat.tmr + s.stat.tpi + (pagesLoaded ts).length + idles ts := by
  refine Setup.run_invariant (J := fun ts s =>
    ts.length = s.stat.tmr + s.stat.tpi + (pagesLoaded ts).length + idles ts) h₀ h ?_
    fun ts s e s' hr hj hm => ?_
  · obtain ⟨ps, -, rfl⟩ := Setup.start_eq h₀
    rfl
  · obtain ⟨htmr, htpi⟩ := hm.tmr_tpi
    rw [List.length_append, pagesLoaded_append, List.length_append, idles_append, htmr, htpi, hj]
    cases e <;> simp only [Event.hits, Event.misses, pagesLoaded, idles, Event.loaded, Event.silent,
      List.filterMap_cons, List.filterMap_nil, List.countP_cons, List.countP_nil, List.length_cons,
      List.length_nil, if_true, Bool.false_eq_true, if_false] <;> omega

/-- After an idle iteration, an I/O is over. -/
theorem idles_le (h₀ : c.start R = .ok s₀) (h : (c.machine R).Run s₀ ts s) :
    idles ts ≤ (pagesLoaded ts).length + s.tick.ioDue.toNat := by
  refine Setup.run_invariant (J := fun ts s =>
    idles ts ≤ (pagesLoaded ts).length + s.tick.ioDue.toNat) h₀ h (Nat.zero_le _)
    fun ts s e s' hr hj hm => ?_
  rw [pagesLoaded_append, List.length_append, idles_append]
  cases e with
  | completion q v ppn victim =>
    have hle : s.tick.ioDue.toNat ≤ 1 := Bool.toNat_le _
    change idles ts + 0 ≤ (pagesLoaded ts).length + 1 + _
    omega
  | idle =>
    obtain ⟨b, bs, hb, hd, -, hpq⟩ := hm.idle_blocked
    have hdue : s'.tick.ioDue = true :=
      (Sim.ioDue_tick_iff ((congrFun hpq _).trans hb)).2 (by rw [(hm.time_idle hb).2])
    rw [hd] at hj
    rw [hdue]
    exact Nat.succ_le_succ hj
  | hit r =>
    rw [hm.hit_notDue] at hj
    exact hj.trans (Nat.le_add_right _ _)
  | miss r =>
    rw [hm.miss_notDue] at hj
    exact hj.trans (Nat.le_add_right _ _)

/-- The hits are lines left at the start. -/
theorem tmr_add_left (h₀ : c.start R = .ok s₀) (h : (c.machine R).Run s₀ ts s) :
    s.stat.tmr + s.linesLeft = s₀.linesLeft := by
  refine Setup.run_invariant (J := fun _ s => s.stat.tmr + s.linesLeft = s₀.linesLeft) h₀ h ?_
    fun ts s e s' hr hj hm => ?_
  · obtain ⟨ps, -, rfl⟩ := Setup.start_eq h₀
    exact Nat.zero_add _
  · have hs := hr.wellFormed
    rw [hm.tmr_tpi.1]
    cases e with
    | hit r =>
      have := hm.linesLeft_hit hs
      simp only [Event.hits]
      omega
    | completion | idle | miss => exact (hm.linesLeft_eq hs (by simp)) ▸ hj

/-- The iterations of a run with `n` processes and `lines` lines to run, at most. -/
def Setup.maxIterations (c : Setup) (n lines : ℕ) : ℕ :=
  lines + 3 * (c.faultsPerHit n * (lines + 1)) + 1

omit [R.Lawful] in
/-- At the start there are no more processes than lines to run, nor more lines than
    characters. -/
theorem Setup.linesLeft_le (h₀ : c.start R = .ok s₀) :
    s₀.ps.nextProc ≤ s₀.linesLeft ∧ s₀.linesLeft ≤ c.text.length := by
  obtain ⟨ps, hps, rfl⟩ := Setup.start_eq h₀
  obtain ⟨n, hrec, -, hi⟩ := firstPass_indexed hps
  rw [Setup.linesLeft_start hi]
  refine ⟨?_, ?_⟩
  · -- The first lines of the processes are increasing.
    have hfirst : ∀ p < ps.nextProc, p + 1 ≤ (ps.procs p).firstline := fun p => by
      induction p with
      | zero => exact fun hp => (hi.firstline_le hp).1
      | succ p ih =>
        exact fun hp => (ih (Nat.lt_of_succ_lt hp)).trans_lt (hi.order p.lt_succ_self hp)
    rcases Nat.eq_zero_or_pos ps.nextProc with hz | hpos
    · exact hz ▸ Nat.zero_le n
    · have hlt : ps.nextProc - 1 < ps.nextProc := Nat.sub_one_lt hpos.ne'
      have hle := hfirst _ hlt
      rw [Nat.sub_add_cancel hpos] at hle
      exact hle.trans (hi.firstline_le hlt).2
  · have hstart : ∀ k ≤ n, k ≤ lineStart c.text k := fun k => by
      induction k with
      | zero => exact fun _ => Nat.zero_le _
      | succ k ih =>
        intro hk
        have hlt := lineStart_lt_succ (hrec (k + 1) (Nat.succ_pos k) hk).2
        exact (ih (Nat.le_of_succ_le hk)).trans_lt hlt
    exact (hstart n le_rfl).trans (lineStart_le _ _)

theorem Setup.faultsPerHit_mono (c : Setup) {n m : ℕ} (h : n ≤ m) :
    c.faultsPerHit n ≤ c.faultsPerHit m :=
  Nat.add_le_add h (Nat.div_le_div_right (Nat.sub_le_sub_right h 2))

theorem Setup.maxIterations_mono {n m k l : ℕ} (hn : n ≤ m) (hk : k ≤ l) :
    c.maxIterations n k ≤ c.maxIterations m l := by
  have hmul : c.faultsPerHit n * (k + 1) ≤ c.faultsPerHit m * (l + 1) :=
    Nat.mul_le_mul (c.faultsPerHit_mono hn) (Nat.succ_le_succ hk)
  rw [maxIterations, maxIterations]
  omega

/-- The number of processes does not change. -/
theorem nextProc_run (h₀ : c.start R = .ok s₀) (h : (c.machine R).Run s₀ ts s) :
    s.ps.nextProc = s₀.ps.nextProc :=
  Setup.run_invariant (J := fun _ s => s.ps.nextProc = s₀.ps.nextProc) h₀ h rfl
    fun _ _ _ _ _ hj hm => hm.nextProc.trans hj

theorem length_le (h₀ : c.start R = .ok s₀) (h : (c.machine R).Run s₀ ts s) :
    ts.length ≤ s.stat.tmr + 3 * s.stat.tpi + 1 := by
  have hlen := length_run h₀ h
  have hloaded := length_pagesLoaded_le h₀ h
  have hidles := idles_le h₀ h
  have hdue : s.tick.ioDue.toNat ≤ 1 := Bool.toNat_le _
  omega

/-- The lines to run bound the iterations. -/
theorem length_le_maxIterations (hD : 3 ≤ c.diskPenalty) (h₀ : c.start R = .ok s₀)
    (h : (c.machine R).Run s₀ ts s) :
    ts.length ≤ c.maxIterations s₀.ps.nextProc s₀.linesLeft := by
  have htpi := ((Setup.Reachable.of_run h₀ h).tpi_le hD).1
  rw [nextProc_run h₀ h] at htpi
  have hlines := tmr_add_left h₀ h
  have hmul : c.faultsPerHit s₀.ps.nextProc * (s.stat.tmr + 1) ≤
      c.faultsPerHit s₀.ps.nextProc * (s₀.linesLeft + 1) := Nat.mul_le_mul_left _ (by omega)
  have hlen := length_le h₀ h
  rw [Setup.maxIterations]
  omega

/-- In every run with a disk penalty of three ticks or more, the page faults are bounded by
    the references run: by as many for each of them as there are processes, if there are
    fewer than ticks of the disk penalty, and by `faultsPerHit` in any case. So the
    iterations are bounded by the lines to run. -/
theorem faults_bounded (c : Setup) (π : Policy) (hD : 3 ≤ c.diskPenalty) {s₀ s : Sim π.replace}
    {ts : List (Machine.Transition (Sim π.replace) Event)} (h₀ : c.start π.replace = .ok s₀)
    (h : (c.machine π.replace).Run s₀ ts s) :
    s.stat.tpi ≤ c.faultsPerHit s₀.ps.nextProc * (s.stat.tmr + 1) ∧
      (s.notDone = false → s.stat.tpi ≤ c.faultsPerHit s₀.ps.nextProc * s.stat.tmr) ∧
      (s₀.ps.nextProc < c.diskPenalty → c.faultsPerHit s₀.ps.nextProc = s₀.ps.nextProc) ∧
      ts.length ≤ c.maxIterations s₀.ps.nextProc s₀.linesLeft := by
  obtain ⟨htpi, hdone⟩ := (Setup.Reachable.of_run h₀ h).tpi_le hD
  rw [nextProc_run h₀ h] at htpi hdone
  exact ⟨le_trans (Nat.le_add_right _ _) htpi, hdone, Setup.faultsPerHit_of_lt,
    length_le_maxIterations hD h₀ h⟩

/-- Two processes with a page each, and the disk penalty of the program. -/
theorem faults_bounded_shipped : ∃ (s₀ : Sim Policy.lru.replace) (ts : _) (s : _),
    Setup.shipped.start Policy.lru.replace = .ok s₀ ∧
      (Setup.shipped.machine Policy.lru.replace).Returns s₀ ts s ∧ s.stat.tmr = 2 ∧
      s.stat.tpi ≤ 2 * 2 ∧ ts.length ≤ 21 := by
  obtain ⟨s₀, ts, s, h₀, h, -, hP⟩ := Setup.exists_run_of_after (c := .shipped)
    (R := Policy.lru.replace) (n := 8) (P := fun s => !s.notDone && s.stat.tmr == 2 &&
      s.ps.nextProc == 2) (by decide +kernel)
  obtain ⟨⟨hdone, htmr⟩, hnext⟩ : (s.notDone = false ∧ s.stat.tmr = 2) ∧ s.ps.nextProc = 2 := by
    simpa using hP
  obtain ⟨-, hret, hlt, hlen⟩ := faults_bounded .shipped .lru (by decide +kernel) h₀ h
  have hper : Setup.shipped.faultsPerHit s₀.ps.nextProc = 2 := by
    rw [← nextProc_run h₀ h, hnext]
    decide +kernel
  have hlines := tmr_add_left h₀ h
  have hret := hret hdone
  rw [hper, htmr] at hret
  refine ⟨s₀, ts, s, h₀, ⟨h, hdone⟩, htmr, hret, hlen.trans ?_⟩
  have hleft : s.linesLeft = 0 := Finset.sum_eq_zero fun p hp => by
    rw [((Setup.Reachable.of_run h₀ h).finished hdone (Finset.mem_range.1 hp)).2, List.length_nil]
  rw [Setup.maxIterations, hper]
  omega

end Pfsim
