import Pfsim.Fcfs
import Pfsim.Replace.Policy
import Pfsim.Simulator.Reachable

/-!
# The disk

The disk is a first-come first-served server, whose jobs are the page faults: the
blocked processes, with the pages they wait for, are its queue, and the timer of
the first one is what is left of its service (`Sim.server`). The moves of the
simulator are steps of the server (`Sim.Move.server`), a miss being an arrival
and the end of an I/O a departure.

* `served_of_run`: after a run, the server has done what it should;
* `disk_served`: what this means for the faults and the I/Os of the run.
-/

namespace Pfsim

/-- A job of the disk: a process, and the page it waits for. -/
abbrev Fault := ProcId × Option PageId

/-- What an iteration is to the disk. -/
def Event.action : Event → Fcfs.Action Fault
  | completion p v _ _ => .leave (p, some v)
  | miss r => .arrive (r.p, some r.v)
  | _ => .pass

section Server

variable {R : ReplaceModule} [R.Lawful] {c : Setup} {s s' s₀ : Sim R} {e : Event}

namespace Sim

/-- The disk, as a server. -/
def server (c : Setup) (s : Sim R) : Fcfs.Server Fault where
  now := s.time
  queue := (s.ps.pq .BLOCKED).map fun p => (p, (s.ps.procs p).waitingOnPage)
  left := match s.ps.peek .BLOCKED with
    | none => c.diskPenalty
    | some b => (s.ps.procs b).waitTime

omit [R.Lawful] in
theorem server_left {b : ProcId} {bs : List ProcId} (hb : s.ps.pq .BLOCKED = b :: bs) :
    (s.server c).left = (s.ps.procs b).waitTime := by
  simp only [server, Processes.peek, hb, List.head?_cons]

omit [R.Lawful] in
theorem server_left_nil (hb : s.ps.pq .BLOCKED = []) : (s.server c).left = c.diskPenalty := by
  simp only [server, Processes.peek, hb, List.head?_nil]

omit [R.Lawful] in
theorem server_queue_eq_nil : (s.server c).queue = [] ↔ s.ps.pq .BLOCKED = [] := List.map_eq_nil_iff

omit [R.Lawful] in
/-- A server, given by its fields. -/
theorem server_eq {now left : ℕ} {queue : List Fault} (hn : (s.server c).now = now)
    (hq : (s.server c).queue = queue) (hl : (s.server c).left = left) :
    s.server c = ⟨now, queue, left⟩ := by
  rw [← hn, ← hq, ← hl]

omit [R.Lawful] in
/-- Processes which are spared wait for the same pages. -/
theorem map_waitingOnPage {bs : List ProcId} (h : s.Move c e s') (hb : ∀ b ∈ bs, e.proc ≠ some b) :
    bs.map (fun p => (p, (s'.ps.procs p).waitingOnPage)) =
      bs.map fun p => (p, (s.ps.procs p).waitingOnPage) :=
  List.map_congr_left fun b hm => by rw [(h.spared (hb b hm)).waitingOnPage]

omit [R.Lawful] in
/-- What is left of the service after a tick. -/
theorem Move.server_left (h : s.Move c e s') (he : e ≠ .idle) {l : List ProcId}
    (hl : s'.ps.pq .BLOCKED = s.ps.pq .BLOCKED ++ l)
    (hne : ∀ b ∈ s.ps.pq .BLOCKED, e.proc ≠ some b)
    (hnil : s.ps.pq .BLOCKED = [] → (s'.server c).left = c.diskPenalty) :
    (s'.server c).left =
      if (s.server c).queue = [] then c.diskPenalty else (s.server c).left - 1 := by
  cases hb : s.ps.pq .BLOCKED with
  | nil => rw [if_pos (server_queue_eq_nil.2 hb), hnil hb]
  | cons b bs =>
    rw [if_neg (by simp [server_queue_eq_nil, hb]), Sim.server_left hb,
      Sim.server_left (by rw [hl, hb, List.cons_append]),
      (h.spared (hne b (by simp [hb]))).waitTime,
      timer_eq he, tickedTime_head hb]

omit [R.Lawful] in
/-- A job which is not over has more than a tick left. -/
theorem Timed.server_left (ht : s.Timed c) (hd : s.tick.ioDue = false)
    (hne : (s.server c).queue ≠ []) : 1 < (s.server c).left := by
  obtain ⟨b, bs, hb⟩ := List.exists_cons_of_ne_nil (mt server_queue_eq_nil.2 hne)
  rw [Sim.server_left hb]
  exact ht.head_lt hb hd

/-- The end of an I/O is a departure: the next job starts. -/
theorem Move.server_completion {p : ProcId} {v : PageId} {ppn : ℕ} {victim : Option PageId}
    (h : s.Move c (.completion p v ppn victim) s') (hs : s.WellFormed c) (ht : s.Timed c) :
    Fcfs.Step c.diskPenalty (s.server c) (.leave (p, some v)) (s'.server c) := by
  obtain ⟨bs, hb, hd, hv, hb'⟩ := h.completion_blocked
  have hne : ∀ b ∈ bs, (Event.completion p v ppn victim).proc ≠ some b := fun b hm =>
    h.proc_ne hs (hb ▸ List.mem_cons_of_mem _ hm) (hb' ▸ hm)
  have hsrc : s.server c = ⟨s.time, (p, some v) :: bs.map fun p =>
      (p, (s.ps.procs p).waitingOnPage), 1⟩ :=
    server_eq rfl (by rw [Sim.server, hb, List.map_cons, hv])
      ((Sim.server_left hb).trans (ht.head_eq hb hd))
  have hdst : s'.server c = ⟨s.time + 1, bs.map fun p => (p, (s.ps.procs p).waitingOnPage),
      c.diskPenalty⟩ := by
    refine server_eq (h.time (by simp)) ((congrArg _ hb').trans (map_waitingOnPage h hne)) ?_
    cases bs with
    | nil => exact server_left_nil hb'
    | cons a as =>
      rw [Sim.server_left hb', h.waitTime_rest hs ht hb (by simp) (hne a (by simp))]
  rw [hsrc, hdst]
  exact .leave _

omit [R.Lawful] in
/-- Skipping to the end of an I/O takes all but a tick of what is left. -/
theorem Move.server_idle (h : s.Move c .idle s') (ht : s.Timed c) :
    Fcfs.Step c.diskPenalty (s.server c) .pass (s'.server c) := by
  obtain ⟨b, bs, hb, hd, -, hb'⟩ := h.idle_blocked
  obtain ⟨htime, hw⟩ := h.time_idle hb
  have h1 := ht.head_lt hb hd
  have hleft : (s.server c).left = (s.ps.procs b).waitTime := Sim.server_left hb
  have hdst : s'.server c = ⟨(s.server c).now + ((s.ps.procs b).waitTime - 1),
      (s.server c).queue, if (s.server c).queue = [] then c.diskPenalty
        else (s.server c).left - ((s.ps.procs b).waitTime - 1)⟩ := by
    refine server_eq htime ?_ ?_
    · simp only [Sim.server, congrFun hb' .BLOCKED]
      exact map_waitingOnPage h fun a _ => by simp [Event.proc]
    · rw [if_neg (by simp [server_queue_eq_nil, hb]), hleft,
        Sim.server_left ((congrFun hb' _).trans hb), hw]
      omega
  rw [hdst]
  exact .pass _ fun _ => (show _ < (s.ps.procs b).waitTime by omega).trans_eq hleft.symm

/-- A hit is a tick of the server. -/
theorem Move.server_hit {r : Reference} (h : s.Move c (.hit r) s') (hs : s.WellFormed c)
    (ht : s.Timed c) : Fcfs.Step c.diskPenalty (s.server c) .pass (s'.server c) := by
  have hne : ∀ b ∈ s.ps.pq .BLOCKED, (Event.hit r).proc ≠ some b := fun b hb =>
    h.proc_ne hs hb (h.hit_blocked ▸ hb)
  have hleft := h.server_left (c := c) (by simp) (l := [])
    (by rw [h.hit_blocked, List.append_nil]) hne
    fun hb => server_left_nil (h.hit_blocked.trans hb)
  have hdst : s'.server c = ⟨(s.server c).now + 1, (s.server c).queue,
      if (s.server c).queue = [] then c.diskPenalty else (s.server c).left - 1⟩ := by
    refine server_eq (h.time (by simp)) ?_ hleft
    simp only [Sim.server, h.hit_blocked]
    exact map_waitingOnPage h hne
  rw [hdst]
  exact .pass 1 (ht.server_left h.hit_notDue)

/-- A fault arrives within a tick. -/
theorem Move.server_miss {r : Reference} (h : s.Move c (.miss r) s') (hs : s.WellFormed c)
    (ht : s.Timed c) :
    Fcfs.Step c.diskPenalty (s.server c) (.arrive (r.p, some r.v)) (s'.server c) := by
  obtain ⟨hb, hwait, hpage, -⟩ := h.miss_blocked
  have hne : ∀ b ∈ s.ps.pq .BLOCKED, (Event.miss r).proc ≠ some b := fun b hm =>
    h.proc_ne hs hm (hb ▸ List.mem_append_left _ hm)
  have hleft := h.server_left (c := c) (by simp) hb hne fun hnil => by
    rw [hnil, List.nil_append] at hb
    rw [Sim.server_left hb, hwait]
  have hdst : s'.server c = ⟨(s.server c).now + 1, (s.server c).queue ++ [(r.p, some r.v)],
      if (s.server c).queue = [] then c.diskPenalty else (s.server c).left - 1⟩ := by
    refine server_eq (h.time (by simp)) ?_ hleft
    simp only [Sim.server, hb, List.map_append, List.map_cons, List.map_nil, hpage]
    rw [map_waitingOnPage h hne]
  rw [hdst]
  exact .arrive _ (ht.server_left h.miss_notDue)

/-- An iteration is a step of the server. -/
theorem Move.server (h : s.Move c e s') (hs : s.WellFormed c) (ht : s.Timed c) :
    Fcfs.Step c.diskPenalty (s.server c) e.action (s'.server c) := by
  cases e with
  | completion p v ppn victim => exact h.server_completion hs ht
  | idle => exact h.server_idle ht
  | hit r => exact h.server_hit hs ht
  | miss r => exact h.server_miss hs ht

end Sim

/-! ## Runs -/

variable {ts : List (Machine.Transition (Sim R) Event)}

/-- The page faults of a run, in order, with the times at which they occur. -/
def faults (ts : List (Machine.Transition (Sim R) Event)) : List (Fault × ℕ) :=
  ts.flatMap fun t => t.lbl.action.arrivals t.dst.time

/-- The I/Os completed in a run, in order, with the times at which they are. -/
def completions (ts : List (Machine.Transition (Sim R) Event)) : List (Fault × ℕ) :=
  ts.flatMap fun t => t.lbl.action.departures t.dst.time

/-- After a run, the disk has done what a server should. -/
theorem served_of_run (h₀ : c.start R = .ok s₀) (h : (c.machine R).Run s₀ ts s) :
    Fcfs.Served c.diskPenalty (faults ts) (completions ts) (s.server c) := by
  refine Setup.run_invariant (J := fun ts s => Fcfs.Served c.diskPenalty (faults ts)
    (completions ts) (s.server c)) h₀ h (Fcfs.served_start ?_) fun ts s e s' hs hj hm => ?_
  · obtain ⟨ps, hp, rfl⟩ := Setup.start_eq h₀
    obtain ⟨n, -, -, hi⟩ := firstPass_indexed hp
    exact Sim.server_queue_eq_nil.2 hi.blocked
  · have hstep := hj.step c.diskPenalty_pos (hm.server hs.wellFormed hs.timed)
    rw [faults, completions, List.flatMap_append, List.flatMap_append, List.flatMap_singleton,
      List.flatMap_singleton]
    exact hstep

end Server

/-- The disk is a first-come first-served server. Whatever happens in a run, the
    `k`-th I/O completed is that of the `k`-th fault, a disk penalty after the
    fault and the completion before it; so is the next one, when it is due, even
    if the program exits for want of a frame. The faults whose I/O is not
    completed are those of the blocked processes. -/
theorem disk_served (c : Setup) (π : Policy) {s₀ s : Sim π.replace}
    {ts : List (Machine.Transition (Sim π.replace) Event)} (h₀ : c.start π.replace = .ok s₀)
    (h : (c.machine π.replace).Run s₀ ts s) :
    completions ts <+: Fcfs.serve c.diskPenalty 0 (faults ts) ∧
      (∀ b bs, s.ps.pq .BLOCKED = b :: bs → s.tick.ioDue = true →
        completions ts ++ [((b, (s.ps.procs b).waitingOnPage), s.time + 1)] <+:
          Fcfs.serve c.diskPenalty 0 (faults ts)) ∧
      (faults ts).map Prod.fst = (completions ts).map Prod.fst ++
        (s.ps.pq .BLOCKED).map (fun p => (p, (s.ps.procs p).waitingOnPage)) ∧
      (s.notDone = false → completions ts = Fcfs.serve c.diskPenalty 0 (faults ts)) ∧
      ∀ t ∈ ts, (∀ r, t.lbl = .miss r → t.src.Blocks t.dst r.p r.v) ∧
        ∀ p v ppn victim, t.lbl = .completion p v ppn victim →
          t.src.Loads t.dst p v ppn victim := by
  have hserved := served_of_run h₀ h
  refine ⟨hserved.prefix_serve, fun b bs hb hd => ?_, hserved.pending, fun hr => hserved.all ?_,
    fun t ht => ?_⟩
  · have htimed := (Setup.Reachable.of_run h₀ h).timed
    refine hserved.prefix_serve_leave (q := bs.map fun p => (p, (s.ps.procs p).waitingOnPage)) ?_ ?_
    · rw [Sim.server, hb, List.map_cons]
    · rw [Sim.server_left hb, htimed.head_eq hb hd]
  · have hb : s.ps.existsWithStatus .BLOCKED = false := by
      rw [Sim.notDone, Bool.or_eq_false_iff] at hr
      exact hr.2
    exact Sim.server_queue_eq_nil.2 (by simpa [Processes.existsWithStatus] using hb)
  · obtain ⟨hs, hm⟩ := Setup.move_of_mem h₀ h ht
    exact ⟨fun r e => (e ▸ hm).blocks hs.wellFormed,
      fun p v ppn victim e => (e ▸ hm).loads hs.wellFormed⟩

theorem disk_served_sample : ∃ (s₀ s : Sim Policy.lru.replace) (ts : _),
    Setup.sample.start Policy.lru.replace = .ok s₀ ∧
      (Setup.sample.machine Policy.lru.replace).Returns s₀ ts s ∧
      completions ts = Fcfs.serve 2 0 (faults ts) := by
  obtain ⟨s₀, ts, s, h₀, h, -, hs⟩ := Setup.exists_run_of_after (R := Policy.lru.replace)
    (c := .sample) (n := 10) (P := fun s => !s.notDone) (by decide +kernel)
  have hs : s.notDone = false := by simpa using hs
  exact ⟨s₀, s, ts, h₀, ⟨h, hs⟩, (disk_served .sample .lru h₀ h).2.2.2.1 hs⟩

end Pfsim
