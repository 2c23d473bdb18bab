import Mathlib.Data.Set.Function
import Pfsim.TraceParser.FirstPass

/-!
# Process numbers

The first pass looks for the process of a run of lines with the process number
as an `int`, although it is an `unsigned long`. Process numbers equal modulo
`2 ^ 32` have the same key, thus the same process.

* `processes_of_pids`: every process number has a process, with its lines and no
  others, if and only if distinct process numbers have distinct keys.
-/

namespace Pfsim

/-- Distinct process numbers are distinct modulo `2 ^ 32`. -/
def Trace.Distinct (tr : Trace) : Prop :=
  ∀ j, 1 ≤ j → j ≤ tr.length → ∀ k, 1 ≤ k → k ≤ tr.length →
    tr.pid j % 2 ^ 32 = tr.pid k % 2 ^ 32 → tr.pid j = tr.pid k

instance (tr : Trace) : Decidable tr.Distinct :=
  inferInstanceAs (Decidable (∀ j, 1 ≤ j → j ≤ tr.length → ∀ k, 1 ≤ k → k ≤ tr.length → _ → _))

theorem pidKey_eq_iff {a b : ℕ} : pidKey a = pidKey b ↔ a % 2 ^ 32 = b % 2 ^ 32 := by
  rw [pidKey, pidKey, BitVec.toInt_inj, ← BitVec.toNat_inj, BitVec.toNat_ofNat, BitVec.toNat_ofNat]

/-- The process numbers in the trace file. -/
def Trace.pids (tr : Trace) : Set ℕ := {x | ∃ k, 1 ≤ k ∧ k ≤ tr.length ∧ tr.pid k = x}

/-- The processes are those of the process numbers, one each, and have the lines of
    their process number. -/
structure Processes.OnePerPid (tr : Trace) (ps : Processes) : Prop where
  bijOn : Set.BijOn (fun p => (ps.procs p).pid) {p | p ∈ ps.pq .RUNNABLE} tr.pids
  lines : ∀ p ∈ ps.pq .RUNNABLE, ∀ k, k ∈ (ps.procs p).lineIntervals.lines ↔
    1 ≤ k ∧ k ≤ tr.length ∧ tr.pid k = (ps.procs p).pid

namespace Indexed

variable {tr : Trace} {ps : Processes} {p q : ProcId} {j k : ℕ}

/-- The lines of a process, by their keys. -/
theorem mem_lines (h : Indexed tr.pid (lineStart tr.text) tr.length ps) (hp : p < ps.nextProc) :
    k ∈ (ps.procs p).lineIntervals.lines ↔
      (1 ≤ k ∧ k ≤ tr.length) ∧ pidKey (tr.pid k) = pidKey (ps.procs p).pid := by
  rw [h.lines_eq hp, List.mem_filter, List.mem_range'_1, decide_eq_true_eq]
  refine and_congr_left fun _ => ?_
  omega

/-- A process number is that of the lines with its key, if distinct ones have
    distinct keys. -/
theorem pid_eq_iff (h : Indexed tr.pid (lineStart tr.text) tr.length ps) (hpids : tr.Distinct)
    (hp : p < ps.nextProc) (h1 : 1 ≤ k) (hk : k ≤ tr.length) :
    pidKey (tr.pid k) = pidKey (ps.procs p).pid ↔ tr.pid k = (ps.procs p).pid := by
  obtain ⟨hj1, hj⟩ := h.firstline_le hp
  rw [h.pid_eq hp]
  exact ⟨fun e => hpids k h1 hk _ hj1 hj (pidKey_eq_iff.1 e), fun e => by rw [e]⟩

theorem onePerPid (h : Indexed tr.pid (lineStart tr.text) tr.length ps) (hpids : tr.Distinct) :
    ps.OnePerPid tr := by
  have hlt {p : ProcId} : p ∈ ps.pq .RUNNABLE ↔ p < ps.nextProc := by
    rw [h.runnable, List.mem_range]
  refine ⟨⟨?_, ?_, ?_⟩, fun p hp k => ?_⟩
  · intro p hp
    obtain ⟨hj1, hj⟩ := h.firstline_le (hlt.1 hp)
    exact ⟨_, hj1, hj, (h.pid_eq (hlt.1 hp)).symm⟩
  · intro p hp q hq hpq
    exact h.key_inj (hlt.1 hp) (hlt.1 hq) (congrArg pidKey hpq)
  · rintro x ⟨k, h1, hk, rfl⟩
    obtain ⟨p, hp, i, hi, hik⟩ := h.cover h1 hk
    have hkey := ((h.mem_lines hp).1 (IntervalNode.mem_lines.2 ⟨i, hi, hik⟩)).2
    exact ⟨p, hlt.2 hp, ((h.pid_eq_iff hpids hp h1 hk).1 hkey).symm⟩
  · rw [h.mem_lines (hlt.1 hp), and_assoc]
    exact and_congr_right fun h1 => and_congr_right fun hk =>
      h.pid_eq_iff hpids (hlt.1 hp) h1 hk

/-- Two lines with the same key are of the same process, so of the same process
    number if each process has the lines of one. -/
theorem distinct_of_lines (h : Indexed tr.pid (lineStart tr.text) tr.length ps)
    (hps : ps.OnePerPid tr) : tr.Distinct := by
  intro j hj1 hj k hk1 hk hjk
  obtain ⟨p, hp, i, hi, hij⟩ := h.cover hj1 hj
  have hmem : p ∈ ps.pq .RUNNABLE := by rwa [h.runnable, List.mem_range]
  have hline := IntervalNode.mem_lines.2 ⟨i, hi, hij⟩
  have hkey := ((h.mem_lines hp).1 hline).2
  have hline' : k ∈ (ps.procs p).lineIntervals.lines :=
    (h.mem_lines hp).2 ⟨⟨hk1, hk⟩, (pidKey_eq_iff.2 hjk).symm.trans hkey⟩
  rw [((hps.lines p hmem j).1 hline).2.2, ((hps.lines p hmem k).1 hline').2.2]

end Indexed

/-- On a well-formed trace file, the first pass makes one process for each process
    number, with its lines, if and only if distinct process numbers are distinct
    modulo `2 ^ 32`. -/
theorem processes_of_pids (tr : Trace) (slot : ℕ → ℕ) :
    ∃ ps, firstPass slot tr.text = .ok ps ∧ (ps.OnePerPid tr ↔ tr.Distinct) := by
  obtain ⟨ps, hok, hi⟩ := tr.exists_firstPass slot
  exact ⟨ps, hok, hi.distinct_of_lines, hi.onePerPid⟩

/-- Two records, of the process numbers `1` and `2 ^ 32 + 1`. -/
def Trace.colliding : Trace where
  records := [.ofDigits [] gap_nil ('1', '1') (by decide),
    { gap := ['\n']
      pidDigits := ['4', '2', '9', '4', '9', '6', '7', '2', '9', '7']
      sep := [' ']
      vpnDigits := ['1']
      gap_space := gap_newline
      sep_space := sep_blank
      sep_ne_nil := blank_ne_nil
      pid_digit := by simp
      vpn_digit := one_isDigit
      pid_ne_nil := List.cons_ne_nil _ _
      vpn_ne_nil := one_ne_nil
      pid_le := by decide
      vpn_le := one_le
      pid_ne_zero := by decide }]
  trailing := ['\n']
  gaps := by simp
  trailing_space := gap_newline

/-- They share a process. -/
theorem processes_of_pids_colliding : ∃ ps, firstPass (fun _ => 0) Trace.colliding.text = .ok ps ∧
    Trace.colliding.pid 1 ≠ Trace.colliding.pid 2 ∧ ps.pq .RUNNABLE = [0] ∧
      (ps.procs 0).lineIntervals.lines = [1, 2] ∧ ¬ps.OnePerPid Trace.colliding := by
  obtain ⟨ps, hok, hi⟩ := Trace.colliding.exists_firstPass fun _ => 0
  have heval : (firstPass (fun _ => 0) Trace.colliding.text).toOption.all fun ps =>
      ps.pq .RUNNABLE == [0] && (ps.procs 0).lineIntervals.lines == [1, 2] := by decide +kernel
  rw [hok] at heval
  obtain ⟨hq, hlines⟩ : ps.pq .RUNNABLE = [0] ∧ (ps.procs 0).lineIntervals.lines = [1, 2] := by
    simpa [Except.toOption] using heval
  have hne : Trace.colliding.pid 1 ≠ Trace.colliding.pid 2 := by decide
  refine ⟨ps, hok, hne, hq, hlines, fun hps => hne ?_⟩
  have hpid (k : ℕ) (hk : k ∈ [1, 2]) : Trace.colliding.pid k = (ps.procs 0).pid :=
    ((hps.lines 0 (hq ▸ List.mem_singleton_self 0) k).1 (hlines ▸ hk)).2.2
  rw [hpid 1 (by simp), hpid 2 (by simp)]

end Pfsim
