import Mathlib.Data.Prod.Lex
import Pfsim.Process.Twin
import Pfsim.TraceParser.FirstPass

/-!
# Renaming the pages of a trace file

Two trace files may have the same records, but for the page numbers, which are renamed
(`Trace.Renamed`), and be laid out differently. The offsets kept by the simulator are
those where a record ends, or where the white space after it does: they correspond
(`Trace.Matches`), in the same order in both files, and the first passes give twin
processes.

* `Trace.Renamed.aligned`: the offsets which correspond are in the same order;
* `Trace.Renamed.firstPass`: the first passes over both files.
-/

namespace Pfsim

namespace Trace

/-- The file `tr'` has the records of `tr`, with the page numbers renamed by `f`. -/
structure Renamed (f : ℕ → ℕ) (tr tr' : Trace) : Prop where
  length : tr'.length = tr.length
  pid : ∀ k, tr'.pid k = tr.pid k
  vpn : ∀ k, 1 ≤ k → k ≤ tr.length → tr'.vpn k = f (tr.vpn k)

variable {tr tr' : Trace} {f : ℕ → ℕ} {k : ℕ}

theorem vpn_le (tr : Trace) (k : ℕ) : tr.vpn k ≤ ULONG_MAX := by
  cases k with
  | zero => exact Nat.zero_le _
  | succ k =>
    rw [vpn]
    cases tr.records[k]? with
    | none => exact Nat.zero_le _
    | some r => exact r.vpn_le

/-- Only the page numbers there are matter. -/
theorem Renamed.congr {g : ℕ → ℕ} (h : Renamed f tr tr') (hg : ∀ n ≤ ULONG_MAX, g n = f n) :
    Renamed g tr tr' :=
  ⟨h.length, h.pid, fun k h1 hk => (h.vpn k h1 hk).trans (hg _ (tr.vpn_le k)).symm⟩

/-! ## Offsets -/

/-- The offset after the first `k` records, or (`true`) after the white space that
    follows them too. -/
def offset (tr : Trace) (i : ℕ ×ₗ Bool) : ℕ :=
  let k := (ofLex i).1
  if (ofLex i).2 then tr.text.length - ((tr.after k).dropWhile isspace).length
  else lineStart tr.text k

/-- The offsets kept by the simulator. -/
def Kept (tr : Trace) (i : ℕ ×ₗ Bool) : Prop :=
  let k := (ofLex i).1
  if (ofLex i).2 then 1 ≤ k ∧ k ≤ tr.length else k < tr.length ∨ k = 0

/-- The offset `x` in one file is that of `x'` in the other one. -/
def Matches (tr tr' : Trace) (x x' : ℕ) : Prop :=
  ∃ i, tr.Kept i ∧ x = tr.offset i ∧ x' = tr'.offset i

/-- The text left at the end of a record. -/
theorem length_after (hk : k ≤ tr.length) :
    (tr.after k).length = tr.text.length - lineStart tr.text k := by
  rw [← drop_lineStart hk, List.length_drop]

theorem lineStart_le_offset (hk : k ≤ tr.length) :
    lineStart tr.text k ≤ tr.offset (toLex (k, true)) := by
  have hle := (List.dropWhile_suffix (l := tr.after k) isspace).length_le
  have hlen := length_after hk
  have := lineStart_le tr.text k
  change _ ≤ tr.text.length - ((tr.after k).dropWhile isspace).length
  omega

/-- There is white space between records. -/
theorem lineStart_lt_offset (h1 : 1 ≤ k) (hk : k < tr.length) :
    lineStart tr.text k < tr.offset (toLex (k, true)) := by
  obtain ⟨r, hr⟩ := exists_record hk
  have hmem : r ∈ tr.records.tail := by
    obtain ⟨j, rfl⟩ := Nat.exists_eq_succ_of_ne_zero (Nat.one_le_iff_ne_zero.1 h1)
    exact List.mem_iff_getElem?.2 ⟨j, by rwa [List.getElem?_tail]⟩
  obtain ⟨y, ys, hy⟩ := List.exists_cons_of_ne_nil (tr.gaps r hmem)
  have hlt : ((tr.after k).dropWhile isspace).length < (tr.after k).length := by
    rw [after_eq hr, Record.layout, hy, List.cons_append,
      List.dropWhile_cons_of_pos (r.gap_space y (hy ▸ List.mem_cons_self))]
    exact Nat.lt_succ_of_le (List.dropWhile_suffix isspace).length_le
  have hlen := length_after hk.le
  have := lineStart_le tr.text k
  change _ < tr.text.length - ((tr.after k).dropWhile isspace).length
  omega

/-- A record is not empty. -/
theorem offset_lt_lineStart (hk : k < tr.length) :
    tr.offset (toLex (k, true)) < lineStart tr.text (k + 1) := by
  obtain ⟨r, hr⟩ := exists_record hk
  obtain ⟨y, ys, hy⟩ := List.exists_cons_of_ne_nil r.pid_ne_nil
  have hdigit : y.isDigit = true := r.pid_digit y (hy ▸ List.mem_cons_self)
  have hdrop : (tr.after k).dropWhile isspace =
      r.pidDigits ++ (r.sep ++ (r.vpnDigits ++ tr.after (k + 1))) := by
    rw [after_eq hr, Record.layout]
    exact dropWhile_append r.gap_space (by simpa [hy] using not_isspace_of_isDigit hdigit)
  have hlt : (tr.after (k + 1)).length < ((tr.after k).dropWhile isspace).length := by
    rw [hdrop, hy, List.cons_append, List.length_cons]
    exact Nat.lt_succ_of_le ((((List.suffix_append _ _).trans (List.suffix_append _ _)).trans
      (List.suffix_append _ _)).length_le)
  have hlen : (tr.after (k + 1)).length = tr.text.length - lineStart tr.text (k + 1) :=
    length_after hk
  have hle := ((List.dropWhile_suffix isspace).trans (tr.after_suffix k)).length_le
  have := lineStart_le tr.text (k + 1)
  change tr.text.length - ((tr.after k).dropWhile isspace).length < _
  omega

/-- The offsets kept are in the order of the records. -/
theorem strictMonoOn_offset (tr : Trace) : StrictMonoOn tr.offset {i | tr.Kept i} := by
  rintro ⟨j, a⟩ hi ⟨k, b⟩ hj hlt
  rcases Prod.Lex.toLex_lt_toLex.1 hlt with hjk | ⟨hjk, hab⟩
  · have hjk : j < k := hjk
    have hk : k ≤ tr.length := by
      cases b with
      | true => exact hj.2
      | false => exact hj.elim Nat.le_of_lt fun h0 => h0.trans_le (Nat.zero_le _)
    have hstart : tr.offset (toLex (j, a)) < lineStart tr.text k := by
      cases a with
      | true => exact (offset_lt_lineStart (hjk.trans_le hk)).trans_le (lineStart_mono hjk)
      | false => exact lineStart_lt hjk hk
    cases b with
    | true => exact hstart.trans_le (lineStart_le_offset hk)
    | false => exact hstart
  · obtain rfl : j = k := hjk
    obtain ⟨rfl, rfl⟩ : a = false ∧ b = true := Bool.lt_iff.1 hab
    obtain ⟨h1, hk⟩ : 1 ≤ j ∧ j ≤ tr.length := hj
    have hlast : j < tr.length ∨ j = 0 := hi
    exact lineStart_lt_offset h1 (hlast.resolve_right (Nat.one_le_iff_ne_zero.1 h1))

/-- At an offset kept, the simulator is at the next record. -/
theorem Kept.at {i : ℕ ×ₗ Bool} (h : tr.Kept i) : tr.At (tr.offset i) ((ofLex i).1 + 1) := by
  obtain ⟨k, b⟩ := i
  cases b with
  | true => exact At.next tr k
  | false =>
    have hk : k ≤ tr.length := h.elim Nat.le_of_lt fun h0 => h0.trans_le (Nat.zero_le _)
    exact at_of_drop (drop_lineStart hk)

/-- Past the records, the simulator reads nothing. -/
theorem At.fscanf_past {pos : ℕ} (h : tr.At pos k) (hk : tr.length < k) :
    Pfsim.fscanf simulatorFormat (tr.text.drop pos) = ⟨EOF, [], []⟩ := by
  have hnil : (tr.text.drop pos).dropWhile isspace = [] := by
    rw [h, after, List.drop_eq_nil_of_le (Nat.le_sub_one_of_lt hk)]
    exact List.dropWhile_eq_nil_iff.2 tr.trailing_space
  rw [Pfsim.fscanf, simulatorFormat, fscanfFrom, scanLu, hnil]
  rfl

namespace Renamed

theorem kept (h : Renamed f tr tr') {i : ℕ ×ₗ Bool} : tr'.Kept i ↔ tr.Kept i := by
  rw [Kept, Kept, h.length]

/-- The offsets which correspond are in the same order. -/
theorem aligned (h : Renamed f tr tr') : Aligned (tr.Matches tr') where
  zero := ⟨toLex (0, false), .inr rfl, rfl, rfl⟩
  lt_iff := by
    rintro _ _ _ _ ⟨i, hi, rfl, rfl⟩ ⟨j, hj, rfl, rfl⟩
    rw [tr.strictMonoOn_offset.lt_iff_lt hi hj,
      tr'.strictMonoOn_offset.lt_iff_lt (h.kept.2 hi) (h.kept.2 hj)]

/-- From offsets which correspond, the same records are read, but for the page numbers. -/
theorem scan (h : Renamed f tr tr') {x x' : ℕ} (hx : tr.Matches tr' x x') :
    (∃ pid vpn rest rest', Pfsim.fscanf simulatorFormat (tr.text.drop x) = ⟨2, [pid, vpn], rest⟩ ∧
      Pfsim.fscanf simulatorFormat (tr'.text.drop x') = ⟨2, [pid, f vpn], rest'⟩ ∧
      tr.Matches tr' (tr.text.length - rest.length) (tr'.text.length - rest'.length)) ∨
    (∀ pid vpn rest, Pfsim.fscanf simulatorFormat (tr.text.drop x) ≠ ⟨2, [pid, vpn], rest⟩) ∧
      ∀ pid vpn rest, Pfsim.fscanf simulatorFormat (tr'.text.drop x') ≠ ⟨2, [pid, vpn], rest⟩ := by
  obtain ⟨i, hi, rfl, rfl⟩ := hx
  have hat := hi.at
  have hat' := (h.kept.2 hi).at
  set k := (ofLex i).1
  by_cases hk : k < tr.length
  · have hk' : k + 1 ≤ tr'.length := h.length ▸ hk
    have h1 : 1 ≤ k + 1 := Nat.succ_pos k
    refine .inl ⟨_, _, _, (tr'.after (k + 1)).dropWhile isspace, hat.fscanf h1 hk, ?_,
      toLex (k + 1, true), ⟨h1, hk⟩, rfl, rfl⟩
    rw [hat'.fscanf h1 hk', h.pid, h.vpn (k + 1) h1 hk]
  · refine .inr ⟨fun pid vpn rest => ?_, fun pid vpn rest => ?_⟩
    · rw [hat.fscanf_past (by omega)]
      simp
    · rw [hat'.fscanf_past (by rw [h.length]; omega)]
      simp

end Renamed

end Trace

/-! ## The first passes -/

namespace FirstPass

/-- What an iteration comes to if it does not stop, the process number `currPid` having been
    read, up to the offset `cursor`. -/
def advanced (p : FirstPass) (currPid : ℕ) (result : ℤ) (cursor : ℕ) : FirstPass :=
  let q : FirstPass :=
    if p.pid ≠ 0 ∧ (currPid ≠ p.pid ∨ result ≤ 0) then
      { ({ p with cursor := cursor } : FirstPass).record with
        startFpos := p.cursor
        startLineNumber := p.currLineNumber }
    else { p with cursor := cursor }
  { q with pid := currPid, currLineNumber := p.currLineNumber + 1 }

theorem iteration_eq {slot : ℕ → ℕ} {text : List Char} {p : FirstPass} {scanned : Pfsim.Scanned}
    {currPid : ℕ} (hscan : fscanf firstPassFormat (text.drop p.cursor) = scanned)
    (hpid : scanned.values.headD (slot p.currLineNumber) = currPid)
    (hok : ¬(currPid = 0 ∧ scanned.result ≥ 0)) :
    p.iteration slot text = .ok (scanned.result,
      p.advanced currPid scanned.result (text.length - scanned.rest.length)) := by
  rw [iteration, hscan]
  dsimp only
  rw [hpid, if_neg hok, advanced]
  split
  · rw [record_currLineNumber]
  · rfl

theorem cursor_advanced {p : FirstPass} {currPid : ℕ} {result : ℤ} {x : ℕ} :
    (p.advanced currPid result x).cursor = x := by
  rw [advanced]
  split
  · exact record_cursor
  · rfl

/-- Two first passes, at the same line: they only differ in offsets, which correspond. -/
structure Twin (At : ℕ → ℕ → Prop) (f : ℕ → ℕ) (p p' : FirstPass) : Prop where
  searchTree : p'.searchTree = p.searchTree
  pid : p'.pid = p.pid
  startLineNumber : p'.startLineNumber = p.startLineNumber
  currLineNumber : p'.currLineNumber = p.currLineNumber
  startFpos : At p.startFpos p'.startFpos
  ps : p.ps.Twin At f p'.ps

namespace Twin

variable {At : ℕ → ℕ → Prop} {f : ℕ → ℕ} {p p' : FirstPass}

/-- A run closed by both. -/
theorem record (hat : Aligned At) (h : p.Twin At f p') : p.record.Twin At f p'.record := by
  have hnode : ((IntervalNode.initnode p.startLineNumber (p.currLineNumber - 1)).setFpos
      p.startFpos).Twin At ((IntervalNode.initnode p.startLineNumber
        (p.currLineNumber - 1)).setFpos p'.startFpos) := .node h.startFpos .null .null
  rw [FirstPass.record, FirstPass.record]
  dsimp only
  rw [h.searchTree, h.pid, h.startLineNumber, h.currLineNumber]
  split
  · next owner _ =>
    refine ⟨rfl, rfl, rfl, rfl, h.startFpos, ?_⟩
    dsimp only
    exact h.ps.modify ((h.ps.procs owner).insert hnode _)
  · refine ⟨?_, rfl, rfl, rfl, h.startFpos, h.ps.initProcess hat hnode _ _ _⟩
    rw [Processes.initProcess, Processes.initProcess, h.ps.nextProc]

/-- A record read by both. -/
theorem advanced (hat : Aligned At) (h : p.Twin At f p') (hcursor : At p.cursor p'.cursor)
    (currPid : ℕ) (result : ℤ) (x x' : ℕ) :
    (p.advanced currPid result x).Twin At f (p'.advanced currPid result x') := by
  have hline : p'.currLineNumber + 1 = p.currLineNumber + 1 := congrArg (· + 1) h.currLineNumber
  have hrec : ({ p with cursor := x } : FirstPass).record.Twin At f
      ({ p' with cursor := x' } : FirstPass).record := record hat { h with }
  have hif : (p'.pid ≠ 0 ∧ (currPid ≠ p'.pid ∨ result ≤ 0)) ↔
      p.pid ≠ 0 ∧ (currPid ≠ p.pid ∨ result ≤ 0) := by rw [h.pid]
  rw [FirstPass.advanced, FirstPass.advanced]
  by_cases hc : p.pid ≠ 0 ∧ (currPid ≠ p.pid ∨ result ≤ 0)
  · rw [if_pos hc, if_pos (hif.2 hc)]
    exact ⟨hrec.searchTree, rfl, h.currLineNumber, hline, hcursor, hrec.ps⟩
  · rw [if_neg hc, if_neg (mt hif.1 hc)]
    exact ⟨h.searchTree, rfl, h.startLineNumber, hline, h.startFpos, h.ps⟩

/-- The end of the file, found by both. -/
theorem ps_advanced (hat : Aligned At) (h : p.Twin At f p') (pid pid' x x' : ℕ) :
    (p.advanced pid EOF x).ps.Twin At f (p'.advanced pid' EOF x').ps := by
  have hrec : ({ p with cursor := x } : FirstPass).record.Twin At f
      ({ p' with cursor := x' } : FirstPass).record := record hat { h with }
  have hif (q : FirstPass) (currPid : ℕ) :
      (q.pid ≠ 0 ∧ (currPid ≠ q.pid ∨ EOF ≤ 0)) ↔ q.pid ≠ 0 :=
    and_iff_left (.inr (by decide))
  rw [FirstPass.advanced, FirstPass.advanced]
  by_cases hc : p.pid ≠ 0
  · rw [if_pos ((hif p pid).2 hc), if_pos ((hif p' pid').2 (h.pid ▸ hc))]
    exact hrec.ps
  · rw [if_neg (mt (hif p pid).1 hc), if_neg (mt (hif p' pid').1 (h.pid ▸ hc))]
    exact h.ps

end Twin

end FirstPass

namespace Trace.Renamed

variable {tr tr' : Trace} {f : ℕ → ℕ} {k : ℕ} {p p' : FirstPass}

/-- The rest of the first passes, from the line `k`, whatever the number of iterations they
    are given. -/
theorem loop (h : Renamed f tr tr') (slot slot' : ℕ → ℕ) {n n' : ℕ} (hk : k ≤ tr.length)
    (hn : tr.length < k + n) (hn' : tr.length < k + n') (hp : p.Twin (tr.Matches tr') f p')
    (hcursor : p.cursor = lineStart tr.text k) (hcursor' : p'.cursor = lineStart tr'.text k) :
    ∃ q q', p.loop slot tr.text n = .ok q ∧ p'.loop slot' tr'.text n' = .ok q' ∧
      q.ps.Twin (tr.Matches tr') f q'.ps := by
  induction n generalizing k n' p p' with
  | zero => omega
  | succ n ih =>
    obtain ⟨n', rfl⟩ := Nat.exists_eq_succ_of_ne_zero (show n' ≠ 0 by omega)
    have hscan : Pfsim.fscanf firstPassFormat (tr.text.drop p.cursor) = scanLine tr.text k := by
      rw [hcursor]
      rfl
    have hscan' : Pfsim.fscanf firstPassFormat (tr'.text.drop p'.cursor) = scanLine tr'.text k := by
      rw [hcursor']
      rfl
    rw [FirstPass.loop, FirstPass.loop]
    by_cases hlt : k < tr.length
    · -- A record is read by both.
      have hlt' : k < tr'.length := h.length ▸ hlt
      rw [scanLine_eq hlt] at hscan
      rw [scanLine_eq hlt', h.pid] at hscan'
      have hne : tr.pid (k + 1) ≠ 0 := pid_ne_zero (Nat.succ_pos k) hlt
      have hfpos : tr.Matches tr' p.cursor p'.cursor :=
        ⟨toLex (k, false), .inl hlt, hcursor, hcursor'⟩
      have hend : tr.text.length - (tr.after (k + 1)).length = lineStart tr.text (k + 1) := by
        rw [lineStart, drop_lineStart hk, fscanf_firstPassFormat hlt]
      have hend' : tr'.text.length - (tr'.after (k + 1)).length = lineStart tr'.text (k + 1) := by
        rw [lineStart, drop_lineStart hlt'.le, fscanf_firstPassFormat hlt']
      rw [FirstPass.iteration_eq hscan rfl fun e => hne e.1, ok_bind,
        FirstPass.iteration_eq hscan' rfl fun e => hne e.1, ok_bind]
      dsimp only
      rw [if_pos two_pos, if_pos two_pos]
      exact ih hlt (by omega) (by omega) (hp.advanced h.aligned hfpos _ _ _ _)
        (FirstPass.cursor_advanced.trans hend) (FirstPass.cursor_advanced.trans hend')
    · -- Both are at the end.
      rw [scanLine_past (not_lt.1 hlt)] at hscan
      rw [scanLine_past (h.length ▸ not_lt.1 hlt)] at hscan'
      rw [FirstPass.iteration_eq hscan rfl fun e => absurd e.2 (by decide), ok_bind,
        FirstPass.iteration_eq hscan' rfl fun e => absurd e.2 (by decide), ok_bind]
      exact ⟨_, _, rfl, rfl, hp.ps_advanced h.aligned _ _ _ _⟩

/-- The first passes over both files. -/
theorem firstPass (h : Renamed f tr tr') (slot slot' : ℕ → ℕ) :
    ∃ ps ps', Pfsim.firstPass slot tr.text = .ok ps ∧ Pfsim.firstPass slot' tr'.text = .ok ps' ∧
      ps.Twin (tr.Matches tr') f ps' := by
  have hstart : FirstPass.start.Twin (tr.Matches tr') f .start :=
    ⟨rfl, rfl, rfl, rfl, h.aligned.zero,
      fun _ => ⟨rfl, rfl, rfl, rfl, rfl, h.aligned.zero, .null, .null, rfl, rfl, rfl⟩,
      rfl, rfl, rfl⟩
  have hn := tr.length_le
  have hn' := tr'.length_le
  have hlen := h.length
  obtain ⟨q, q', hq, hq', ht⟩ := h.loop slot slot' (Nat.zero_le _)
    (show tr.length < 0 + (tr.text.length + 1) by omega)
    (show tr.length < 0 + (tr'.text.length + 1) by omega) hstart rfl rfl
  exact ⟨q.ps, q'.ps, by rw [Pfsim.firstPass, hq, ok_bind],
    by rw [Pfsim.firstPass, hq', ok_bind], ht⟩

end Trace.Renamed

end Pfsim
