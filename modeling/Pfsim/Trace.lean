import Mathlib.Data.List.DropRight
import Pfsim.Stdio

/-!
# Well-formed trace files

A trace file is well formed if it is a sequence of records (`Record`), pairs of
`unsigned long`s in decimal, the first one not zero, separated by white space
(`Trace`). The offset from which a record is read may be anywhere in the white
space before it (`Trace.At`), which is where the first pass and the simulator
differ.

* `Trace.fscanf_firstPassFormat`: reading a record stops right after it;
* `Trace.At.fscanf`, `Trace.At.next`: the simulator reads the record it is at,
  and is at the next one then.
-/

namespace Pfsim

/-- A record, with the white space before it. -/
structure Record where
  gap : List Char
  pidDigits : List Char
  sep : List Char
  vpnDigits : List Char
  gap_space : ∀ x ∈ gap, isspace x = true
  sep_space : ∀ x ∈ sep, isspace x = true
  sep_ne_nil : sep ≠ []
  pid_digit : ∀ x ∈ pidDigits, x.isDigit = true
  vpn_digit : ∀ x ∈ vpnDigits, x.isDigit = true
  pid_ne_nil : pidDigits ≠ []
  vpn_ne_nil : vpnDigits ≠ []
  pid_le : decimal pidDigits ≤ ULONG_MAX
  vpn_le : decimal vpnDigits ≤ ULONG_MAX
  pid_ne_zero : decimal pidDigits ≠ 0

namespace Record

variable (r : Record)

def pid : ℕ := decimal r.pidDigits

def vpn : ℕ := decimal r.vpnDigits

/-- The text of the record, then the rest of the file. -/
def layout (rest : List Char) : List Char :=
  r.gap ++ (r.pidDigits ++ (r.sep ++ (r.vpnDigits ++ rest)))

end Record

/-- A well-formed trace file: its records, and the white space after them. -/
structure Trace where
  records : List Record
  trailing : List Char
  gaps : ∀ r ∈ records.tail, r.gap ≠ []
  trailing_space : ∀ x ∈ trailing, isspace x = true

namespace Trace

variable (tr : Trace)

/-- The number of records. -/
def length : ℕ := tr.records.length

/-- What is left of the text after the first `k` records. -/
def after (k : ℕ) : List Char := (tr.records.drop k).foldr Record.layout tr.trailing

/-- The text of the file. -/
def text : List Char := tr.after 0

/-- The process number at the line `k`, or `0` if there is none. -/
def pid : ℕ → ℕ
  | 0 => 0
  | k + 1 => (tr.records[k]?.map Record.pid).getD 0

/-- The page number at the line `k`, or `0` if there is none. -/
def vpn : ℕ → ℕ
  | 0 => 0
  | k + 1 => (tr.records[k]?.map Record.vpn).getD 0

/-- From the offset `pos`, the next record is that of the line `k`. -/
def At (pos k : ℕ) : Prop :=
  (tr.text.drop pos).dropWhile isspace = (tr.after (k - 1)).dropWhile isspace

instance (pos k : ℕ) : Decidable (tr.At pos k) := inferInstanceAs (Decidable (_ = _))

variable {tr} {k pos : ℕ}

/-! ## The text -/

/-- After the last record, there is the blank space at the end of the file. -/
theorem after_length : tr.after tr.length = tr.trailing := by
  rw [after, length, List.drop_length]
  rfl

/-- After the records before it, there is the text of a record. -/
theorem after_eq {r : Record} (hr : tr.records[k]? = some r) :
    tr.after k = r.layout (tr.after (k + 1)) := by
  obtain ⟨hk, rfl⟩ := List.getElem?_eq_some_iff.1 hr
  rw [after, List.drop_eq_getElem_cons hk, List.foldr_cons]
  rfl

theorem exists_record (hk : k < tr.length) : ∃ r, tr.records[k]? = some r :=
  ⟨_, List.getElem?_eq_getElem hk⟩

/-- Each record takes some of the text. -/
theorem after_suffix_succ (k : ℕ) : tr.after (k + 1) <:+ tr.after k := by
  by_cases hk : k < tr.length
  · obtain ⟨r, hr⟩ := exists_record hk
    rw [after_eq hr, Record.layout]
    exact ((((List.suffix_append _ _).trans (List.suffix_append _ _)).trans
      (List.suffix_append _ _)).trans (List.suffix_append _ _))
  · have hle : tr.records.length ≤ k := not_lt.1 hk
    rw [after, after, List.drop_eq_nil_of_le hle, List.drop_eq_nil_of_le (by omega)]

theorem after_suffix (k : ℕ) : tr.after k <:+ tr.text := by
  induction k with
  | zero => exact List.suffix_rfl
  | succ k ih => exact (after_suffix_succ k).trans ih

/-- What is left of the text is where its length tells. -/
theorem drop_of_suffix {l : List Char} (hl : l <:+ tr.text) :
    tr.text.drop (tr.text.length - l.length) = l := (List.suffix_iff_eq_drop.1 hl).symm

/-- A record is followed by white space, if by anything. -/
theorem head_after_space (k : ℕ) : ∀ x ∈ (tr.after (k + 1)).head?, isspace x = true := by
  intro x hx
  by_cases hk : k + 1 < tr.length
  · obtain ⟨r, hr⟩ := exists_record hk
    have hmem : r ∈ tr.records.tail := by
      refine List.mem_iff_getElem?.2 ⟨k, ?_⟩
      rwa [List.getElem?_tail]
    obtain ⟨y, ys, hy⟩ := List.exists_cons_of_ne_nil (tr.gaps r hmem)
    rw [after_eq hr, Record.layout, hy] at hx
    obtain rfl : y = x := by simpa using hx
    exact r.gap_space y (hy ▸ List.mem_cons_self)
  · have hle : tr.records.length ≤ k + 1 := not_lt.1 hk
    rw [after, List.drop_eq_nil_of_le hle] at hx
    exact tr.trailing_space x (List.mem_of_mem_head? hx)

/-- A record is not followed by a digit. -/
theorem head_after (k : ℕ) : ∀ x ∈ (tr.after (k + 1)).head?, x.isDigit = false :=
  fun x hx => not_isDigit_of_isspace (head_after_space k x hx)

/-- There is more to drop in a longer text. -/
theorem length_dropWhile_le (p : Char → Bool) {l l' : List Char} (h : l' <:+ l) :
    (l'.dropWhile p).length ≤ (l.dropWhile p).length := by
  obtain ⟨x, rfl⟩ := h
  rw [List.dropWhile_append]
  split
  · exact le_rfl
  · rw [List.length_append]
    exact (List.dropWhile_suffix p).length_le.trans (Nat.le_add_left _ _)

/-! ## Reading records -/

/-- Reading a record, whatever comes next in the format. -/
theorem fscanf_layout (r : Record) {rest : List Char} (hrest : ∀ x ∈ rest.head?, x.isDigit = false)
    (f : List Directive) :
    fscanf (.lu :: .space :: .lu :: f) (r.layout rest) = fscanfFrom f rest [r.pid, r.vpn] := by
  obtain ⟨x, xs, hsep⟩ := List.exists_cons_of_ne_nil r.sep_ne_nil
  obtain ⟨y, ys, hvpn⟩ := List.exists_cons_of_ne_nil r.vpn_ne_nil
  have hx : isspace x = true := r.sep_space x (hsep ▸ List.mem_cons_self)
  have hy : y.isDigit = true := r.vpn_digit y (hvpn ▸ List.mem_cons_self)
  have hpid : scanLu (r.layout rest) = .value r.pid (r.sep ++ (r.vpnDigits ++ rest)) :=
    scanLu_digits r.gap_space r.pid_digit r.pid_ne_nil
      (by simpa [hsep] using not_isDigit_of_isspace hx) r.pid_le
  have hskip : (r.sep ++ (r.vpnDigits ++ rest)).dropWhile isspace = r.vpnDigits ++ rest :=
    dropWhile_append r.sep_space (by simpa [hvpn] using not_isspace_of_isDigit hy)
  have hvalue : scanLu (r.vpnDigits ++ rest) = .value r.vpn rest :=
    scanLu_digits (List.forall_mem_nil _) r.vpn_digit r.vpn_ne_nil hrest r.vpn_le
  simp only [fscanf, fscanfFrom, hpid, hskip, hvalue, List.nil_append, List.cons_append]

theorem pid_succ {r : Record} (hr : tr.records[k]? = some r) : tr.pid (k + 1) = r.pid := by
  rw [pid, hr]
  rfl

theorem vpn_succ {r : Record} (hr : tr.records[k]? = some r) : tr.vpn (k + 1) = r.vpn := by
  rw [vpn, hr]
  rfl

/-- Records have numbers of processes, which are not `0`. -/
theorem pid_ne_zero (h1 : 1 ≤ k) (hk : k ≤ tr.length) : tr.pid k ≠ 0 := by
  obtain ⟨k, rfl⟩ := Nat.exists_eq_succ_of_ne_zero (Nat.one_le_iff_ne_zero.1 h1)
  obtain ⟨r, hr⟩ := exists_record (Nat.lt_of_succ_le hk)
  rw [pid_succ hr]
  exact r.pid_ne_zero

/-- There is none after the last record. -/
theorem pid_eq_zero (hk : tr.length < k) : tr.pid k = 0 := by
  obtain ⟨k, rfl⟩ := Nat.exists_eq_succ_of_ne_zero (Nat.ne_zero_of_lt hk)
  rw [pid, List.getElem?_eq_none (Nat.le_of_lt_succ hk)]
  rfl

/-- The first pass reads the record it is before, and stops right after it. -/
theorem fscanf_firstPassFormat (hk : k < tr.length) : fscanf firstPassFormat (tr.after k) =
    ⟨2, [tr.pid (k + 1), tr.vpn (k + 1)], tr.after (k + 1)⟩ := by
  obtain ⟨r, hr⟩ := exists_record hk
  rw [after_eq hr, pid_succ hr, vpn_succ hr]
  exact fscanf_layout r (head_after k) []

/-- Past the records, it finds the end of the file. -/
theorem fscanf_space {cs : List Char} (h : ∀ x ∈ cs, isspace x = true) :
    fscanf firstPassFormat cs = ⟨EOF, [], []⟩ := by
  have hnil : cs.dropWhile isspace = [] := List.dropWhile_eq_nil_iff.2 h
  rw [fscanf, firstPassFormat, fscanfFrom, scanLu, hnil]
  rfl

/-- Right before its record. -/
theorem at_of_drop (h : tr.text.drop pos = tr.after k) : tr.At pos (k + 1) :=
  congrArg (List.dropWhile isspace) h

/-- The simulator reads the record it is at, and the white space after it. -/
theorem At.fscanf (h : tr.At pos k) (h1 : 1 ≤ k) (hk : k ≤ tr.length) :
    fscanf simulatorFormat (tr.text.drop pos) =
      ⟨2, [tr.pid k, tr.vpn k], (tr.after k).dropWhile isspace⟩ := by
  obtain ⟨k, rfl⟩ := Nat.exists_eq_succ_of_ne_zero (Nat.one_le_iff_ne_zero.1 h1)
  obtain ⟨r, hr⟩ := exists_record (Nat.lt_of_succ_le hk)
  rw [← simulatorFormat_dropWhile, h, simulatorFormat_dropWhile, Nat.succ_sub_one, after_eq hr,
    pid_succ hr, vpn_succ hr]
  exact fscanf_layout r (head_after k) [.space]

/-- Then it is at the next record. -/
theorem At.next (tr : Trace) (k : ℕ) :
    tr.At (tr.text.length - ((tr.after k).dropWhile isspace).length) (k + 1) := by
  rw [At, drop_of_suffix ((List.dropWhile_suffix _).trans (after_suffix k)), Nat.add_sub_cancel,
    List.dropWhile_idempotent]

/-- There is less to read after a record than at it. -/
theorem length_after_lt (h1 : 1 ≤ k) (hk : k ≤ tr.length) :
    ((tr.after k).dropWhile isspace).length < ((tr.after (k - 1)).dropWhile isspace).length := by
  have hdrop := drop_of_suffix ((List.dropWhile_suffix isspace).trans (tr.after_suffix (k - 1)))
  have hat : tr.At (tr.text.length - ((tr.after (k - 1)).dropWhile isspace).length) k := by
    rw [At, hdrop, List.dropWhile_idempotent]
  have hscan := hat.fscanf h1 hk
  rw [hdrop] at hscan
  exact simulatorFormat_length_lt hscan

/-- An offset up to that of a record is not that of the next one. -/
theorem At.not_at_succ {pos' : ℕ} (h : tr.At pos' k) (h1 : 1 ≤ k) (hk : k ≤ tr.length)
    (hle : pos ≤ pos') : ¬tr.At pos (k + 1) := fun h' => by
  have hsuffix : tr.text.drop pos' <:+ tr.text.drop pos := List.drop_suffix_drop_left _ hle
  have hlen := length_dropWhile_le isspace hsuffix
  rw [h, h', Nat.add_sub_cancel] at hlen
  exact absurd (length_after_lt h1 hk) (not_lt.2 hlen)

end Trace

/-! ## Short trace files -/

/-- The decimal digits. -/
def digits : List Char := ['0', '1', '2', '3', '4', '5', '6', '7', '8', '9']

theorem digits_ok : ∀ x ∈ digits, x.isDigit = true ∧ decimal [x] ≤ ULONG_MAX := by
  simp [digits, decimal, ULONG_MAX]

theorem digits_tail_ok : ∀ x ∈ digits.tail, decimal [x] ≠ 0 := by simp [digits, decimal]

theorem gap_nil : ∀ x ∈ ([] : List Char), isspace x = true := by simp

theorem gap_newline : ∀ x ∈ ['\n'], isspace x = true := by simp [isspace]

theorem sep_blank : ∀ x ∈ [' '], isspace x = true := by simp [isspace]

theorem blank_ne_nil : [' '] ≠ [] := List.cons_ne_nil _ _

theorem one_isDigit : ∀ x ∈ ['1'], x.isDigit = true := by simp

theorem one_le : decimal ['1'] ≤ ULONG_MAX := by decide

theorem one_ne_nil : ['1'] ≠ [] := List.cons_ne_nil _ _

theorem one_ne_zero : decimal ['1'] ≠ 0 := by decide

/-- The record of two digits, after a gap. -/
def Record.ofDigits (gap : List Char) (hgap : ∀ x ∈ gap, isspace x = true) (d : Char × Char)
    (hd : (digits.tail.contains d.1 && digits.contains d.2) = true) : Record :=
  have hd : d.1 ∈ digits.tail ∧ d.2 ∈ digits := by simpa using hd
  { gap := gap
    pidDigits := [d.1]
    sep := [' ']
    vpnDigits := [d.2]
    gap_space := hgap
    sep_space := sep_blank
    sep_ne_nil := blank_ne_nil
    pid_digit := by simpa using (digits_ok _ (List.mem_of_mem_tail hd.1)).1
    vpn_digit := by simpa using (digits_ok _ hd.2).1
    pid_ne_nil := List.cons_ne_nil _ _
    vpn_ne_nil := List.cons_ne_nil _ _
    pid_le := (digits_ok _ (List.mem_of_mem_tail hd.1)).2
    vpn_le := (digits_ok _ hd.2).2
    pid_ne_zero := digits_tail_ok _ hd.1 }

/-- The trace file of records of two digits, one a line. -/
def Trace.ofDigits (ds : List (Char × Char))
    (hds : (ds.all fun d => digits.tail.contains d.1 && digits.contains d.2) = true) : Trace where
  records :=
    (ds.take 1).pmap (Record.ofDigits [] gap_nil)
        (fun d hd => List.all_eq_true.1 hds d (List.mem_of_mem_take hd))
      ++ ds.tail.pmap (Record.ofDigits ['\n'] gap_newline)
        (fun d hd => List.all_eq_true.1 hds d (List.mem_of_mem_tail hd))
  trailing := ['\n']
  gaps r hr := by
    cases ds with
    | nil => cases hr
    | cons d ds =>
      obtain ⟨d', hd', rfl⟩ := List.mem_pmap.1 hr
      exact List.cons_ne_nil _ _
  trailing_space := gap_newline

/-- The last two digits of a page number. -/
def twoDigits (n : ℕ) : List Char := [Nat.digitChar (n / 10 % 10), Nat.digitChar (n % 10)]

theorem twoDigits_isDigit (n : ℕ) : ∀ x ∈ twoDigits n, x.isDigit = true := by
  simp only [twoDigits, List.forall_mem_cons, List.not_mem_nil, false_imp_iff, implies_true,
    and_true, Nat.isDigit_digitChar, decide_eq_true_eq]
  omega

theorem twoDigits_le (n : ℕ) : decimal (twoDigits n) ≤ ULONG_MAX := by
  have h : ∀ x ∈ twoDigits n, x.toNat ≤ 57 := fun x hx =>
    (Char.isDigit_iff_toNat.1 (twoDigits_isDigit n x hx)).2
  simp only [twoDigits, List.forall_mem_cons, List.not_mem_nil, false_imp_iff, implies_true,
    and_true] at h
  simp only [decimal, twoDigits, List.foldl_cons, List.foldl_nil, ULONG_MAX]
  omega

/-- The record of process `1` and of a page number below `100`, after a gap. -/
def Record.ofPage (gap : List Char) (hgap : ∀ x ∈ gap, isspace x = true) (n : ℕ) : Record where
  gap := gap
  pidDigits := ['1']
  sep := [' ']
  vpnDigits := twoDigits n
  gap_space := hgap
  sep_space := sep_blank
  sep_ne_nil := blank_ne_nil
  pid_digit := one_isDigit
  vpn_digit := twoDigits_isDigit n
  pid_ne_nil := one_ne_nil
  vpn_ne_nil := List.cons_ne_nil _ _
  pid_le := one_le
  vpn_le := twoDigits_le n
  pid_ne_zero := one_ne_zero

/-- The trace file of these records, one a line. -/
def Trace.ofPages (ns : List ℕ) : Trace where
  records := (ns.take 1).map (Record.ofPage [] gap_nil) ++
    ns.tail.map (Record.ofPage ['\n'] gap_newline)
  trailing := ['\n']
  gaps r hr := by
    cases ns with
    | nil => cases hr
    | cons n ns =>
      obtain ⟨m, hm, rfl⟩ := List.mem_map.1 hr
      exact List.cons_ne_nil _ _
  trailing_space := gap_newline

example : (Trace.ofDigits [('1', '1'), ('2', '0')] (by decide)).text =
    ['1', ' ', '1', '\n', '2', ' ', '0', '\n'] := by decide

end Pfsim
