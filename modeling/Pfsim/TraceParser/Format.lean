import Pfsim.Trace
import Pfsim.TraceParser.Index

/-!
# The format of a trace file

The format of a trace file (`Formatted`) is a sequence of records, a process
number other than zero and a page number, in decimal, up to the end of the file.
The first pass goes on as long as `fscanf` assigns something, and only refuses a
process number that is zero, which may be what the memory of a variable holds
(`Rejected`).

* `firstPass_cases`: the first pass ends, with its message if the file is
  rejected, and without if not;
* `Formatted.scan`: a formatted file is read record by record, so that it is not
  rejected.
-/

namespace Pfsim

/-- The format of a trace file. -/
inductive Formatted : List Char → Prop
  | space {cs : List Char} (h : ∀ x ∈ cs, isspace x = true) : Formatted cs
  | record {gap pid sep vpn rest : List Char} (gap_space : ∀ x ∈ gap, isspace x = true)
      (pid_digit : ∀ x ∈ pid, x.isDigit = true) (pid_ne_zero : decimal pid ≠ 0)
      (sep_space : ∀ x ∈ sep, isspace x = true) (sep_ne_nil : sep ≠ [])
      (vpn_digit : ∀ x ∈ vpn, x.isDigit = true) (vpn_ne_nil : vpn ≠ [])
      (rest_space : ∀ x ∈ rest.head?, isspace x = true) (h : Formatted rest) :
      Formatted (gap ++ (pid ++ (sep ++ (vpn ++ rest))))

/-- The exit of the first pass, at the line `n`. -/
def invalidFormat (n : ℕ) : Stop :=
  .exitFailure ("ERROR: Invalid trace file format at line " ++ toString n)

/-- The first pass finds a process number other than zero at the line `k + 1`. -/
def FindsPid (text : List Char) (k : ℕ) : Prop :=
  0 < (scanLine text k).result ∧ linePid text (k + 1) ≠ 0

/-- At the first line where it does not, there is the number 0, or there is no
    number, although the file goes on, and the variable `curr_pid` holds 0. -/
def Rejected (slot : ℕ → ℕ) (text : List Char) : Prop := ∃ k, (∀ j < k, FindsPid text j) ∧
  (0 < (scanLine text k).result ∧ linePid text (k + 1) = 0 ∨
    (scanLine text k).result = 0 ∧ slot (k + 1) = 0)

variable {slot : ℕ → ℕ} {text cs : List Char} {k n : ℕ} {f f' : FirstPass} {ps : Processes}

/-! ## The first pass ends -/

/-- What makes an iteration fail. -/
theorem rejects_iff (d : ℕ) :
    ((scanLine text k).values.headD d = 0 ∧ (scanLine text k).result ≥ 0) ↔
      0 < (scanLine text k).result ∧ linePid text (k + 1) = 0 ∨
        (scanLine text k).result = 0 ∧ d = 0 := by
  rcases lt_or_ge 0 (scanLine text k).result with hpos | hneg
  · rw [scanLine_of_pos hpos]
    omega
  · rw [scanLine_of_nonpos hneg]
    omega

/-- An iteration, at any line. -/
theorem iteration_eq (slot : ℕ → ℕ) (hcursor : f.cursor = lineStart text k)
    (hline : f.currLineNumber = k + 1) :
    if (scanLine text k).values.headD (slot (k + 1)) = 0 ∧ (scanLine text k).result ≥ 0 then
      f.iteration slot text = .error (invalidFormat (k + 1))
    else ∃ f', f.iteration slot text = .ok ((scanLine text k).result, f') ∧
      f'.cursor = lineStart text (k + 1) ∧ f'.currLineNumber = k + 2 := by
  have hscan : fscanf firstPassFormat (text.drop f.cursor) = scanLine text k := by
    rw [hcursor]
    rfl
  rw [FirstPass.iteration, hscan, hline]
  dsimp only
  split_ifs with hbad
  · rfl
  · refine ⟨_, rfl, ?_, ?_⟩
    · exact FirstPass.record_cursor
    · simp
  · exact ⟨_, rfl, rfl, rfl⟩

/-- The loop ends, with its message if the file is rejected, and without if not. -/
theorem loop_cases {fuel : ℕ} (hcursor : f.cursor = lineStart text k)
    (hline : f.currLineNumber = k + 1) (hfinds : ∀ j < k, FindsPid text j)
    (hfuel : text.length < lineStart text k + fuel) :
    (∃ f', f.loop slot text fuel = .ok f' ∧ ¬Rejected slot text) ∨
      ∃ n, f.loop slot text fuel = .error (invalidFormat n) ∧ Rejected slot text := by
  induction fuel generalizing f k with
  | zero =>
    have := lineStart_le text k
    omega
  | succ fuel ih =>
    have hiter := iteration_eq slot hcursor hline
    rw [FirstPass.loop]
    split_ifs at hiter with hbad
    · exact .inr ⟨k + 1, by rw [hiter]; rfl, k, hfinds, (rejects_iff _).1 hbad⟩
    obtain ⟨f₁, hok, hcursor₁, hline₁⟩ := hiter
    rw [rejects_iff, not_or] at hbad
    rw [hok, ok_bind]
    dsimp only
    by_cases hpos : 0 < (scanLine text k).result
    · -- A process number: the loop goes on, further in the file.
      have hfinds₁ : FindsPid text k := ⟨hpos, fun h0 => hbad.1 ⟨hpos, h0⟩⟩
      have hlt := lineStart_lt_succ hpos
      rw [if_pos hpos]
      refine ih hcursor₁ hline₁ (fun j hj => ?_) (by omega)
      rcases Nat.lt_succ_iff_lt_or_eq.1 hj with hj | rfl
      exacts [hfinds j hj, hfinds₁]
    · rw [if_neg hpos]
      refine .inl ⟨f₁, rfl, ?_⟩
      rintro ⟨j, hall, hj⟩
      rcases lt_trichotomy j k with hjk | rfl | hjk
      · have := hfinds j hjk
        rw [FindsPid] at this
        omega
      · exact hj.elim hbad.1 hbad.2
      · exact hpos (hall k hjk).1

/-- The first pass ends, with its message if the file is rejected, and without if
    not. -/
theorem firstPass_cases (slot : ℕ → ℕ) (text : List Char) :
    (∃ ps, firstPass slot text = .ok ps ∧ ¬Rejected slot text) ∨
      ∃ n, firstPass slot text = .error (invalidFormat n) ∧ Rejected slot text := by
  have hloop := @loop_cases slot text 0 .start (text.length + 1) rfl rfl
    (fun j hj => absurd hj j.not_lt_zero) (by rw [lineStart]; omega)
  rcases hloop with ⟨f, hf, hrej⟩ | ⟨n, hn, hrej⟩
  · exact .inl ⟨f.ps, by rw [firstPass, hf, ok_bind], hrej⟩
  · exact .inr ⟨n, by rw [firstPass, hn]; rfl, hrej⟩

/-! ## Formatted files -/

/-- What is left to read after a line. -/
theorem drop_lineStart_succ (text : List Char) (k : ℕ) :
    text.drop (lineStart text (k + 1)) = (scanLine text k).rest := by
  have hs : (scanLine text k).rest <:+ text :=
    (fscanf_suffix _ _).trans (List.drop_suffix _ _)
  exact (List.suffix_iff_eq_drop.1 hs).symm

/-- A formatted file starts with a record, or only has white space. -/
theorem Formatted.scan (h : Formatted cs) :
    (∀ x ∈ cs, isspace x = true) ∧ fscanf firstPassFormat cs = ⟨EOF, [], []⟩ ∨
      ∃ pid vpn rest, fscanf firstPassFormat cs = ⟨2, [pid, vpn], rest⟩ ∧ pid ≠ 0 ∧
        Formatted rest := by
  cases h with
  | space h => exact .inl ⟨h, Trace.fscanf_space h⟩
  | @record gap pid sep vpn rest hgap hpid hpid0 hsep hsep0 hvpn hvpn0 hrest h =>
    obtain ⟨x, xs, hx⟩ := List.exists_cons_of_ne_nil hsep0
    obtain ⟨y, ys, hy⟩ := List.exists_cons_of_ne_nil hvpn0
    have hpid' : pid ≠ [] := by
      rintro rfl
      exact hpid0 rfl
    have hspace : isspace x = true := hsep x (hx ▸ List.mem_cons_self)
    have hdigit : y.isDigit = true := hvpn y (hy ▸ List.mem_cons_self)
    have h₁ : scanLu (gap ++ (pid ++ (sep ++ (vpn ++ rest)))) =
        .value (strtoul false pid) (sep ++ (vpn ++ rest)) :=
      scanLu_number hgap hpid hpid' (by simpa [hx] using not_isDigit_of_isspace hspace)
    have hskip : (sep ++ (vpn ++ rest)).dropWhile isspace = vpn ++ rest :=
      dropWhile_append hsep (by simpa [hy] using not_isspace_of_isDigit hdigit)
    have h₂ : scanLu (vpn ++ rest) = .value (strtoul false vpn) rest :=
      scanLu_number (List.forall_mem_nil _) hvpn hvpn0 fun x hx =>
        not_isDigit_of_isspace (hrest x hx)
    refine .inr ⟨strtoul false pid, strtoul false vpn, rest, ?_, strtoul_ne_zero hpid0, h⟩
    simp only [fscanf, firstPassFormat, fscanfFrom, h₁, hskip, h₂, List.nil_append,
      List.cons_append]
    rfl

/-- It is formatted from every line on. -/
theorem Formatted.drop (h : Formatted text) (k : ℕ) : Formatted (text.drop (lineStart text k)) := by
  induction k with
  | zero => exact h
  | succ k ih =>
    rw [drop_lineStart_succ, scanLine]
    rcases ih.scan with ⟨-, hscan⟩ | ⟨pid, vpn, rest, hscan, -, hrest⟩
    · rw [hscan]
      exact .space (List.forall_mem_nil _)
    · rwa [hscan]

/-- So every line has a record, or there is only white space left. -/
theorem Formatted.scanLine (h : Formatted text) (k : ℕ) :
    (∀ x ∈ text.drop (lineStart text k), isspace x = true) ∧ (scanLine text k).result = EOF ∨
      ∃ pid vpn rest, Pfsim.scanLine text k = ⟨2, [pid, vpn], rest⟩ ∧ pid ≠ 0 := by
  rcases (h.drop k).scan with ⟨hspace, hscan⟩ | ⟨pid, vpn, rest, hscan, hpid, -⟩
  · exact .inl ⟨hspace, by rw [Pfsim.scanLine, hscan]⟩
  · exact .inr ⟨pid, vpn, rest, hscan, hpid⟩

theorem Formatted.not_rejected (h : Formatted text) : ¬Rejected slot text := by
  rintro ⟨k, -, hk⟩
  rcases h.scanLine k with ⟨-, heof⟩ | ⟨pid, vpn, rest, hscan, hpid⟩
  · rw [heof, EOF] at hk
    omega
  · rw [linePid, hscan] at hk
    rcases hk with ⟨-, h0⟩ | ⟨h0, -⟩
    · exact hpid h0
    · exact absurd h0 two_ne_zero

/-- The well-formed trace files are formatted, their numbers being `unsigned
    long`s besides. -/
theorem Trace.formatted (tr : Trace) : Formatted tr.text := by
  suffices h : ∀ n k, tr.length ≤ k + n → Formatted (tr.after k) from h tr.length 0 (by omega)
  intro n
  induction n with
  | zero =>
    intro k hk
    have hnil : tr.records.drop k = [] := List.drop_eq_nil_of_le hk
    rw [after, hnil]
    exact .space tr.trailing_space
  | succ n ih =>
    intro k hk
    by_cases hlt : k < tr.length
    · obtain ⟨r, hr⟩ := exists_record hlt
      rw [after_eq hr]
      exact .record r.gap_space r.pid_digit r.pid_ne_zero r.sep_space r.sep_ne_nil r.vpn_digit
        r.vpn_ne_nil (head_after_space k) (ih (k + 1) (by omega))
    · exact ih k (by omega)

end Pfsim
