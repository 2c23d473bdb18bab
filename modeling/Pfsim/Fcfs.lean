import Mathlib.Tactic

/-!
# First-come first-served servers

A server which serves jobs one at a time, in the order of their arrivals, each
for `d` units of time. What it should do is given by the recurrence `serve`: a job
leaves `d` units of time after it has arrived and the job before it has left.

A state of the server has the jobs which have not left, the first one being
served, and what is left of its service. It changes in three ways (`Step`): time
passes, a job arrives, or the first one leaves.

* `Served.step`: whatever happens, jobs leave as they should;
* `Served.prefix_serve`, `Served.prefix_serve_leave`: those which have left, and the next one
  when it leaves, are a prefix of those which should;
* `Step.work`: any unit of time is of service, unless the server is empty.
-/

namespace Fcfs

variable {J : Type*} (d : ℕ)

/-! ## What a server should do -/

/-- The times at which jobs leave, given those at which they arrive, when the
    server is free at the time `c`. -/
def serve : ℕ → List (J × ℕ) → List (J × ℕ)
  | _, [] => []
  | c, (j, f) :: js => (j, max f c + d) :: serve (max f c + d) js

/-- The time at which the server is free, after the jobs. -/
def freeAt : ℕ → List (J × ℕ) → ℕ
  | c, [] => c
  | c, (_, f) :: js => freeAt (max f c + d) js

variable {d}

theorem serve_append (c : ℕ) (js ks : List (J × ℕ)) :
    serve d c (js ++ ks) = serve d c js ++ serve d (freeAt d c js) ks := by
  induction js generalizing c with
  | nil => rfl
  | cons j js ih => rw [List.cons_append, serve, ih, serve, List.cons_append, freeAt]

theorem freeAt_append (c : ℕ) (js ks : List (J × ℕ)) :
    freeAt d c (js ++ ks) = freeAt d (freeAt d c js) ks := by
  induction js generalizing c with
  | nil => rfl
  | cons j js ih => rw [List.cons_append, freeAt, ih, freeAt]

/-- Every job is served, and they keep their order. -/
theorem map_fst_serve (c : ℕ) (js : List (J × ℕ)) :
    (serve d c js).map Prod.fst = js.map Prod.fst := by
  induction js generalizing c with
  | nil => rfl
  | cons j js ih => rw [serve, List.map_cons, ih, List.map_cons]

/-! ## What a server does -/

/-- A server, at the time `now`: the jobs there, and what is left of the service
    of the first one (`d` if there is none). -/
structure Server (J : Type*) where
  now : ℕ
  queue : List J
  left : ℕ

/-- What happens to a server. -/
inductive Action (J : Type*)
  | pass
  | arrive (j : J)
  | leave (j : J)

/-- The steps of a server: `t` units of time pass, in which no job leaves; a
    unit of time passes, then a job arrives; or a unit of time passes, and the
    first job leaves. -/
inductive Step (d : ℕ) : Server J → Action J → Server J → Prop
  | pass {now left : ℕ} {queue : List J} (t : ℕ) (h : queue ≠ [] → t < left) :
      Step d ⟨now, queue, left⟩ .pass ⟨now + t, queue, if queue = [] then d else left - t⟩
  | arrive {now left : ℕ} {queue : List J} (j : J) (h : queue ≠ [] → 1 < left) :
      Step d ⟨now, queue, left⟩ (.arrive j)
        ⟨now + 1, queue ++ [j], if queue = [] then d else left - 1⟩
  | leave {now : ℕ} {queue : List J} (j : J) :
      Step d ⟨now, j :: queue, 1⟩ (.leave j) ⟨now + 1, queue, d⟩

/-- The arrivals after an action, at the time `t`. -/
def Action.arrivals (a : Action J) (t : ℕ) : List (J × ℕ) :=
  match a with
  | arrive j => [(j, t)]
  | _ => []

/-- The departures after an action, at the time `t`. -/
def Action.departures (a : Action J) (t : ℕ) : List (J × ℕ) :=
  match a with
  | leave j => [(j, t)]
  | _ => []

/-- The jobs `pending` are in the server, which has been free since `c`. -/
structure Busy (d c : ℕ) (pending : List (J × ℕ)) (st : Server J) : Prop where
  queue : st.queue = pending.map Prod.fst
  arrived : ∀ j ∈ pending, j.2 ≤ st.now
  free : c ≤ st.now
  left : ∀ j ∈ pending.head?, st.now + st.left = max j.2 c + d ∧ 1 ≤ st.left ∧ st.left ≤ d

/-- After the arrivals `arr` and the departures `dep`, the server has done what
    it should. -/
def Served (d : ℕ) (arr dep : List (J × ℕ)) (st : Server J) : Prop :=
  ∃ done pending, arr = done ++ pending ∧ dep = serve d 0 done ∧
    Busy d (freeAt d 0 done) pending st

variable {arr dep : List (J × ℕ)} {st st' : Server J} {a : Action J} {j : J}

theorem served_start (hq : st.queue = []) : Served d [] [] st :=
  ⟨[], [], rfl, rfl, hq, by simp, Nat.zero_le _, by simp⟩

namespace Busy

variable {c now left t f : ℕ} {queue : List J} {pending : List (J × ℕ)}

/-- The service goes on while time passes. -/
theorem pass (h : Busy d c pending ⟨now, queue, left⟩) (ht : queue ≠ [] → t < left) :
    Busy d c pending ⟨now + t, queue, if queue = [] then d else left - t⟩ := by
  refine ⟨h.queue, fun j hj => (h.arrived j hj).trans (Nat.le_add_right _ _),
    h.free.trans (Nat.le_add_right _ _), fun j hj => ?_⟩
  obtain ⟨h1, h2, h3⟩ := h.left j hj
  have hne : queue ≠ [] := by
    rintro rfl
    obtain rfl : pending = [] := by simpa using h.queue.symm
    simp at hj
  have hlt := ht hne
  simp only [if_neg hne] at h1 h2 h3 ⊢
  omega

/-- A job goes last, and is served at once if it is the only one. -/
theorem push (h : Busy d c pending ⟨now, queue, left⟩) (hd : 0 < d) (hleft : queue = [] → left = d)
    (j : J) : Busy d c (pending ++ [(j, now)]) ⟨now, queue ++ [j], left⟩ := by
  have hq : queue = pending.map Prod.fst := h.queue
  refine ⟨by rw [hq, List.map_append]; rfl, fun k hk => ?_, h.free, fun k hk => ?_⟩
  · rcases List.mem_append.1 hk with hk | hk
    · exact h.arrived k hk
    · rw [List.mem_singleton.1 hk]
  · cases pending with
    | nil =>
      obtain rfl : (j, now) = k := by simpa using hk
      obtain rfl := hleft hq
      rw [max_eq_left h.free]
      exact ⟨rfl, hd, le_rfl⟩
    | cons i pending => exact h.left k hk

/-- The first job leaves when it should, and the service of the next one, which has
    arrived already, starts. -/
theorem leave (h : Busy d c ((j, f) :: pending) ⟨now, j :: queue, 1⟩) (hd : 0 < d) :
    max f c + d = now + 1 ∧ Busy d (now + 1) pending ⟨now + 1, queue, d⟩ := by
  have hq : j :: queue = j :: pending.map Prod.fst := h.queue
  have harr (k : J × ℕ) (hk : k ∈ pending) : k.2 ≤ now + 1 :=
    (h.arrived k (List.mem_cons_of_mem _ hk)).trans (Nat.le_succ _)
  refine ⟨(h.left (j, f) rfl).1.symm, (List.cons.inj hq).2, harr, le_rfl, fun k hk => ?_⟩
  rw [max_eq_right (harr k (List.mem_of_mem_head? hk))]
  exact ⟨rfl, hd, le_rfl⟩

end Busy

/-- Whatever happens, the server does what it should. -/
theorem Served.step (hd : 0 < d) (h : Served d arr dep st) (hs : Step d st a st') :
    Served d (arr ++ a.arrivals st'.now) (dep ++ a.departures st'.now) st' := by
  obtain ⟨done, pending, rfl, rfl, hb⟩ := h
  cases hs with
  | pass t ht =>
    exact ⟨done, pending, by simp [Action.arrivals], by simp [Action.departures], hb.pass ht⟩
  | @arrive now left queue j ht =>
    refine ⟨done, pending ++ [(j, now + 1)], by simp [Action.arrivals],
      by simp [Action.departures], ?_⟩
    exact (hb.pass ht).push hd (fun hq => if_pos hq) j
  | leave j =>
    obtain ⟨⟨i, f⟩, pending, rfl⟩ : ∃ i rest, pending = i :: rest :=
      List.exists_cons_of_ne_nil fun hnil => by simpa [hnil] using hb.queue
    obtain rfl : j = i := (List.cons.inj hb.queue).1
    obtain ⟨hleave, hb'⟩ := hb.leave hd
    refine ⟨done ++ [(j, f)], pending, by simp [Action.arrivals], ?_, ?_⟩
    · rw [serve_append, serve, hleave]
      rfl
    · rwa [freeAt_append, freeAt, freeAt, hleave]

/-- The jobs which have left are the first of those to leave, at their times. -/
theorem Served.prefix_serve (h : Served d arr dep st) : dep <+: serve d 0 arr := by
  obtain ⟨done, pending, rfl, rfl, -⟩ := h
  exact ⟨_, (serve_append _ _ _).symm⟩

/-- So is the next one, if it leaves after a unit of time. -/
theorem Served.prefix_serve_leave (h : Served d arr dep st) {q : List J} (hq : st.queue = j :: q)
    (hl : st.left = 1) : dep ++ [(j, st.now + 1)] <+: serve d 0 arr := by
  obtain ⟨done, pending, rfl, rfl, hb⟩ := h
  cases pending with
  | nil => simp [hb.queue] at hq
  | cons i pending =>
    obtain ⟨i, f⟩ := i
    obtain ⟨rfl, -⟩ : i = j ∧ _ := by simpa [hb.queue] using hq
    have h1 := (hb.left (i, f) (by simp)).1
    rw [hl] at h1
    rw [serve_append, serve, ← h1]
    exact ⟨serve d (st.now + 1) pending, by simp⟩

/-- The jobs there are the last ones arrived. -/
theorem Served.pending (h : Served d arr dep st) :
    arr.map Prod.fst = dep.map Prod.fst ++ st.queue := by
  obtain ⟨done, pending, rfl, rfl, hb⟩ := h
  rw [map_fst_serve, hb.queue, List.map_append]

/-- When the server is empty, all jobs have left. -/
theorem Served.all (h : Served d arr dep st) (hq : st.queue = []) : dep = serve d 0 arr := by
  obtain ⟨done, pending, rfl, rfl, hb⟩ := h
  obtain rfl : pending = [] := by simpa [hb.queue] using hq
  rw [List.append_nil]

/-! ## Work -/

/-- The service the jobs there have still to be given. -/
def Server.work (d : ℕ) (st : Server J) : ℕ :=
  match st.queue with
  | [] => 0
  | _ :: queue => st.left + d * queue.length

theorem Server.work_eq_zero (hq : st.queue = []) : st.work d = 0 := by rw [Server.work, hq]

/-- The work a job brings. -/
def Action.work (d : ℕ) : Action J → ℕ
  | arrive _ => d
  | _ => 0

/-- Any unit of time is of service, unless the server is empty. -/
theorem Step.work (hs : Step d st a st') (hl : st.queue ≠ [] → 1 ≤ st.left) :
    (st.queue ≠ [] → st'.now + st'.work d = st.now + st.work d + a.work d) ∧
      (st.queue = [] → st.work d = 0 ∧ st'.work d = a.work d) := by
  cases hs with
  | @pass now left queue t ht =>
    cases queue with
    | nil => simp [Server.work, Action.work]
    | cons j queue =>
      have := ht (by simp)
      simp [Server.work, Action.work]
      omega
  | @arrive now left queue j ht =>
    cases queue with
    | nil => simp [Server.work, Action.work]
    | cons i queue =>
      have := ht (by simp)
      simp [Server.work, Action.work, Nat.mul_add]
      omega
  | @leave now queue j =>
    cases queue with
    | nil => simp [Server.work, Action.work]
    | cons i queue => simp [Server.work, Action.work, Nat.mul_add]; omega

end Fcfs
