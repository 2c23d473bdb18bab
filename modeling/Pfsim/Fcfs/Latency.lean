import Mathlib.Data.List.Forall2
import Pfsim.Fcfs

/-!
# Latency

How long a job stays at a first-come first-served server: as long as its service at least, and
at most as long as that of all jobs which are there when it arrives, itself included.

* `Served.prompt`: if there are never more than so many jobs, no job takes longer than their
  services;
* `Served.getElem?_of_le`: a job which should have left has left.
-/

namespace Fcfs

variable {J : Type*} {d b c : ℕ} {js arr dep pending : List (J × ℕ)} {j : J × ℕ}
  {st st' : Server J} {a : Action J}

/-- Jobs which have all arrived are served one after the other. -/
theorem freeAt_of_arrived (h : ∀ j ∈ js, j.2 ≤ c) : freeAt d c js = c + d * js.length := by
  induction js generalizing c with
  | nil => rfl
  | cons j js ih =>
    obtain ⟨hj, hjs⟩ := List.forall_mem_cons.1 h
    rw [freeAt, max_eq_right hj, ih fun i hi => (hjs i hi).trans (Nat.le_add_right c d),
      List.length_cons, Nat.mul_succ, Nat.add_assoc, Nat.add_comm d]

/-- No job leaves before it has been served. -/
theorem le_of_mem_serve (h : j ∈ serve d c js) : c + d ≤ j.2 := by
  induction js generalizing c with
  | nil => cases h
  | cons i js ih =>
    rcases List.mem_cons.1 h with rfl | h
    · exact Nat.add_le_add_right (le_max_right _ _) d
    · exact (Nat.add_le_add_right ((le_max_right _ _).trans (Nat.le_add_right _ d)) d).trans (ih h)

theorem serve_ge (c : ℕ) (js : List (J × ℕ)) :
    List.Forall₂ (fun j s => s.1 = j.1 ∧ j.2 + d ≤ s.2) js (serve d c js) := by
  induction js generalizing c with
  | nil => exact .nil
  | cons j js ih => exact .cons ⟨rfl, Nat.add_le_add_right (le_max_left _ _) d⟩ (ih _)

/-! ## The server -/

/-- When the jobs there have left. -/
theorem Busy.freeAt_le (h : Busy d c pending st) :
    freeAt d c pending ≤ st.now + d * st.queue.length := by
  cases pending with
  | nil => exact h.free.trans (Nat.le_add_right _ _)
  | cons i pending =>
    obtain ⟨hleft, h1, hd⟩ := h.left i rfl
    have harr : ∀ k ∈ pending, k.2 ≤ st.now + st.left := fun k hk =>
      (h.arrived k (List.mem_cons_of_mem i hk)).trans (Nat.le_add_right _ _)
    rw [freeAt, ← hleft, freeAt_of_arrived harr, h.queue, List.length_map, List.length_cons,
      Nat.mul_succ]
    omega

/-- None of them has left yet. -/
theorem Busy.lt_of_mem_serve (h : Busy d c pending st) (hj : j ∈ serve d c pending) :
    st.now < j.2 := by
  cases pending with
  | nil => cases hj
  | cons i pending =>
    obtain ⟨hleft, h1, -⟩ := h.left i rfl
    rw [serve, ← hleft] at hj
    rcases List.mem_cons.1 hj with rfl | hj
    · exact Nat.lt_add_of_pos_right h1
    · have := le_of_mem_serve hj
      omega

/-- A job which should have left has left. -/
theorem Served.getElem?_of_le (h : Served d arr dep st) {k : ℕ}
    (hk : (serve d 0 arr)[k]? = some j) (hj : j.2 ≤ st.now) : dep[k]? = some j := by
  obtain ⟨done, pending, rfl, rfl, hb⟩ := h
  rw [serve_append] at hk
  rcases Nat.lt_or_ge k (serve d 0 done).length with hlt | hge
  · rwa [List.getElem?_append_left hlt] at hk
  · rw [List.getElem?_append_right hge] at hk
    exact absurd (hb.lt_of_mem_serve (List.mem_of_getElem? hk)) (not_lt.2 hj)

theorem Served.freeAt_le (h : Served d arr dep st) :
    freeAt d 0 arr ≤ st.now + d * st.queue.length := by
  obtain ⟨done, pending, rfl, rfl, hb⟩ := h
  rw [freeAt_append]
  exact hb.freeAt_le

/-- No job should stay longer than `b`. -/
def Prompt (d b : ℕ) (arr : List (J × ℕ)) : Prop :=
  List.Forall₂ (fun j s => s.2 ≤ j.2 + b) arr (serve d 0 arr)

/-- How long a job should stay. -/
theorem Prompt.exists_serve (h : Prompt d b arr) {k : ℕ} (hk : arr[k]? = some j) :
    ∃ s, (serve d 0 arr)[k]? = some s ∧ s.1 = j.1 ∧ j.2 + d ≤ s.2 ∧ s.2 ≤ j.2 + b := by
  obtain ⟨hlt, rfl⟩ := List.getElem?_eq_some_iff.1 hk
  have hlt' : k < (serve d 0 arr).length := h.length_eq ▸ hlt
  obtain ⟨hfst, hge⟩ := (serve_ge 0 arr).get hlt hlt'
  exact ⟨_, List.getElem?_eq_getElem hlt', hfst, hge, h.get hlt hlt'⟩

/-- A job which arrives waits for those there. -/
theorem Served.prompt (h : Served d arr dep st) (hs : Step d st a st') (hp : Prompt d b arr)
    (hb : d * st'.queue.length ≤ b) : Prompt d b (arr ++ a.arrivals st'.now) := by
  cases hs with
  | pass | leave => exact (List.append_nil arr).symm ▸ hp
  | @arrive now left queue j _ =>
    have hfree := h.freeAt_le
    simp only [List.length_append, List.length_singleton, Nat.mul_succ] at hb hfree
    rw [Action.arrivals, Prompt, serve_append]
    refine List.rel_append hp (.cons ?_ .nil)
    have hmax : max (now + 1) (freeAt d 0 arr) ≤ now + 1 + d * queue.length :=
      max_le (Nat.le_add_right _ _) (by omega)
    dsimp only
    omega

end Fcfs
