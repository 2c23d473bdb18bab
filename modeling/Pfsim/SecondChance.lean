import Mathlib.Tactic

/-!
# Second chance

A queue of items with reference bits, from which items are evicted to make room for
others. The item at the head is evicted if its bit is clear; otherwise it goes back to
the tail, with its bit cleared (`pop`). An item which is hit gets its bit set, and an
item brought in comes with its bit set. In the *second-chance* algorithm it is put at
the tail.

What if it is put at the head instead? Then it is the first item considered when
another one is brought in, and loses its bit at once. The two algorithms evict the same
items as long as this makes no difference (`victims_eq_iff`): an item is *fresh* if it
has been hit or brought in since it was last passed over in its turn, and what is asked
for is that the first item whose bit is clear is the first one which is not fresh, or
the first of all if all of them are.
-/

namespace SecondChance

variable {α : Type*}

/-- What happens to the items: `v` is hit, or an item is evicted and `w` brought in. -/
inductive Event (α : Type*)
  | hit (v : α)
  | replace (w : α)

/-- The items, with their reference bits, from the head to the tail. -/
abbrev Queue (α : Type*) := List (α × Bool)

/-- The item evicted and the rest of the queue, with `n` pops at most. -/
def pop : ℕ → Queue α → Option (α × Queue α)
  | 0, _ => none
  | _ + 1, [] => none
  | n + 1, (v, true) :: q => pop n (q ++ [(v, false)])
  | _ + 1, (v, false) :: q => some (v, q)

/-- The item evicted and the rest of the queue. An item is popped twice at most. -/
def evict (q : Queue α) : Option (α × Queue α) := pop (q.length + 1) q

/-- The item `v` gets its bit set. -/
def touch [DecidableEq α] (v : α) (q : Queue α) : Queue α :=
  q.map fun x => (x.1, x.2 || decide (x.1 = v))

/-- The items evicted, those brought in being put in the queue by `put`. -/
def victims [DecidableEq α] (put : α × Bool → Queue α → Queue α) : List (Event α) → Queue α → List α
  | [], _ => []
  | .hit v :: es, q => victims put es (touch v q)
  | .replace w :: es, q =>
    match evict q with
    | none => []
    | some (v, q') => v :: victims put es (put (w, true) q')

/-- Putting an item at the tail. -/
def atTail (x : α × Bool) (q : Queue α) : Queue α := q ++ [x]

/-- Hits are of items in the queue, and the items brought in are not there. -/
def Proper [DecidableEq α] (put : α × Bool → Queue α → Queue α) : List (Event α) → Queue α → Prop
  | [], _ => True
  | .hit v :: es, q => v ∈ q.map Prod.fst ∧ Proper put es (touch v q)
  | .replace w :: es, q => w ∉ q.map Prod.fst ∧
    ∀ v q', evict q = some (v, q') → Proper put es (put (w, true) q')

/-- No item is evicted to make room for the one brought in right after it; `w` is the
    item brought in last, if there is one, and `vs` are the items evicted. -/
def Spares : List (Event α) → Option α → List α → Prop
  | .hit _ :: es, w, vs => Spares es w vs
  | .replace w' :: es, w, v :: vs => w ≠ some v ∧ Spares es (some w') vs
  | _, _, _ => True

instance decidableSpares [DecidableEq α] :
    ∀ (es : List (Event α)) (w : Option α) (vs : List α), Decidable (Spares es w vs)
  | .hit _ :: es, w, vs => decidableSpares es w vs
  | .replace w' :: es, w, v :: vs =>
    have := decidableSpares es (some w') vs
    inferInstanceAs (Decidable (w ≠ some v ∧ _))
  | [], _, _ => .isTrue trivial
  | .replace _ :: _, _, [] => .isTrue trivial

/-! ## Evictions -/

/-- Clearing all bits. -/
def cleared (q : Queue α) : Queue α := q.map fun x => (x.1, false)

variable {p q s : Queue α} {v w : α} {n : ℕ}

/-- The items whose bit is set go to the tail. -/
theorem pop_append (hp : ∀ x ∈ p, x.2 = true) :
    pop (n + p.length) (p ++ q) = pop n (q ++ cleared p) := by
  induction p generalizing q with
  | nil => rw [cleared, List.map_nil, List.append_nil]; rfl
  | cons x p ih =>
    obtain ⟨v, b⟩ := x
    obtain rfl : b = true := hp (v, b) List.mem_cons_self
    have := ih (q := q ++ [(v, false)]) fun x hx => hp x (List.mem_cons_of_mem _ hx)
    rw [List.length_cons, ← Nat.add_assoc, List.cons_append, pop, List.append_assoc, this,
      List.append_assoc]
    rfl

/-- The first item whose bit is clear is evicted. -/
theorem evict_of_clear (hp : ∀ x ∈ p, x.2 = true) :
    evict (p ++ (v, false) :: s) = some (v, s ++ cleared p) := by
  have hlen : (p ++ (v, false) :: s).length + 1 = s.length + 1 + 1 + p.length := by
    rw [List.length_append, List.length_cons]
    omega
  rw [evict, hlen, pop_append hp]
  rfl

/-- If all bits are set, the first item is evicted, after a round. -/
theorem evict_of_set (hs : ∀ x ∈ s, x.2 = true) :
    evict ((v, true) :: s) = some (v, cleared s) := by
  have hset : ∀ x ∈ (v, true) :: s, x.2 = true := fun x hx => by
    rcases List.mem_cons.1 hx with rfl | hx
    exacts [rfl, hs x hx]
  have := pop_append (n := 1) (q := []) hset
  rw [List.append_nil, List.nil_append, Nat.add_comm] at this
  exact this

/-- A list up to its first item which does not satisfy `P`. -/
theorem span_cases {β : Type*} (P : β → Bool) (l : List β) :
    (∀ y ∈ l, P y = true) ∨ ∃ p x s, l = p ++ x :: s ∧ (∀ y ∈ p, P y = true) ∧ P x = false := by
  cases h : l.find? fun y => !P y with
  | none => exact .inl (by simpa using h)
  | some x =>
    obtain ⟨hx, p, s, rfl, hp⟩ := List.find?_eq_some_iff_append.1 h
    exact .inr ⟨p, x, s, rfl, by simpa using hp, by simpa using hx⟩

/-- The item evicted is one of the queue, and the others are left. -/
theorem perm_of_pop {q' : Queue α} (h : pop n q = some (v, q')) :
    (q.map Prod.fst).Perm (v :: q'.map Prod.fst) := by
  induction n generalizing q with
  | zero => cases h
  | succ n ih =>
    match q with
    | [] => cases h
    | (u, false) :: q =>
      obtain ⟨rfl, rfl⟩ := Prod.mk.inj (Option.some.inj h)
      exact .refl _
    | (u, true) :: q =>
      refine .trans ?_ (ih h)
      rw [List.map_append]
      exact (List.perm_append_singleton u _).symm

/-- The item put at the tail last is not evicted, if there is another one. -/
theorem ne_of_evict_atTail {q' : Queue α} (hq : q ≠ []) (hw : w ∉ q.map Prod.fst)
    (h : evict (atTail (w, true) q) = some (v, q')) : v ≠ w := by
  rintro rfl
  rcases span_cases Prod.snd q with hset | ⟨p, ⟨u, b⟩, s, rfl, hp, hb⟩
  · -- The head is evicted, after a round.
    obtain ⟨⟨u, b⟩, t, rfl⟩ := List.exists_cons_of_ne_nil hq
    obtain rfl : b = true := hset (u, b) List.mem_cons_self
    rw [atTail, List.cons_append, evict_of_set fun x hx => ?_] at h
    · obtain ⟨rfl, -⟩ := Prod.mk.inj (Option.some.inj h)
      exact hw List.mem_cons_self
    · rcases List.mem_append.1 hx with hx | hx
      exacts [hset x (List.mem_cons_of_mem _ hx), by rw [List.mem_singleton.1 hx]]
  · obtain rfl : b = false := hb
    rw [atTail, List.append_assoc, List.cons_append, evict_of_clear hp] at h
    obtain ⟨rfl, -⟩ := Prod.mk.inj (Option.some.inj h)
    exact hw (by simp)

/-! ## At the head, and at the tail -/

/-- An item with its bit, when items are put at the head, and whether it is fresh. -/
structure Marked (α : Type*) where
  item : α
  bit : Bool
  fresh : Bool

namespace Marked

/-- Passed over: the bit is cleared, and the item is not fresh any more. -/
def passed (x : Marked α) : Marked α := ⟨x.item, false, false⟩

/-- The item is `v`, and has been hit; or it is not. -/
def touched [DecidableEq α] (v : α) (x : Marked α) : Marked α :=
  ⟨x.item, x.bit || decide (x.item = v), x.fresh || decide (x.item = v)⟩

/-- Not fresh any more. -/
def stale (x : Marked α) : Marked α := { x with fresh := false }

end Marked

open Marked

/-- The items with their bits. -/
def bits (l : List (Marked α)) : Queue α := l.map fun x => (x.item, x.bit)

/-- The items which are fresh. -/
def freshness (l : List (Marked α)) : Queue α := l.map fun x => (x.item, x.fresh)

/-- The first item which is not both fresh and with its bit set is neither. -/
def Meets : List (Marked α) → Prop
  | [] => False
  | x :: l => (x.bit = false ∧ x.fresh = false) ∨ (x.bit = true ∧ x.fresh = true ∧ Meets l)

/-- The sweep over `l`, after that of the item brought in last, finds what it should:
    there is no other item; or the first one whose bit is clear is the first one which
    is not fresh; or all are fresh, and the first one has its bit clear. -/
def Agrees (l : List (Marked α)) : Prop :=
  l = [] ∨ Meets l ∨ (∀ x ∈ l, x.fresh = true) ∧ ∃ x ∈ l.head?, x.bit = false

/-- The items left by the sweep, but for the one brought in next: `w`, which was brought
    in last, is considered first and loses its bit, then items are passed over until one
    has its bit clear. If all items are fresh, none is any more. -/
def next (w : α) (l : List (Marked α)) : List (Marked α) :=
  match l.dropWhile Marked.bit with
  | [] => l.map passed
  | _ :: s =>
    let l' := s ++ ⟨w, false, true⟩ :: (l.takeWhile Marked.bit).map passed
    if l.all Marked.fresh then l'.map stale else l'

/-- Whenever an item is evicted, the sweep finds what it should; `w` is the item brought
    in last, and `l` the others, in the order in which they are considered. -/
def Fair [DecidableEq α] : List (Event α) → α → List (Marked α) → Prop
  | [], _, _ => True
  | .hit v :: es, w, l => Fair es w (l.map (touched v))
  | .replace w' :: es, w, l => Agrees l ∧ Fair es w' (next w l)

instance decidableMeets : ∀ l : List (Marked α), Decidable (Meets l)
  | [] => .isFalse id
  | x :: l =>
    have := decidableMeets l
    inferInstanceAs (Decidable ((x.bit = false ∧ _) ∨ _))

instance (l : List (Marked α)) : Decidable (Agrees l) :=
  inferInstanceAs (Decidable (l = [] ∨ Meets l ∨ _))

instance decidableFair [DecidableEq α] :
    ∀ (es : List (Event α)) (w : α) (l : List (Marked α)), Decidable (Fair es w l)
  | [], _, _ => .isTrue trivial
  | .hit v :: es, w, l => decidableFair es w (l.map (touched v))
  | .replace w' :: es, w, l =>
    have := decidableFair es w' (next w l)
    inferInstanceAs (Decidable (Agrees l ∧ _))

section Agreement

variable {l m : List (Marked α)} {x : Marked α} {u : α}

theorem bits_append : bits (l ++ m) = bits l ++ bits m := List.map_append

theorem freshness_append : freshness (l ++ m) = freshness l ++ freshness m := List.map_append

theorem bits_cons : bits (x :: l) = (x.item, x.bit) :: bits l := rfl

theorem freshness_cons : freshness (x :: l) = (x.item, x.fresh) :: freshness l := rfl

theorem bits_passed : bits (l.map passed) = cleared (bits l) := by
  simp [bits, cleared, passed]

theorem freshness_passed : freshness (l.map passed) = cleared (freshness l) := by
  simp [freshness, cleared, passed]

theorem bits_stale : bits (l.map stale) = bits l := by
  simp [bits, stale]

theorem freshness_stale : freshness (l.map stale) = cleared (freshness l) := by
  simp [freshness, cleared, stale]

/-- The items up to the first one which is not both fresh and with its bit set. -/
theorem exists_of_meets (h : Meets l) : ∃ p x s, l = p ++ x :: s ∧
    (∀ y ∈ p, y.bit = true ∧ y.fresh = true) ∧ x.bit = false ∧ x.fresh = false := by
  induction l with
  | nil => exact h.elim
  | cons x l ih =>
    rcases h with ⟨hb, hf⟩ | ⟨hb, hf, h⟩
    · exact ⟨[], x, l, rfl, nofun, hb, hf⟩
    · obtain ⟨p, y, s, rfl, hp, hy⟩ := ih h
      refine ⟨x :: p, y, s, rfl, fun z hz => ?_, hy⟩
      rcases List.mem_cons.1 hz with rfl | hz
      exacts [⟨hb, hf⟩, hp z hz]

theorem meets_append {p s : List (Marked α)} (hp : ∀ y ∈ p, y.bit = true ∧ y.fresh = true)
    (hb : x.bit = false) (hf : x.fresh = false) : Meets (p ++ x :: s) := by
  induction p with
  | nil => exact .inl ⟨hb, hf⟩
  | cons y p ih =>
    obtain ⟨hyb, hyf⟩ := hp y List.mem_cons_self
    exact .inr ⟨hyb, hyf, ih fun z hz => hp z (List.mem_cons_of_mem _ hz)⟩

variable (w) in
/-- With items put at the head, the one brought in last is considered first. -/
theorem evict_bits {p s : List (Marked α)} (hp : ∀ y ∈ p, y.bit = true) (hx : x.bit = false) :
    evict ((w, true) :: bits (p ++ x :: s)) =
      some (x.item, bits (s ++ ⟨w, false, true⟩ :: p.map passed)) := by
  have hset : ∀ y ∈ (w, true) :: bits p, y.2 = true := fun y hy => by
    rcases List.mem_cons.1 hy with rfl | hy
    · rfl
    · obtain ⟨z, hz, rfl⟩ := List.mem_map.1 hy
      exact hp z hz
  have := evict_of_clear (v := x.item) (s := bits s) hset
  rw [bits_append, bits_append, bits_cons, hx, bits_cons, bits_passed, ← List.cons_append]
  exact this

variable (w) in
/-- It is evicted if all bits are set. -/
theorem evict_bits_of_set (hl : ∀ y ∈ l, y.bit = true) :
    evict ((w, true) :: bits l) = some (w, bits (l.map passed)) := by
  rw [bits_passed]
  refine evict_of_set fun y hy => ?_
  obtain ⟨z, hz, rfl⟩ := List.mem_map.1 hy
  exact hl z hz

variable (w) in
/-- With items put at the tail, it is considered last. -/
theorem evict_freshness {p s : List (Marked α)} (hp : ∀ y ∈ p, y.fresh = true)
    (hx : x.fresh = false) : evict (freshness (p ++ x :: s) ++ [(w, true)]) =
      some (x.item, freshness (s ++ ⟨w, false, true⟩ :: p.map passed)) := by
  have hset : ∀ y ∈ freshness p, y.2 = true := fun y hy => by
    obtain ⟨z, hz, rfl⟩ := List.mem_map.1 hy
    exact hp z hz
  have := evict_of_clear (v := x.item) (s := freshness s ++ [(w, true)]) hset
  rw [freshness_append, freshness_append, freshness_cons, freshness_cons, hx, freshness_passed,
    List.append_assoc]
  rw [List.append_assoc] at this
  exact this

variable (w) in
/-- If all items are fresh, the first one is evicted. -/
theorem evict_freshness_of_fresh {s : List (Marked α)} (hx : x.fresh = true)
    (hs : ∀ y ∈ s, y.fresh = true) : evict (freshness (x :: s) ++ [(w, true)]) =
      some (x.item, freshness ((s ++ [(⟨w, false, true⟩ : Marked α)]).map stale)) := by
  have hset : ∀ y ∈ freshness s ++ [(w, true)], y.2 = true := fun y hy => by
    rcases List.mem_append.1 hy with hy | hy
    · obtain ⟨z, hz, rfl⟩ := List.mem_map.1 hy
      exact hs z hz
    · rw [List.mem_singleton.1 hy]
  have := evict_of_set (v := x.item) hset
  rw [freshness_stale, freshness_append, freshness_cons, hx]
  exact this

variable (w) in
/-- Where the sweep finds what it should, both algorithms evict the same item. -/
theorem evict_of_agrees (h : Agrees l) : ∃ v,
    evict ((w, true) :: bits l) = some (v, bits (next w l)) ∧
      evict (freshness l ++ [(w, true)]) = some (v, freshness (next w l)) := by
  rcases h with rfl | hmeets | ⟨hfresh, hhead⟩
  · exact ⟨w, rfl, rfl⟩
  · -- The items passed over are the same.
    obtain ⟨p, x, s, rfl, hp, hb, hf⟩ := exists_of_meets hmeets
    have hpb : ∀ y ∈ p, y.bit = true := fun y hy => (hp y hy).1
    have hnext : next w (p ++ x :: s) = s ++ ⟨w, false, true⟩ :: p.map passed := by
      rw [next, List.dropWhile_append_of_pos hpb, List.dropWhile_cons_of_neg (by simp [hb]),
        List.takeWhile_append_of_pos hpb, List.takeWhile_cons_of_neg (by simp [hb]),
        List.append_nil]
      exact if_neg (by simp [hf])
    exact ⟨x.item, by rw [evict_bits w hpb hb, hnext],
      by rw [evict_freshness w (fun y hy => (hp y hy).2) hf, hnext]⟩
  · obtain ⟨x, hx, hb⟩ := hhead
    obtain ⟨s, rfl⟩ : ∃ s, l = x :: s := by
      cases l with
      | nil => cases hx
      | cons y s => exact ⟨s, by rw [Option.some.inj hx]⟩
    have hnext : next w (x :: s) = (s ++ [(⟨w, false, true⟩ : Marked α)]).map stale := by
      rw [next, List.dropWhile_cons_of_neg (by simp [hb]),
        List.takeWhile_cons_of_neg (by simp [hb])]
      exact if_pos (List.all_eq_true.2 hfresh)
    refine ⟨x.item, ?_, ?_⟩
    · have := evict_bits (p := []) (s := s) w nofun hb
      rw [hnext, bits_stale]
      exact this
    · rw [hnext]
      exact evict_freshness_of_fresh w (hfresh x List.mem_cons_self)
        fun y hy => hfresh y (List.mem_cons_of_mem _ hy)

/-- Both algorithms pass over the same items `p`, and then meet `x`, whose bit is set, but
    which is not fresh: only the one with items at the tail evicts it. -/
theorem evict_ne_of_stale {p s : List (Marked α)}
    (hp : ∀ y ∈ p, y.bit = true ∧ y.fresh = true) (hb : x.bit = true) (hf : x.fresh = false)
    (hnd : (w :: (p ++ x :: s).map Marked.item).Nodup) :
    ∃ v v' q q', evict ((w, true) :: bits (p ++ x :: s)) = some (v, q) ∧
      evict (freshness (p ++ x :: s) ++ [(w, true)]) = some (v', q') ∧ v ≠ v' := by
  obtain ⟨hw, hnd⟩ := List.nodup_cons.1 hnd
  rw [List.map_append, List.map_cons] at hnd hw
  have hxs := (List.nodup_cons.1 (List.nodup_append.1 hnd).2.1).1
  have htail := evict_freshness (s := s) w (fun y hy => (hp y hy).2) hf
  have hpx : ∀ y ∈ p ++ [x], y.bit = true := fun y hy => by
    rcases List.mem_append.1 hy with hy | hy
    exacts [(hp y hy).1, List.mem_singleton.1 hy ▸ hb]
  rcases span_cases Marked.bit s with hs | ⟨p', y, s', rfl, hp', hy⟩
  · -- All bits are set, and the other one evicts `w`.
    have hset : ∀ y ∈ p ++ x :: s, y.bit = true := fun y hy => by
      rw [List.append_cons, List.mem_append] at hy
      exact hy.elim (hpx y) (hs y)
    refine ⟨_, _, _, _, evict_bits_of_set w hset, htail, fun e => hw ?_⟩
    rw [e]
    exact List.mem_append_right _ List.mem_cons_self
  · -- The other one evicts an item which is after `x`.
    have hset : ∀ z ∈ p ++ [x] ++ p', z.bit = true := fun z hz =>
      (List.mem_append.1 hz).elim (hpx z) (hp' z)
    have hhead := evict_bits (s := s') w hset hy
    rw [List.append_assoc, List.append_assoc, List.singleton_append] at hhead
    refine ⟨_, _, _, _, hhead, htail, fun e => hxs ?_⟩
    rw [← e, List.map_append]
    exact List.mem_append_right _ List.mem_cons_self

/-- They meet `x`, which is fresh, but whose bit is clear: only the one with items at the
    head evicts it, unless `x` is the first item and all are fresh. -/
theorem evict_ne_of_fresh {p s : List (Marked α)}
    (hp : ∀ y ∈ p, y.bit = true ∧ y.fresh = true) (hb : x.bit = false) (hf : x.fresh = true)
    (hnd : ((p ++ x :: s).map Marked.item).Nodup) (h : ¬Agrees (p ++ x :: s)) :
    ∃ v v' q q', evict ((w, true) :: bits (p ++ x :: s)) = some (v, q) ∧
      evict (freshness (p ++ x :: s) ++ [(w, true)]) = some (v', q') ∧ v ≠ v' := by
  rw [List.map_append, List.map_cons] at hnd
  obtain ⟨-, hxs, hps⟩ := List.nodup_append.1 hnd
  have hxs := (List.nodup_cons.1 hxs).1
  have hhead := evict_bits (s := s) w (fun y hy => (hp y hy).1) hb
  have hpx : ∀ y ∈ p ++ [x], y.fresh = true := fun y hy => by
    rcases List.mem_append.1 hy with hy | hy
    exacts [(hp y hy).2, List.mem_singleton.1 hy ▸ hf]
  rcases span_cases Marked.fresh s with hs | ⟨p', y, s', rfl, hp', hy⟩
  · -- All items are fresh, and the other one evicts the first one.
    cases p with
    | nil =>
      refine absurd (.inr (.inr ⟨fun y hy => ?_, x, rfl, hb⟩)) h
      rcases List.mem_cons.1 hy with rfl | hy
      exacts [hf, hs y hy]
    | cons z p =>
      have hrest : ∀ y ∈ p ++ x :: s, y.fresh = true := fun y hy => by
        rw [List.append_cons, List.mem_append] at hy
        exact hy.elim (fun hy => hpx y (List.mem_cons_of_mem _ hy)) (hs y)
      refine ⟨_, _, _, _, hhead, evict_freshness_of_fresh w (hp z List.mem_cons_self).2 hrest,
        fun e => ?_⟩
      exact hps z.item List.mem_cons_self x.item List.mem_cons_self e.symm
  · -- The other one evicts an item which is after `x`.
    have hset : ∀ z ∈ p ++ [x] ++ p', z.fresh = true := fun z hz =>
      (List.mem_append.1 hz).elim (hpx z) (hp' z)
    have htail := evict_freshness (s := s') w hset hy
    rw [List.append_assoc, List.append_assoc, List.singleton_append] at htail
    refine ⟨_, _, _, _, hhead, htail, fun e => hxs ?_⟩
    rw [e, List.map_append]
    exact List.mem_append_right _ List.mem_cons_self

/-- Where it does not, they do not. -/
theorem evict_of_not_agrees (hnd : (w :: l.map Marked.item).Nodup) (h : ¬Agrees l) :
    ∃ v v' q q', evict ((w, true) :: bits l) = some (v, q) ∧
      evict (freshness l ++ [(w, true)]) = some (v', q') ∧ v ≠ v' := by
  rcases span_cases (fun y => y.bit && y.fresh) l with hall | ⟨p, x, s, rfl, hp, hx⟩
  · -- All items are fresh with their bits set: `w` is evicted, instead of the first one.
    cases l with
    | nil => exact absurd (.inl rfl) h
    | cons x s =>
      have hall' : ∀ y ∈ x :: s, y.bit = true ∧ y.fresh = true := fun y hy => by
        simpa using hall y hy
      refine ⟨_, _, _, _, evict_bits_of_set w fun y hy => (hall' y hy).1,
        evict_freshness_of_fresh w (hall' x List.mem_cons_self).2 fun y hy =>
          (hall' y (List.mem_cons_of_mem _ hy)).2, fun e => (List.nodup_cons.1 hnd).1 ?_⟩
      rw [e]
      exact List.mem_cons_self
  · have hp' : ∀ y ∈ p, y.bit = true ∧ y.fresh = true := fun y hy => by simpa using hp y hy
    cases hb : x.bit with
    | true =>
      have hf : x.fresh = false := by simpa [hb] using hx
      exact evict_ne_of_stale hp' hb hf hnd
    | false =>
      have hf : x.fresh = true := by
        by_contra hf
        exact h (.inr (.inl (meets_append hp' hb (by simpa using hf))))
      exact evict_ne_of_fresh hp' hb hf (List.nodup_cons.1 hnd).2 h

theorem touch_bits [DecidableEq α] (v : α) :
    touch v ((w, true) :: bits l) = (w, true) :: bits (l.map (touched v)) := by
  simp [touch, bits, touched]

theorem touch_freshness [DecidableEq α] (v : α) :
    touch v (freshness l ++ [(w, true)]) = freshness (l.map (touched v)) ++ [(w, true)] := by
  simp [touch, freshness, touched]

theorem items_touched [DecidableEq α] (v : α) :
    (l.map (touched v)).map Marked.item = l.map Marked.item := by
  simp [touched]

theorem items_bits : (bits l).map Prod.fst = l.map Marked.item := by
  simp [bits]

theorem items_freshness : (freshness l).map Prod.fst = l.map Marked.item := by
  simp [freshness]

/-- The items left are those there were, but for the one evicted. -/
theorem perm_next {v : α} (h : evict ((w, true) :: bits l) = some (v, bits (next w l))) :
    (w :: l.map Marked.item).Perm (v :: (next w l).map Marked.item) := by
  have := perm_of_pop h
  rwa [List.map_cons, items_bits, items_bits] at this

theorem nodup_next {v : α} (h : evict ((w, true) :: bits l) = some (v, bits (next w l)))
    (hnd : (w :: l.map Marked.item).Nodup) (hu : u ∉ ((w, true) :: bits l).map Prod.fst) :
    (u :: (next w l).map Marked.item).Nodup := by
  have hperm := perm_next h
  rw [List.map_cons, items_bits, hperm.mem_iff, List.mem_cons, not_or] at hu
  exact List.nodup_cons.2 ⟨hu.2, (List.nodup_cons.1 (hperm.nodup_iff.1 hnd)).2⟩

end Agreement

/-! ## Runs -/

section Runs

variable [DecidableEq α] {es : List (Event α)} {l : List (Marked α)} {u : α}

/-- Once an item has been brought in, the two algorithms evict the same items if and
    only if the sweep finds what it should at each of the evictions. -/
theorem victims_eq_iff_fair (hnd : (w :: l.map Marked.item).Nodup)
    (hp : Proper List.cons es ((w, true) :: bits l)) :
    victims List.cons es ((w, true) :: bits l) = victims atTail es (freshness l ++ [(w, true)]) ↔
      Fair es w l := by
  induction es generalizing w l with
  | nil => exact iff_of_true rfl trivial
  | cons e es ih =>
    cases e with
    | hit v =>
      have hp := hp.2
      rw [touch_bits] at hp
      rw [victims, victims, touch_bits, touch_freshness]
      exact ih (by rwa [items_touched]) hp
    | replace w' =>
      obtain ⟨hw', hp⟩ := hp
      by_cases hag : Agrees l
      · obtain ⟨v, hbits, hfresh⟩ := evict_of_agrees w hag
        rw [victims, victims, hbits, hfresh]
        refine (List.cons_inj_right v).trans
          ((ih (nodup_next hbits hnd hw') (hp v _ hbits)).trans ?_)
        exact (and_iff_right hag).symm
      · obtain ⟨v, v', q, q', hbits, hfresh, hne⟩ := evict_of_not_agrees hnd hag
        refine iff_of_false (fun h => hne ?_) fun h => hag h.1
        rw [victims, victims, hbits, hfresh] at h
        exact (List.cons.inj h).1

/-- Then an item brought in is not the next one to be evicted, if there are others. -/
theorem spares_of_fair (hl : l ≠ []) (hnd : (w :: l.map Marked.item).Nodup)
    (hp : Proper List.cons es ((w, true) :: bits l)) (h : Fair es w l) :
    Spares es (some w) (victims List.cons es ((w, true) :: bits l)) := by
  induction es generalizing w l with
  | nil => trivial
  | cons e es ih =>
    cases e with
    | hit v =>
      have hp := hp.2
      rw [touch_bits] at hp
      rw [victims, touch_bits]
      exact ih (by simpa using hl) (by rwa [items_touched]) hp h
    | replace w' =>
      obtain ⟨hw', hp⟩ := hp
      obtain ⟨v, hbits, hfresh⟩ := evict_of_agrees w h.1
      have hne : v ≠ w := by
        refine ne_of_evict_atTail (q := freshness l) (by simpa [freshness] using hl) ?_ hfresh
        rw [items_freshness]
        exact (List.nodup_cons.1 hnd).1
      have hl' : next w l ≠ [] := by
        rintro he
        have := (perm_next hbits).length_eq
        rw [he] at this
        exact hl (by simpa using this)
      rw [victims, hbits]
      exact ⟨fun e => hne (Option.some.inj e).symm,
        ih hl' (nodup_next hbits hnd hw') (hp v _ hbits) h.2⟩

/-- The items, with all bits set. -/
def allSet (vs : List α) : Queue α := vs.map fun v => (v, true)

/-- Items whose bit is clear, and which are not fresh. -/
def unmarked (vs : List α) : List (Marked α) := vs.map fun v => ⟨v, false, false⟩

/-- Starting with all bits set, and `t` after the head: whenever an item is evicted, but
    for the first time, the sweep finds what it should. -/
def FairFrom : List (Event α) → List α → Prop
  | [], _ => True
  | .hit _ :: es, t => FairFrom es t
  | .replace w :: es, t => Fair es w (unmarked t)

instance decidableFairFrom : ∀ (es : List (Event α)) (t : List α), Decidable (FairFrom es t)
  | [], _ => .isTrue trivial
  | .hit _ :: es, t => decidableFairFrom es t
  | .replace w :: es, t => inferInstanceAs (Decidable (Fair es w (unmarked t)))

variable {t : List α}

theorem touch_allSet (v : α) (vs : List α) : touch v (allSet vs) = allSet vs := by
  simp [touch, allSet]

omit [DecidableEq α] in
theorem freshness_unmarked (t : List α) : freshness (unmarked t) = bits (unmarked t) := by
  simp [freshness, bits, unmarked]

omit [DecidableEq α] in
/-- With all bits set, the head is evicted, and the other bits are cleared. -/
theorem evict_allSet (u : α) (t : List α) :
    evict (allSet (u :: t)) = some (u, bits (unmarked t)) := by
  have hset : ∀ x ∈ allSet t, x.2 = true := fun x hx => by
    obtain ⟨v, -, rfl⟩ := List.mem_map.1 hx
    rfl
  refine (evict_of_set hset).trans ?_
  simp [cleared, allSet, bits, unmarked]

omit [DecidableEq α] in
/-- The first item brought in is not among the others. -/
theorem nodup_unmarked (hnd : (u :: t).Nodup) (hw : w ∉ (allSet (u :: t)).map Prod.fst) :
    (w :: (unmarked t).map Marked.item).Nodup := by
  have hw : w ∉ u :: t := by simpa [allSet] using hw
  have ht : (unmarked t).map Marked.item = t := by simp [unmarked, Function.comp_def]
  rw [ht]
  exact List.nodup_cons.2 ⟨fun h => hw (List.mem_cons_of_mem _ h), (List.nodup_cons.1 hnd).2⟩

/-- The two algorithms evict the same items if and only if the sweep finds what it should
    at each of the evictions. -/
theorem victims_eq_iff (hnd : (u :: t).Nodup) (hp : Proper List.cons es (allSet (u :: t))) :
    victims List.cons es (allSet (u :: t)) = victims atTail es (allSet (u :: t)) ↔
      FairFrom es t := by
  induction es with
  | nil => exact iff_of_true rfl trivial
  | cons e es ih =>
    cases e with
    | hit v =>
      have hp := hp.2
      rw [touch_allSet] at hp
      rw [victims, victims, touch_allSet]
      exact ih hp
    | replace w =>
      obtain ⟨hw, hp⟩ := hp
      have := victims_eq_iff_fair (nodup_unmarked hnd hw) (hp u _ (evict_allSet u t))
      rw [freshness_unmarked] at this
      rw [victims, victims, evict_allSet]
      exact (List.cons_inj_right u).trans this

/-- Then an item brought in is not the next one to be evicted, if there are others. -/
theorem spares_of_fairFrom (ht : t ≠ []) (hnd : (u :: t).Nodup)
    (hp : Proper List.cons es (allSet (u :: t))) (h : FairFrom es t) :
    Spares es none (victims List.cons es (allSet (u :: t))) := by
  induction es with
  | nil => trivial
  | cons e es ih =>
    cases e with
    | hit v =>
      have hp := hp.2
      rw [touch_allSet] at hp
      rw [victims, touch_allSet]
      exact ih hp h
    | replace w =>
      obtain ⟨hw, hp⟩ := hp
      rw [victims, evict_allSet]
      exact ⟨nofun, spares_of_fair (by simpa [unmarked] using ht) (nodup_unmarked hnd hw)
        (hp u _ (evict_allSet u t)) h⟩

end Runs

end SecondChance
