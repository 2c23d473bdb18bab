import Mathlib.Tactic

/-!
# Bitmaps

A set of numbers kept in words of `w` bits, the most significant bit first: the
number `n` is the bit `n % w` of the word `n / w`.

* `mem_update`: rewriting one bit of one word changes the set at one number;
* `getMsbD_clz_not`: the leading zeros of the complement of a word give its
  first clear bit, if there is one;
* `FirstClear`: the least number missing, which a search word by word finds
  (`firstClear_of_word`).
-/

namespace Bitmap

variable {w : ℕ}

/-- The number `n` is in the set kept in the words `fl`. -/
def mem (fl : ℕ → BitVec w) (n : ℕ) : Bool := (fl (n / w)).getMsbD (n % w)

@[simp] theorem mem_zero (n : ℕ) : mem (fun _ => 0#w) n = false := by simp [mem]

/-- Rewriting the bit of `n` in its word, and no other, changes the set at `n` only. -/
theorem mem_update {fl : ℕ → BitVec w} {n : ℕ} {x : BitVec w} {b : Bool} (hw : 0 < w)
    (hx : ∀ j < w, x.getMsbD j = if j = n % w then b else (fl (n / w)).getMsbD j) (k : ℕ) :
    mem (Function.update fl (n / w) x) k = if k = n then b else mem fl k := by
  rw [mem, mem, Function.update_apply]
  by_cases hk : k / w = n / w
  · have hkn : k % w = n % w ↔ k = n := by
      refine ⟨fun h => ?_, fun h => h ▸ rfl⟩
      rw [← Nat.div_add_mod k w, ← Nat.div_add_mod n w, hk, h]
    simp only [hk, if_true, hx _ (Nat.mod_lt k hw), hkn]
  · rw [if_neg hk, if_neg fun h : k = n => hk (h ▸ rfl)]

/-- A word is full if and only if its complement is zero. -/
theorem not_eq_zero_iff (x : BitVec w) : ~~~x = 0 ↔ ∀ j < w, x.getMsbD j = true := by
  refine ⟨fun h j hj => ?_, fun h => BitVec.eq_of_getMsbD_eq fun j hj => ?_⟩
  · have := congrArg (BitVec.getMsbD · j) h
    simpa [hj] using this
  · simp [h j hj]

/-- The first clear bit of a word that is not full. -/
theorem getMsbD_clz_not {x : BitVec w} (h : ~~~x ≠ 0) :
    (~~~x).clz.toNat < w ∧ x.getMsbD (~~~x).clz.toNat = false ∧
      ∀ j < (~~~x).clz.toNat, x.getMsbD j = true := by
  have hw : 0 < w := by
    by_contra hw
    obtain rfl : w = 0 := by omega
    exact h (BitVec.eq_nil _ |>.trans (BitVec.eq_nil _).symm)
  have hlt : (~~~x).clz.toNat < w := by
    have := BitVec.clz_lt_iff_ne_zero.2 h
    have h' : (~~~x).clz.toNat < (BitVec.ofNat w w).toNat := this
    exact h'.trans_le (by rw [BitVec.toNat_ofNat]; exact Nat.mod_le _ _)
  have hclz := BitVec.getLsbD_true_clz_of_ne_zero hw h
  refine ⟨hlt, ?_, fun j hj => ?_⟩
  · rw [BitVec.getLsbD_not, Bool.and_eq_true, Bool.not_eq_true'] at hclz
    rw [BitVec.getMsbD_eq_getLsbD, hclz.2, Bool.and_false]
  · -- The bits before are zeros of the complement, which is below `2 ^ (w - clz)`.
    have hub := BitVec.toNat_lt_two_pow_sub_clz (x := ~~~x)
    have hbit : (~~~x).getLsbD (w - 1 - j) = false := by
      refine Nat.testBit_lt_two_pow (hub.trans_le (Nat.pow_le_pow_right (by decide) ?_))
      omega
    rw [BitVec.getLsbD_not, decide_eq_true (by omega : w - 1 - j < w), Bool.true_and,
      Bool.not_eq_false'] at hbit
    rw [BitVec.getMsbD_eq_getLsbD, hbit, decide_eq_true (by omega : j < w), Bool.and_self]

/-- The number `n` is the least one missing from the set. -/
def FirstClear (fl : ℕ → BitVec w) (n : ℕ) : Prop :=
  mem fl n = false ∧ ∀ k < n, mem fl k = true

/-- The first clear bit of the first word that is not full. -/
theorem firstClear_of_word {fl : ℕ → BitVec w} {i : ℕ} (hfull : ∀ j < i, ~~~fl j = 0)
    (hi : ~~~fl i ≠ 0) : FirstClear fl (i * w + (~~~fl i).clz.toNat) := by
  obtain ⟨hlt, hclear, hset⟩ := getMsbD_clz_not hi
  have hw : 0 < w := by omega
  have hdiv : (i * w + (~~~fl i).clz.toNat) / w = i := by
    rw [Nat.mul_comm, Nat.mul_add_div hw, Nat.div_eq_of_lt hlt, Nat.add_zero]
  have hmod : (i * w + (~~~fl i).clz.toNat) % w = (~~~fl i).clz.toNat := by
    rw [Nat.mul_comm, Nat.mul_add_mod, Nat.mod_eq_of_lt hlt]
  refine ⟨by rwa [mem, hdiv, hmod], fun k hk => ?_⟩
  have hki : k / w ≤ i := by
    rw [← hdiv]
    exact Nat.div_le_div_right hk.le
  rcases hki.lt_or_eq with hki | hki
  · exact (not_eq_zero_iff _).1 (hfull _ hki) _ (Nat.mod_lt k hw)
  · have := Nat.div_add_mod k w
    rw [hki, Nat.mul_comm] at this
    rw [mem, hki]
    exact hset _ (by omega)

end Bitmap
