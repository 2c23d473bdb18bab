import Pfsim.Replace.Basic

/-!
# Random replacement

The victim is a frame drawn with `rand()`. Nothing is assumed of the results of
`rand()` but that they are not negative: `rand n` is that of the `n`-th call.
-/

namespace Pfsim

/-- The state of the module, and the number of calls of `rand()` so far. -/
structure RandomDraw where
  numPages : ℕ
  calls : ℕ

/-- `Replace_getPageToEvict`: `rand() % numPages`. -/
def RandomDraw.getPageToEvict (rand : ℕ → ℕ) (r : RandomDraw) : Except Stop (ℕ × RandomDraw) :=
  if r.numPages = 0 then .error (.undefined "rand() % 0")
  else .ok (rand r.calls % r.numPages, { r with calls := r.calls + 1 })

/-- The random build. It has no overhead. -/
def random (rand : ℕ → ℕ) : ReplaceModule where
  State := RandomDraw
  initReplacementModule n := ⟨n, 0⟩
  assertOverhead _ _ := .ok ()
  initOverhead r _ := (r, none)
  freeOverhead _ r _ := .ok r
  notifyPageAccess _ _ r _ := .ok r
  notifyPageLoad _ _ r _ := .ok r
  getPageToEvict _ _ := RandomDraw.getPageToEvict rand

instance (rand : ℕ → ℕ) : (random rand).Lawful where
  Tracks m r := RandomDraw.numPages r = m.memSize
  assertOverhead_ok _ := rfl
  assertOverhead_error h := absurd rfl h
  tracks_init _ _ := rfl
  tracks_new _ _ _ h := h
  notifyPageAccess_ok _ _ h _ := ⟨_, rfl, h⟩
  notifyPageLoad_ok _ _ h _ _ _ _ := ⟨_, rfl, h⟩
  getPageToEvict_ok {m r} _ hm h hn hf := by
    have hr : RandomDraw.numPages r ≠ 0 := by omega
    have hlt : rand (RandomDraw.calls r) % RandomDraw.numPages r < m.memSize := by
      rw [← h]
      exact Nat.mod_lt _ (by omega)
    obtain ⟨v, hv⟩ := hm.full hf hlt
    exact ⟨_, v, _, if_neg hr, hv, h⟩
  releaseOverhead_ok {m r v} _ _ h _ := by
    refine ⟨r, ite_self _, h.trans ?_⟩
    rw [Memory.dropped]
    split <;> rfl

end Pfsim
