import Pfsim.Bitmap
import Pfsim.Runtime

/-!
# Physical memory

The frame table `memory`, the freelist, a bitmap of the frames taken, and the
counter `allocated`; and the virtual pages, which are behind pointers
(`PageId`), living from their allocation to `free`.

The operations read and write the freelist with three different expressions,
mixing words of 32 bits and constants of 64: `bitIsSet_eq`, `mem_flipBit` and
`mem_raiseBit` say that all of them are about the same bit.
-/

namespace Pfsim

/-- A pointer to a virtual page. -/
abbrev PageId := ℕ

/-- A virtual page. The overhead of the replacement module is a structure made
    for the page alone, so it goes by the pointer to the page. -/
structure VPage where
  vpn : ℕ
  pid : ℕ
  overhead : Option PageId
  inMemory : Bool
  currentPPN : ℕ

/-- The state of the memory module, and the virtual pages. -/
structure Memory where
  /-- The size of memory, in pages. -/
  memSize : ℕ
  /-- The number of allocated pages. -/
  allocated : ℕ
  /-- The virtual page of each frame, `memory[ppn]->virtualPage`. -/
  memory : ℕ → Option PageId
  freelist : ℕ → BitVec 32
  /-- The virtual pages, behind their pointers. -/
  vpages : PageId → VPage
  /-- The pointers to virtual pages allocated and not freed. -/
  live : PageId → Bool
  /-- The next pointer `malloc` gives to a virtual page. -/
  nextPage : PageId
  /-- What the module has printed, and gone on. -/
  stderr : List String

namespace Memory

/-- The word of the bit `n`. -/
def bvInd (n : ℕ) : ℕ := n / 32

/-- The offset of the bit `n` in its word. -/
def bvOfs (n : ℕ) : ℕ := n % 32

/-- The first clear bit of a word, the most significant one being `0`, or `-1`. -/
def bvFfz (n : BitVec 32) : ℤ := if ~~~n = 0 then -1 else (~~~n).clz.toNat

/-- `Memory_init`: all frames are empty. The contents of the page pointers are
    left to `malloc`. -/
def init (numberOfPhysicalPages : ℕ) : Memory where
  memSize := numberOfPhysicalPages
  allocated := 0
  memory _ := none
  freelist _ := 0
  vpages _ := ⟨0, 0, none, false, 0⟩
  live _ := false
  nextPage := 0
  stderr := []

variable (m : Memory)

/-- The message on a frame number out of bounds. -/
def outOfBounds : Stop :=
  .exitFailure "ERROR: Tried to access a physical page that is out of bounds"

/-- `freelist[bv_ind(ppn)] << bv_ofs(ppn) & 2147483648`: the constant is a
    `long`, so the shift is on 32 bits and the mask on 64. -/
def bitIsSet (ppn : ℕ) : Bool :=
  (m.freelist (bvInd ppn) <<< bvOfs ppn).setWidth 64 &&& 2147483648#64 == 2147483648#64

/-- `freelist[bv_ind(ppn)] ^= 2147483648 >> bv_ofs(ppn)`. -/
def flipBit (ppn : ℕ) : ℕ → BitVec 32 :=
  Function.update m.freelist (bvInd ppn)
    (((m.freelist (bvInd ppn)).setWidth 64 ^^^ 2147483648#64 >>> bvOfs ppn).setWidth 32)

/-- `freelist[bv_ind(ppn)] |= 2147483648 >> bv_ofs(ppn)`. -/
def raiseBit (ppn : ℕ) : ℕ → BitVec 32 :=
  Function.update m.freelist (bvInd ppn)
    (((m.freelist (bvInd ppn)).setWidth 64 ||| 2147483648#64 >>> bvOfs ppn).setWidth 32)

/-- `Memory_evictPage`: the page at `ppn` is sent to backing store. -/
def evictPage (ppn : ℕ) : Except Stop Memory :=
  if ppn > m.memSize - 1 then .error outOfBounds
  else match m.memory ppn with
    | none => .error (.undefined "memory[ppn]->virtualPage is NULL")
    | some v =>
      let m := { m with
        vpages := Function.update m.vpages v { m.vpages v with inMemory := false }
        memory := Function.update m.memory ppn none }
      if ¬bvInd ppn < m.memSize / 32 then .error (.undefined "freelist[bv_ind(ppn)]")
      else if m.bitIsSet ppn then
        .ok { m with freelist := m.flipBit ppn, allocated := m.allocated - 1 }
      else .ok { m with stderr := m.stderr ++ ["WARN: failsafe triggered"] }

/-- `Memory_loadPage`: the page `v` is loaded at `ppn`. -/
def loadPage (ndebug : Bool) (v : PageId) (ppn : ℕ) : Except Stop Memory :=
  if ppn > m.memSize - 1 then .error outOfBounds
  else do
    assert ndebug (m.memory ppn = none) "memory[ppn]->virtualPage == NULL"
    let m := { m with
      memory := Function.update m.memory ppn (some v)
      vpages := Function.update m.vpages v { m.vpages v with inMemory := true, currentPPN := ppn } }
    if ¬bvInd ppn < m.memSize / 32 then .error (.undefined "freelist[bv_ind(ppn)]")
    else .ok { m with freelist := m.raiseBit ppn, allocated := m.allocated + 1 }

/-- The loop of `Memory_getFreePage`, with `n` words left, from the word `flInd`. -/
def getFreePageFrom : ℕ → ℕ → Except Stop ℕ
  | 0, _ => .error (.exitFailure ("WARN: Tried to get free page when none are avaliable. Use " ++
      "Memory_hasFreePage to check first."))
  | n + 1, flInd =>
    let fzInd := bvFfz (m.freelist flInd)
    if fzInd ≥ 0 then .ok (flInd * 32 + fzInd.toNat) else getFreePageFrom n (flInd + 1)

/-- `Memory_getFreePage`: the next free page. -/
def getFreePage : Except Stop ℕ := m.getFreePageFrom (m.memSize / 32) 0

/-- `Memory_hasFreePage`. -/
def hasFreePage : Bool := m.memSize > m.allocated

/-- `Memory_howManyAllocPages`. -/
def howManyAllocPages : ℕ := m.allocated

/-- `malloc` of a virtual page, with its contents. -/
def addPage (vp : VPage) : Memory :=
  { m with
    vpages := Function.update m.vpages m.nextPage vp
    live := Function.update m.live m.nextPage true
    nextPage := m.nextPage + 1 }

/-- `free` of a virtual page. -/
def freePage (v : PageId) : Memory := { m with live := Function.update m.live v false }

/-! ## The freelist as a set of frames -/

/-- The mask has the bit 31 only, the first of a word of 32. -/
theorem getLsbD_mask (i : ℕ) : (2147483648#64).getLsbD i = decide (i = 31) := by
  rw [show (2147483648#64) = BitVec.twoPow 64 31 from rfl, BitVec.getLsbD_twoPow]
  by_cases h : i = 31 <;> simp [h, eq_comm]

/-- The mask shifted has the bit `ofs` of a word of 32. -/
theorem getMsbD_mask {ofs j : ℕ} (hofs : ofs < 32) (hj : j < 32) :
    (2147483648#64 >>> ofs).getMsbD (j + 32) = decide (j = ofs) := by
  rw [BitVec.getMsbD_eq_getLsbD, BitVec.getLsbD_ushiftRight, getLsbD_mask,
    decide_eq_true (by omega : j + 32 < 64), Bool.true_and]
  exact decide_eq_decide.2 (by omega)

theorem bitIsSet_eq (ppn : ℕ) : m.bitIsSet ppn = Bitmap.mem m.freelist ppn := by
  have key (x : BitVec 32) :
      (x.setWidth 64 &&& 2147483648#64 == 2147483648#64) = x.getMsbD 0 := by
    have hx : x.setWidth 64 &&& 2147483648#64 = if x.getMsbD 0 then 2147483648#64 else 0#64 := by
      refine BitVec.eq_of_getLsbD_eq fun i hi => ?_
      rw [BitVec.getLsbD_and, BitVec.getLsbD_setWidth, getLsbD_mask, BitVec.getMsbD_eq_getLsbD]
      by_cases hi31 : i = 31
      · subst hi31
        cases hb : x.getLsbD 31 <;> simp
      · split <;> simp [hi31, getLsbD_mask]
    rw [hx]
    cases x.getMsbD 0 <;> rfl
  rw [bitIsSet, key, BitVec.getMsbD_shiftLeft, Nat.zero_add]
  rfl

theorem mem_flipBit (ppn k : ℕ) :
    Bitmap.mem (m.flipBit ppn) k = if k = ppn then !Bitmap.mem m.freelist ppn
      else Bitmap.mem m.freelist k := by
  refine Bitmap.mem_update (by decide) (fun j hj => ?_) k
  rw [BitVec.getMsbD_setWidth, show j + 64 - 32 = j + 32 by omega, BitVec.getMsbD_xor, bvOfs,
    getMsbD_mask (Nat.mod_lt _ (by decide)) hj, BitVec.getMsbD_setWidth]
  by_cases h : j = ppn % 32 <;> simp [h, Bitmap.mem, bvInd]

theorem mem_raiseBit (ppn k : ℕ) :
    Bitmap.mem (m.raiseBit ppn) k = if k = ppn then true else Bitmap.mem m.freelist k := by
  refine Bitmap.mem_update (by decide) (fun j hj => ?_) k
  rw [BitVec.getMsbD_setWidth, show j + 64 - 32 = j + 32 by omega, BitVec.getMsbD_or, bvOfs,
    getMsbD_mask (Nat.mod_lt _ (by decide)) hj, BitVec.getMsbD_setWidth]
  by_cases h : j = ppn % 32 <;> simp [h, bvInd]

end Memory

end Pfsim
