import Mathlib.Data.FinEnum
import Mathlib.Logic.Function.Basic

/-!
# Words, pages and page table entries

The definitions of `mmu.h` and `param.h`.  A page-aligned pointer is the number of its page, and a
page is 1024 words of 32 bits; user code and `memmove` see the bytes of the words.
-/

namespace SystemsProjects.Cow

abbrev Byte := BitVec 8

abbrev Word := BitVec 32

/-- The number of a page of 4096 bytes, virtual or physical. -/
abbrev Page := BitVec 20

/-- The index of a word in a page. -/
abbrev Index := BitVec 10

abbrev PageData := Index → Word

def PGSIZE : ℕ := 4096

/-- The end of the user address space. -/
def USERTOP : Word := 0xA0000#32

/-- The end of physical memory. -/
def PHYSTOP : Word := 0x1000000#32

def NPROC : ℕ := 64

theorem nproc_pos : 0 < NPROC := by decide

def MAXARG : ℕ := 32

/-! ## Addresses -/

/-- `a / PGSIZE`, and `PTE_ADDR` of a page table entry. -/
def pageOf (a : Word) : Page := a.extractLsb' 12 20

/-- `PADDR`: the address of the first byte of a page. -/
def paddr (p : Page) : Word := p ++ 0#12

def offsetOf (a : Word) : BitVec 12 := a.extractLsb' 0 12

/-- `PDX`. -/
def pdx (va : Page) : Index := va.extractLsb' 10 10

/-- `PTX`. -/
def ptx (va : Page) : Index := va.extractLsb' 0 10

/-- The page at `PGROUNDUP(sz)`. -/
def pgRoundUp (sz : Word) : Page := pageOf (sz + 4095#32)

/-- The number of pages that begin below address `sz`. -/
def pagesBelow (sz : Word) : ℕ := (sz.toNat + 4095) / PGSIZE

/-- A page below `USERTOP`. -/
def IsUser (va : Page) : Prop := va.toNat < 160

instance (va : Page) : Decidable (IsUser va) := inferInstanceAs (Decidable (_ < _))

@[simp] theorem pageOf_or (a b : Word) : pageOf (a ||| b) = pageOf a ||| pageOf b :=
  BitVec.extractLsb'_or

theorem pageOf_and (a b : Word) : pageOf (a &&& b) = pageOf a &&& pageOf b :=
  BitVec.extractLsb'_and

@[simp] theorem pageOf_paddr (p : Page) : pageOf (paddr p) = p := by
  unfold pageOf paddr
  ext i hi
  simp only [BitVec.getElem_extractLsb']
  rw [BitVec.getLsbD_append, if_neg (by omega), Nat.add_sub_cancel_left,
    BitVec.getLsbD_eq_getElem hi]

theorem paddr_injective : Function.Injective paddr := fun p q h => by
  rw [← pageOf_paddr p, h, pageOf_paddr]

theorem paddr_ne_zero {p : Page} (h : p ≠ 0#20) : paddr p ≠ 0#32 := fun h0 =>
  h (by rw [← pageOf_paddr p, h0]; rfl)

theorem toNat_pageOf (a : Word) : (pageOf a).toNat = a.toNat / 4096 := by
  have := a.isLt
  unfold pageOf
  rw [BitVec.extractLsb'_toNat, Nat.shiftRight_eq_div_pow]
  omega

theorem toNat_paddr (p : Page) : (paddr p).toNat = p.toNat * 4096 := by
  unfold paddr
  rw [BitVec.toNat_append]
  simp [Nat.shiftLeft_eq]

theorem page_eq_of_pdx_ptx {v v' : Page} (hd : pdx v = pdx v') (ht : ptx v = ptx v') : v = v' := by
  have := congrArg BitVec.toNat hd
  have := congrArg BitVec.toNat ht
  simp only [pdx, ptx, BitVec.extractLsb'_toNat, Nat.shiftRight_eq_div_pow] at *
  apply BitVec.eq_of_toNat_eq
  have := v.isLt
  have := v'.isLt
  omega

theorem toNat_pdx (v : Page) : (pdx v).toNat = v.toNat / 1024 := by
  have := v.isLt
  unfold pdx
  rw [BitVec.extractLsb'_toNat, Nat.shiftRight_eq_div_pow]
  omega

/-- All user pages are in the first page table. -/
theorem IsUser.pdx_eq {v : Page} (h : IsUser v) : pdx v = 0#10 := by
  unfold IsUser at h
  apply BitVec.eq_of_toNat_eq
  rw [toNat_pdx, BitVec.toNat_zero]
  omega

/-! ## Page table entries -/

def PTE_P : Word := 0x001#32
def PTE_W : Word := 0x002#32
def PTE_U : Word := 0x004#32

/-- `pte & flag` as a condition. -/
def has (pte flag : Word) : Bool := pte &&& flag != 0#32

/-- `PTE_FLAGS`. -/
def pteFlags (pte : Word) : Word := pte &&& 0xFFF#32

@[simp] theorem has_or (a b flag : Word) : has (a ||| b) flag = (has a flag || has b flag) := by
  unfold has
  rw [Bool.eq_iff_iff]
  simp only [bne_iff_ne, Bool.or_eq_true, ne_eq]
  rw [BitVec.and_or_distrib_right]
  constructor
  · intro h
    by_contra hc
    rw [not_or, not_not, not_not] at hc
    rw [hc.1, hc.2] at h
    exact h (by decide)
  · intro h h0
    rw [BitVec.or_eq_zero_iff] at h0
    cases h with
    | inl h => exact h h0.1
    | inr h => exact h h0.2

theorem has_and (a b flag : Word) (h : b &&& flag = flag) : has (a &&& b) flag = has a flag := by
  unfold has
  rw [BitVec.and_assoc, h]

/-- The flags are bits below bit 12. -/
theorem has_paddr (p : Page) (flag : Word) (h : pageOf flag = 0#20) : has (paddr p) flag = false := by
  have : paddr p &&& flag = 0#32 := by
    ext i hi
    rw [BitVec.getElem_and, BitVec.getElem_zero, Bool.and_eq_false_iff]
    by_cases h12 : i < 12
    · left
      unfold paddr
      rw [BitVec.getElem_append]
      simp [h12]
    · right
      have hbit : (pageOf flag).getLsbD (i - 12) = false := by rw [h]; simp
      unfold pageOf at hbit
      rw [BitVec.getLsbD_extractLsb'] at hbit
      rw [← BitVec.getLsbD_eq_getElem]
      simpa [show i - 12 < 20 by omega, show 12 + (i - 12) = i by omega] using hbit
  simp [has, this]

@[simp] theorem has_paddr_P (p : Page) : has (paddr p) PTE_P = false := has_paddr p _ (by decide)
@[simp] theorem has_paddr_W (p : Page) : has (paddr p) PTE_W = false := has_paddr p _ (by decide)
@[simp] theorem has_paddr_U (p : Page) : has (paddr p) PTE_U = false := has_paddr p _ (by decide)

@[simp] theorem has_flags_P (a : Word) : has (pteFlags a) PTE_P = has a PTE_P :=
  has_and a _ _ (by decide)
@[simp] theorem has_flags_W (a : Word) : has (pteFlags a) PTE_W = has a PTE_W :=
  has_and a _ _ (by decide)
@[simp] theorem has_flags_U (a : Word) : has (pteFlags a) PTE_U = has a PTE_U :=
  has_and a _ _ (by decide)

@[simp] theorem pageOf_flags (a : Word) : pageOf (pteFlags a) = 0#20 := by
  unfold pteFlags
  rw [pageOf_and, show pageOf 0xFFF#32 = 0#20 by decide, BitVec.and_zero]

@[simp] theorem pageOf_P : pageOf PTE_P = 0#20 := by decide
@[simp] theorem pageOf_W : pageOf PTE_W = 0#20 := by decide
@[simp] theorem pageOf_U : pageOf PTE_U = 0#20 := by decide
@[simp] theorem has_P_P : has PTE_P PTE_P = true := by decide
@[simp] theorem has_P_W : has PTE_P PTE_W = false := by decide
@[simp] theorem has_P_U : has PTE_P PTE_U = false := by decide
@[simp] theorem has_W_P : has PTE_W PTE_P = false := by decide
@[simp] theorem has_W_W : has PTE_W PTE_W = true := by decide
@[simp] theorem has_W_U : has PTE_W PTE_U = false := by decide
@[simp] theorem has_U_P : has PTE_U PTE_P = false := by decide
@[simp] theorem has_U_W : has PTE_U PTE_W = false := by decide
@[simp] theorem has_U_U : has PTE_U PTE_U = true := by decide
@[simp] theorem has_zero (flag : Word) : has 0#32 flag = false := by simp [has]

/-- `pte & ~PTE_W`. -/
def clearW (pte : Word) : Word := pte &&& ~~~PTE_W

@[simp] theorem pageOf_clearW (a : Word) : pageOf (clearW a) = pageOf a := by
  unfold clearW
  rw [pageOf_and, show pageOf (~~~PTE_W) = BitVec.allOnes 20 by decide, BitVec.and_allOnes]

@[simp] theorem has_clearW_P (a : Word) : has (clearW a) PTE_P = has a PTE_P :=
  has_and a _ _ (by decide)
@[simp] theorem has_clearW_U (a : Word) : has (clearW a) PTE_U = has a PTE_U :=
  has_and a _ _ (by decide)
@[simp] theorem has_clearW_W (a : Word) : has (clearW a) PTE_W = false := by
  unfold has clearW
  rw [BitVec.and_assoc, show ~~~PTE_W &&& PTE_W = 0#32 by decide, BitVec.and_zero]
  rfl

/-- `pte += 2` sets the writable bit of an entry that does not have it. -/
theorem add_two_eq {a : Word} (h : has a PTE_W = false) : a + 2#32 = a ||| PTE_W := by
  apply BitVec.add_eq_or_of_and_eq_zero
  unfold has PTE_W at h
  simpa using h

/-! ## Bytes -/

def wordIx (o : BitVec 12) : Index := o.extractLsb' 2 10

def byteIx (o : BitVec 12) : ℕ := (o.extractLsb' 0 2).toNat

def putByte (w : Word) (k : ℕ) (b : Byte) : Word :=
  (w &&& ~~~(0xFF#32 <<< (8 * k))) ||| (b.setWidth 32 <<< (8 * k))

/-- The byte at an offset of a page. -/
def getByte (d : PageData) (o : BitVec 12) : Byte := (d (wordIx o)).extractLsb' (8 * byteIx o) 8

/-- A page with one byte changed. -/
def setByte (d : PageData) (o : BitVec 12) (b : Byte) : PageData :=
  Function.update d (wordIx o) (putByte (d (wordIx o)) (byteIx o) b)

theorem byteIx_lt (o : BitVec 12) : byteIx o < 4 := by
  unfold byteIx
  omega

theorem getLsbD_byte_mask (n : ℕ) : (0xFF#32 : Word).getLsbD n = decide (n < 8) := by
  have hmask : (0xFF#32 : Word) = BitVec.ofNat 32 (2 ^ 8 - 1) := rfl
  rw [hmask, BitVec.getLsbD_ofNat, Nat.testBit_two_pow_sub_one]
  by_cases h : n < 8
  · simp [h, show n < 32 by omega]
  · simp [h]

theorem extract_putByte (w : Word) {k k' : ℕ} (hk' : k' < 4) (b : Byte) :
    (putByte w k b).extractLsb' (8 * k') 8 = if k' = k then b else w.extractLsb' (8 * k') 8 := by
  apply BitVec.eq_of_getLsbD_eq
  intro j hj
  have hlt : 8 * k' + j < 32 := by omega
  unfold putByte
  rw [BitVec.getLsbD_extractLsb', BitVec.getLsbD_or, BitVec.getLsbD_and, BitVec.getLsbD_not,
    BitVec.getLsbD_shiftLeft, BitVec.getLsbD_shiftLeft, getLsbD_byte_mask, BitVec.getLsbD_setWidth]
  split_ifs with h
  · subst h
    simp [hj, hlt, show ¬ 8 * k' + j < 8 * k' by omega, show j < 32 by omega]
  · rw [BitVec.getLsbD_extractLsb']
    rcases Nat.lt_or_gt_of_ne h with h | h
    · simp [hj, hlt, show 8 * k' + j < 8 * k by omega]
    · simp [hj, hlt, show ¬ 8 * k' + j - 8 * k < 8 by omega, show 8 ≤ 8 * k' + j - 8 * k by omega]

theorem offset_eq_of_ix {o o' : BitVec 12} (hw : wordIx o = wordIx o') (hb : byteIx o = byteIx o') :
    o = o' := by
  have := congrArg BitVec.toNat hw
  simp only [wordIx, byteIx, BitVec.extractLsb'_toNat, Nat.shiftRight_eq_div_pow] at *
  apply BitVec.eq_of_toNat_eq
  have := o.isLt
  have := o'.isLt
  omega

theorem getByte_setByte (d : PageData) (o o' : BitVec 12) (b : Byte) :
    getByte (setByte d o b) o' = if o' = o then b else getByte d o' := by
  unfold getByte setByte
  by_cases hw : wordIx o' = wordIx o
  · rw [hw, Function.update_self, extract_putByte _ (byteIx_lt o')]
    by_cases h : o' = o
    · rw [if_pos h, if_pos (by rw [h])]
    · rw [if_neg h, if_neg fun hb => h (offset_eq_of_ix hw hb)]
  · rw [Function.update_of_ne hw, if_neg]
    rintro rfl
    exact hw rfl

theorem putByte_extract (w : Word) (k : ℕ) : putByte w k (w.extractLsb' (8 * k) 8) = w := by
  apply BitVec.eq_of_getLsbD_eq
  intro j hj
  unfold putByte
  rw [BitVec.getLsbD_or, BitVec.getLsbD_and, BitVec.getLsbD_not, BitVec.getLsbD_shiftLeft,
    BitVec.getLsbD_shiftLeft, getLsbD_byte_mask, BitVec.getLsbD_setWidth, BitVec.getLsbD_extractLsb']
  by_cases hlo : j < 8 * k
  · simp [hj, hlo]
  · by_cases hhi : j - 8 * k < 8
    · simp [hj, hlo, hhi, show j - 8 * k < 32 by omega, show 8 * k + (j - 8 * k) = j by omega]
    · simp [hj, hhi]

theorem setByte_getByte (d : PageData) (o : BitVec 12) : setByte d o (getByte d o) = d := by
  unfold setByte getByte
  rw [putByte_extract, Function.update_eq_self]

end SystemsProjects.Cow
