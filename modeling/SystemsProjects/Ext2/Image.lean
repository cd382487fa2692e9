import SystemsProjects.Ext2.DataCopy

/-!
# Where blocks are read

The superblock, `ext2_read_init` and the address formulas of `P7/read_ext2.c` and `P7/runscan.c`.  There
are three: `BLOCK_OFFSET` counts from the superblock, `name_search` and `data_copy` multiply with the
`block_size` of the image, and `main` multiplies with a variable of its own under that name.  All are
computed as `unsigned int`s.  `addressesUniform_iff` says on which images they give the offset of the
block.
-/

namespace SystemsProjects.Ext2

/-! ## Structures on the disk -/

def EXT2_SUPER_MAGIC : ℕ := 0xEF53

def BASE_OFFSET : ℕ := 1024

/-- The two-byte number at an offset. -/
def half (disk : Disk) (pos : ℕ) : ℕ := (disk pos).toNat + 256 * (disk (pos + 1)).toNat

/-- The fields of `struct ext2_super_block` that are used. -/
structure SuperBlock where
  sBlocksCount : ℕ
  sLogBlockSize : ℕ
  sBlocksPerGroup : ℕ
  sInodesPerGroup : ℕ
  sMagic : ℕ
  sRevLevel : ℕ
  sInodeSize : ℕ

def superBlock (disk : Disk) (pos : ℕ) : SuperBlock where
  sBlocksCount := word disk (pos + 4)
  sLogBlockSize := word disk (pos + 24)
  sBlocksPerGroup := word disk (pos + 32)
  sInodesPerGroup := word disk (pos + 40)
  sMagic := half disk (pos + 56)
  sRevLevel := word disk (pos + 76)
  sInodeSize := half disk (pos + 88)

/-- The global variables of `read_ext2.c`. -/
structure Globals where
  blockSize : ℕ
  inodesPerBlock : ℕ
  itableBlocks : ℕ
  blocksPerGroup : ℕ
  numGroups : ℕ
  inodesPerGroup : ℕ

/-- `ext2_read_init`; `none` if the process ends there, at the wrong magic number or at a division by
zero. -/
def ext2ReadInit (disk : Disk) : Option Globals :=
  let super := superBlock disk BASE_OFFSET
  let blockSize := (1024 <<< super.sLogBlockSize) % 2 ^ 32
  let inodesPerBlock := blockSize / 128
  if super.sMagic ≠ EXT2_SUPER_MAGIC ∨ inodesPerBlock = 0 ∨ super.sBlocksPerGroup = 0 then none
  else some
    { blockSize := blockSize
      inodesPerBlock := inodesPerBlock
      itableBlocks := super.sInodesPerGroup / inodesPerBlock
      blocksPerGroup := super.sBlocksPerGroup
      numGroups := (super.sBlocksCount + super.sBlocksPerGroup - 1) % 2 ^ 32 / super.sBlocksPerGroup
      inodesPerGroup := super.sInodesPerGroup }

/-! ## Addresses -/

/-- `BLOCK_OFFSET(block)`; `block - 1` wraps around. -/
def BLOCK_OFFSET (g : Globals) (block : ℕ) : ℕ :=
  (BASE_OFFSET + (block + (2 ^ 32 - 1)) * g.blockSize) % 2 ^ 32

/-- `block*block_size` in `name_search` and `data_copy`. -/
def globalOffset (g : Globals) (block : ℕ) : ℕ := block * g.blockSize % 2 ^ 32

/-- `block*block_size` in `main`, whose `block_size` is its own. -/
def localOffset (block : ℕ) : ℕ := block * 1024 % 2 ^ 32

/-- Every block of the image is read at its offset, wherever it is read. -/
structure AddressesUniform (disk : Disk) (g : Globals) : Prop where
  table : ∀ b < (superBlock disk BASE_OFFSET).sBlocksCount,
    BLOCK_OFFSET g b = b * (1024 * 2 ^ (superBlock disk BASE_OFFSET).sLogBlockSize)
  main : ∀ b < (superBlock disk BASE_OFFSET).sBlocksCount,
    localOffset b = b * (1024 * 2 ^ (superBlock disk BASE_OFFSET).sLogBlockSize)
  search : ∀ b < (superBlock disk BASE_OFFSET).sBlocksCount,
    globalOffset g b = b * (1024 * 2 ^ (superBlock disk BASE_OFFSET).sLogBlockSize)

variable {disk : Disk} {g : Globals}

/-- What is known of an image that is accepted. -/
structure Accepted (disk : Disk) (g : Globals) : Prop where
  magic : (superBlock disk BASE_OFFSET).sMagic = EXT2_SUPER_MAGIC
  blocksPerGroup : g.blocksPerGroup = (superBlock disk BASE_OFFSET).sBlocksPerGroup
  blocksPerGroup_pos : 0 < g.blocksPerGroup
  blockSize : g.blockSize = 1024 * 2 ^ (superBlock disk BASE_OFFSET).sLogBlockSize
  blockSize_lt : g.blockSize < 2 ^ 32

/-- A shift that loses the bit gives a block size of zero, which is not accepted. -/
theorem accepted_of_ext2ReadInit (h : ext2ReadInit disk = some g) : Accepted disk g := by
  unfold ext2ReadInit at h
  simp only at h
  split_ifs at h with hbad
  push Not at hbad
  obtain ⟨hmagic, hper, hpos⟩ := hbad
  obtain rfl := Option.some.inj h
  have hshift : 1024 <<< (superBlock disk BASE_OFFSET).sLogBlockSize < 2 ^ 32 := by
    rw [Nat.shiftLeft_eq] at hper ⊢
    by_contra hge
    have hexp : 22 ≤ (superBlock disk BASE_OFFSET).sLogBlockSize := by
      by_contra hlt
      have hle : 2 ^ (superBlock disk BASE_OFFSET).sLogBlockSize ≤ 2 ^ 21 :=
        Nat.pow_le_pow_right (by decide) (by omega)
      omega
    obtain ⟨k, hk⟩ := Nat.exists_eq_add_of_le hexp
    have hmul : 1024 * 2 ^ (superBlock disk BASE_OFFSET).sLogBlockSize = 2 ^ 32 * 2 ^ k := by
      have h32 : (2 : ℕ) ^ 32 = 1024 * 2 ^ 22 := by decide
      rw [hk, Nat.pow_add, h32, Nat.mul_assoc]
    rw [hmul, Nat.mul_mod_right] at hper
    exact hper rfl
  refine ⟨hmagic, rfl, Nat.pos_of_ne_zero hpos, ?_, Nat.mod_lt _ (by decide)⟩
  rw [Nat.mod_eq_of_lt hshift, Nat.shiftLeft_eq]

/-- With blocks of 1024 bytes the three formulas are one. -/
theorem BLOCK_OFFSET_eq (h : g.blockSize = 1024) (b : ℕ) : BLOCK_OFFSET g b = localOffset b := by
  unfold BLOCK_OFFSET localOffset BASE_OFFSET
  rw [h]
  omega

theorem globalOffset_eq (h : g.blockSize = 1024) (b : ℕ) : globalOffset g b = localOffset b := by
  unfold globalOffset localOffset
  rw [h]

theorem localOffset_eq {b : ℕ} (h : b < 2 ^ 22) : localOffset b = b * 1024 := by
  unfold localOffset
  omega

/-- Block 0 is looked for behind the end of the address range, unless blocks have 1024 bytes. -/
theorem BLOCK_OFFSET_zero (hlt : g.blockSize < 2 ^ 32) (h : BLOCK_OFFSET g 0 = 0) :
    g.blockSize = 1024 := by
  unfold BLOCK_OFFSET BASE_OFFSET at h
  omega

/-- For every image that is accepted: each block is read at its offset by all three formulas if and only
if there is no block, or blocks have 1024 bytes and there are at most 2^22 of them. -/
theorem addressesUniform_iff (disk : Disk) (g : Globals) (h : ext2ReadInit disk = some g) :
    AddressesUniform disk g ↔ (superBlock disk BASE_OFFSET).sBlocksCount = 0 ∨
      (superBlock disk BASE_OFFSET).sLogBlockSize = 0 ∧
        (superBlock disk BASE_OFFSET).sBlocksCount ≤ 2 ^ 22 := by
  have haccepted := accepted_of_ext2ReadInit h
  have hsize := haccepted.blockSize
  constructor
  · intro huniform
    rcases Nat.eq_zero_or_pos (superBlock disk BASE_OFFSET).sBlocksCount with hnone | hsome
    · exact Or.inl hnone
    · have hzero := huniform.table 0 hsome
      rw [Nat.zero_mul] at hzero
      have hsize' := BLOCK_OFFSET_zero haccepted.blockSize_lt hzero
      have hlog : (superBlock disk BASE_OFFSET).sLogBlockSize = 0 := by
        rw [hsize] at hsize'
        by_contra hne
        have htwo : 2 ^ 1 ≤ 2 ^ (superBlock disk BASE_OFFSET).sLogBlockSize :=
          Nat.pow_le_pow_right (by decide) (Nat.pos_of_ne_zero hne)
        omega
      refine Or.inr ⟨hlog, ?_⟩
      by_contra hlarge
      -- The product for block 2^22 is the first one that does not fit.
      have hwrap := huniform.main (2 ^ 22) (by omega)
      rw [hlog] at hwrap
      exact absurd hwrap (by decide)
  · rintro (hnone | ⟨hlog, hle⟩)
    · have hno : ∀ b, ¬ b < (superBlock disk BASE_OFFSET).sBlocksCount := by
        rw [hnone]
        exact Nat.not_lt_zero
      exact ⟨fun b hb => absurd hb (hno b), fun b hb => absurd hb (hno b), fun b hb => absurd hb (hno b)⟩
    · rw [hlog, Nat.pow_zero, Nat.mul_one] at hsize
      have hlocal : ∀ b < (superBlock disk BASE_OFFSET).sBlocksCount,
          localOffset b = b * (1024 * 2 ^ (superBlock disk BASE_OFFSET).sLogBlockSize) := by
        intro b hb
        rw [hlog, Nat.pow_zero, Nat.mul_one, localOffset_eq (Nat.lt_of_lt_of_le hb hle)]
      exact ⟨fun b hb => (BLOCK_OFFSET_eq hsize b).trans (hlocal b hb), hlocal,
        fun b hb => (globalOffset_eq hsize b).trans (hlocal b hb)⟩

/-- A disk with some bytes that are not zero. -/
def diskOf (fields : List (ℕ × UInt8)) : Disk := fun a => (fields.lookup a).getD 0

/-- The superblock of an image of blocks of 1024 bytes, 8192 in each group, with inodes of 128 bytes and
eight of them in a group; `count` are the bytes of the number of blocks. -/
def superFields (count : List UInt8) : List (ℕ × UInt8) :=
  ((List.range 4).map fun i => (1028 + i, count.getD i 0)) ++
    [(1057, 0x20), (1064, 8), (1080, 0x53), (1081, 0xEF), (1100, 1), (1112, 0x80)]

/-- An image of 8193 blocks. -/
theorem addressesUniform_small : ∃ g, ext2ReadInit (diskOf (superFields [1, 0x20])) = some g ∧
    AddressesUniform (diskOf (superFields [1, 0x20])) g := by
  refine ⟨_, rfl, (addressesUniform_iff _ _ rfl).2 (Or.inr ⟨?_, ?_⟩)⟩
  · decide
  · decide

/-- In an image of one block more than four gigabytes the last block is looked for at offset zero. -/
theorem not_addressesUniform_large : ∃ g, ext2ReadInit (diskOf (superFields [1, 0, 0x40])) = some g ∧
    ¬ AddressesUniform (diskOf (superFields [1, 0, 0x40])) g := by
  refine ⟨_, rfl, fun h => ?_⟩
  exact absurd (h.main 4194304 (by decide)) (by decide)

end SystemsProjects.Ext2
