import SystemsProjects.Ext2.Image
import SystemsProjects.Lib.MachineInt

/-!
# The scan over all inodes

The loops of `main` in `P7/runscan.c` over the groups and their inodes, on an image with blocks of 1024
bytes.  The descriptor of group 0 is read once, and the table of group `g` is taken to begin
`g * blocks_per_group` blocks behind the one it names; the inode number is counted along.
`scansAll_iff` compares this with the tables that the groups' own descriptors name.
-/

namespace SystemsProjects.Ext2

open MachineInt Rounds

/-! ## The source functions -/

structure GroupDesc where
  bgInodeTable : ℕ

def groupDesc (disk : Disk) (pos : ℕ) : GroupDesc := ⟨word disk (pos + 8)⟩

/-- `read_group_desc` for group 0. -/
def readGroupDesc (disk : Disk) (g : Globals) : GroupDesc :=
  groupDesc disk ((BASE_OFFSET + BLOCK_OFFSET g 0 + g.blockSize) % 2 ^ 32)

/-- `read_super_block` for group 0. -/
def readSuperBlock (disk : Disk) (g : Globals) : SuperBlock :=
  superBlock disk ((BASE_OFFSET + BLOCK_OFFSET g 0) % 2 ^ 32)

def locateInodeTable (g : Globals) (ngroup : ℕ) (group : GroupDesc) : ℕ :=
  BLOCK_OFFSET g ((group.bgInodeTable + g.blocksPerGroup * ngroup) % 2 ^ 32)

/-- Where `read_inode` reads the inode of step `s`: entry `s.2` of the table of group `s.1`. -/
def slotPos (disk : Disk) (g : Globals) (s : ℕ × ℕ) : ℕ :=
  locateInodeTable g s.1 (readGroupDesc disk g) + s.2 * (readSuperBlock disk g).sInodeSize

/-- An inode with its mode. -/
structure InodeRecord extends Inode where
  iMode : ℕ

def inodeAt (disk : Disk) (pos : ℕ) : InodeRecord where
  iMode := half disk pos
  iSize := word disk (pos + 4)
  iBlock i := word disk (pos + 40 + 4 * i)

/-- `S_ISREG` and `S_ISDIR`. -/
def InodeRecord.isReg (inode : InodeRecord) : Bool := inode.iMode / 4096 = 8
def InodeRecord.isDir (inode : InodeRecord) : Bool := inode.iMode / 4096 = 4

/-- A regular file whose first block begins like a jpg file. -/
def InodeRecord.isJpg (disk : Disk) (inode : InodeRecord) : Bool :=
  let buffer := fun i => disk (localOffset (inode.iBlock 0) + i)
  inode.isReg && buffer 0 = 0xff && buffer 1 = 0xd8 && buffer 2 = 0xff &&
    (buffer 3 = 0xe0 || buffer 3 = 0xe1 || buffer 3 = 0xe8)

/-- An inode that is read, and the number that its output files are named after. -/
structure Visit where
  pos : ℕ
  inodeNo : ℤ
  deriving DecidableEq

/-- The loops of `main` over the steps that are left.  `main` returns when an output file of a jpg cannot
be created. -/
def scanLoop (disk : Disk) (opens : ℤ → Bool) (pos : ℕ × ℕ → ℕ) : List (ℕ × ℕ) → ℤ → List Visit
  | [], _ => []
  | s :: rest, inodeNo =>
    ⟨pos s, inodeNo⟩ ::
      if (inodeAt disk (pos s)).isJpg disk && !opens inodeNo then []
      else scanLoop disk opens pos rest (toInt32 (inodeNo + 1))

/-- `num_group`, an `int`. -/
def numGroup (g : Globals) (super : SuperBlock) : ℤ :=
  toInt32 ((super.sBlocksCount + g.blocksPerGroup - 1) % 2 ^ 32 / g.blocksPerGroup : ℕ)

def scan (disk : Disk) (g : Globals) (opens : ℤ → Bool) : List Visit :=
  let super := readSuperBlock disk g
  scanLoop disk opens (slotPos disk g)
    (steps (numGroup g super).toNat (toInt32 super.sInodesPerGroup).toNat) 1

/-- `main` goes on after step `s`. -/
def GoesOn (disk : Disk) (opens : ℤ → Bool) (pos : ℕ) (inodeNo : ℤ) : Prop :=
  (inodeAt disk pos).isJpg disk = true → opens inodeNo = true

/-- The visit of a step is made if `main` goes on after all steps before. -/
theorem getElem?_scanLoop {disk : Disk} {opens : ℤ → Bool} {pos : ℕ × ℕ → ℕ} {l : List (ℕ × ℕ)} (x : ℤ)
    (k : ℕ) (v : Visit) : (scanLoop disk opens pos l (toInt32 x))[k]? = some v ↔
      (∃ s, l[k]? = some s ∧ v = ⟨pos s, toInt32 (x + k)⟩) ∧
        ∀ j < k, ∀ s, l[j]? = some s → GoesOn disk opens (pos s) (toInt32 (x + j)) := by
  induction l generalizing x k with
  | nil => simp [scanLoop]
  | cons s rest ih =>
    rw [scanLoop]
    cases k with
    | zero =>
      rw [List.getElem?_cons_zero]
      constructor
      · intro h
        refine ⟨⟨s, rfl, ?_⟩, fun j hj => absurd hj (Nat.not_lt_zero j)⟩
        rw [Nat.cast_zero, add_zero]
        exact (Option.some.inj h).symm
      · rintro ⟨⟨s', hs', rfl⟩, -⟩
        rw [Nat.cast_zero, add_zero, ← Option.some.inj hs']
    | succ k =>
      have hnext : toInt32 (toInt32 x + 1) = toInt32 (x + 1) := toInt32_toInt32_add x 1
      have hcast : ∀ j : ℕ, x + (j + 1 : ℕ) = x + 1 + j := fun j => by omega
      have hgoes : ((inodeAt disk (pos s)).isJpg disk && !opens (toInt32 x)) = false ↔
          GoesOn disk opens (pos s) (toInt32 x) := by
        unfold GoesOn
        cases (inodeAt disk (pos s)).isJpg disk <;> cases opens (toInt32 x) <;> decide
      rw [List.getElem?_cons_succ, hnext, List.getElem?_cons_succ, hcast]
      cases hstop : (inodeAt disk (pos s)).isJpg disk && !opens (toInt32 x) with
      | true =>
        simp only [if_true, List.getElem?_nil]
        refine ⟨fun h => (nomatch h), fun h => ?_⟩
        have hfirst := h.2 0 (Nat.succ_pos k) s rfl
        rw [Nat.cast_zero, add_zero, ← hgoes, hstop] at hfirst
        cases hfirst
      | false =>
        rw [if_neg Bool.false_ne_true, ih]
        refine and_congr_right fun _ => ?_
        constructor
        · intro h j hj t ht
          cases j with
          | zero =>
            obtain rfl := Option.some.inj ht
            rw [Nat.cast_zero, add_zero]
            exact hgoes.1 hstop
          | succ j =>
            rw [hcast]
            exact h j (Nat.lt_of_succ_lt_succ hj) t ht
        · intro h j hj t ht
          have hlater := h (j + 1) (Nat.succ_lt_succ hj) t ht
          rwa [hcast] at hlater

/-! ## The inodes of an image -/

/-- The size of an inode in the tables; the first revision has no field for it. -/
def entrySize (super : SuperBlock) : ℕ := if super.sRevLevel = 0 then 128 else super.sInodeSize

/-- An image with blocks of 1024 bytes; the bitmaps of a group are one block each. -/
structure Image where
  disk : Disk
  globals : Globals
  accepted : ext2ReadInit disk = some globals
  logBlockSize : (superBlock disk BASE_OFFSET).sLogBlockSize = 0
  blocksPerGroup_le : globals.blocksPerGroup ≤ 8192
  inodesPerGroup_pos : 0 < (superBlock disk BASE_OFFSET).sInodesPerGroup
  inodesPerGroup_le : (superBlock disk BASE_OFFSET).sInodesPerGroup ≤ 8192
  entrySize_ge : 128 ≤ entrySize (superBlock disk BASE_OFFSET)

namespace Image

variable (img : Image)

def super : SuperBlock := superBlock img.disk BASE_OFFSET

def groups : ℕ := (img.super.sBlocksCount + img.globals.blocksPerGroup - 1) / img.globals.blocksPerGroup

/-- The block that a group's own descriptor names as the first of its inode table. -/
def inodeTable (ngroup : ℕ) : ℕ := (groupDesc img.disk (2048 + 32 * ngroup)).bgInodeTable

/-- Each inode table lies in the blocks of its group, the first of which is block 1. -/
def TablesInGroups : Prop := ∀ g < img.groups,
  1 + g * img.globals.blocksPerGroup ≤ img.inodeTable g ∧
    img.inodeTable g * 1024 + img.super.sInodesPerGroup * entrySize img.super ≤
      (1 + (g + 1) * img.globals.blocksPerGroup) * 1024

/-- The inode of step `s`, by the descriptor of its group, and its number. -/
def visit (s : ℕ × ℕ) : Visit :=
  ⟨img.inodeTable s.1 * 1024 + s.2 * entrySize img.super, s.1 * img.super.sInodesPerGroup + s.2 + 1⟩

/-- All inodes are read, with their numbers. -/
def ScansAll (opens : ℤ → Bool) : Prop :=
  scan img.disk img.globals opens = (steps img.groups img.super.sInodesPerGroup).map img.visit

/-- The tables of all groups lie as the one of group 0 does, within the first four gigabytes. -/
def TablesAligned : Prop := ∀ g < img.groups,
  img.inodeTable g = img.inodeTable 0 + img.globals.blocksPerGroup * g ∧ img.inodeTable g < 2 ^ 22

/-- The output files can be created for every jpg but the last inode. -/
def OutputsOpen (opens : ℤ → Bool) : Prop := ∀ g < img.groups, ∀ i < img.super.sInodesPerGroup,
  g * img.super.sInodesPerGroup + i + 1 < img.groups * img.super.sInodesPerGroup →
    (inodeAt img.disk (img.visit (g, i)).pos).isJpg img.disk = true →
      opens (img.visit (g, i)).inodeNo = true

/-! ## What is read of the superblock -/

variable {img}

theorem blockSize_eq : img.globals.blockSize = 1024 := by
  have hsize := (accepted_of_ext2ReadInit img.accepted).blockSize
  rwa [img.logBlockSize, Nat.pow_zero, Nat.mul_one] at hsize

theorem blocksPerGroup_pos : 0 < img.globals.blocksPerGroup :=
  (accepted_of_ext2ReadInit img.accepted).blocksPerGroup_pos

theorem readSuperBlock_eq : readSuperBlock img.disk img.globals = img.super := by
  unfold readSuperBlock
  rw [BLOCK_OFFSET_eq blockSize_eq]
  rfl

theorem readGroupDesc_eq : (readGroupDesc img.disk img.globals).bgInodeTable = img.inodeTable 0 := by
  unfold readGroupDesc
  rw [BLOCK_OFFSET_eq blockSize_eq, blockSize_eq]
  rfl

theorem slotPos_eq (s : ℕ × ℕ) : slotPos img.disk img.globals s =
    localOffset ((img.inodeTable 0 + img.globals.blocksPerGroup * s.1) % 2 ^ 32) +
      s.2 * img.super.sInodeSize := by
  unfold slotPos locateInodeTable
  rw [BLOCK_OFFSET_eq blockSize_eq, readGroupDesc_eq, readSuperBlock_eq]

/-- As an `int` the number of inodes of a group is what it is. -/
theorem toInt32_inodesPerGroup : toInt32 img.super.sInodesPerGroup = img.super.sInodesPerGroup := by
  have hle := img.inodesPerGroup_le
  refine toInt32_eq_self (Int.natCast_nonneg _) ?_
  unfold super INT_MAX
  omega

theorem scan_eq (img : Image) (opens : ℤ → Bool) : scan img.disk img.globals opens =
    scanLoop img.disk opens (slotPos img.disk img.globals)
      (steps (numGroup img.globals img.super).toNat img.super.sInodesPerGroup) (toInt32 1) := by
  unfold scan
  simp only [readSuperBlock_eq, toInt32_inodesPerGroup, Int.toNat_natCast]
  rfl

/-! ## Tables and their groups -/

/-- The stride leads to the table of the group if and only if the table lies there. -/
theorem localOffset_eq_table_iff (htables : img.TablesInGroups) {g : ℕ} (hg : g < img.groups) :
    localOffset ((img.inodeTable 0 + img.globals.blocksPerGroup * g) % 2 ^ 32) =
        img.inodeTable g * 1024 ↔
      img.inodeTable g = img.inodeTable 0 + img.globals.blocksPerGroup * g ∧ img.inodeTable g < 2 ^ 22 := by
  obtain ⟨hfirst, hfirstEnd⟩ := htables 0 (Nat.lt_of_le_of_lt (Nat.zero_le g) hg)
  obtain ⟨hbegin, hend⟩ := htables g hg
  have hle := img.blocksPerGroup_le
  rw [Nat.succ_mul] at hend
  rw [Nat.mul_comm img.globals.blocksPerGroup g]
  unfold localOffset
  generalize g * img.globals.blocksPerGroup = stride at *
  generalize img.super.sInodesPerGroup * entrySize img.super = size at *
  omega

/-- There are few groups if their tables lie within the first four gigabytes. -/
theorem groups_mul_le (htables : img.TablesInGroups) (haligned : img.TablesAligned) :
    img.groups * img.globals.blocksPerGroup < 2 ^ 22 + 8192 := by
  have hle := img.blocksPerGroup_le
  rcases Nat.eq_zero_or_pos img.groups with hzero | hpos
  · rw [hzero, Nat.zero_mul]
    decide
  · have hlast : img.groups - 1 < img.groups := Nat.sub_lt hpos Nat.one_pos
    have hbegin := (htables _ hlast).1
    have hlt := (haligned _ hlast).2
    rw [Nat.sub_mul, Nat.one_mul] at hbegin
    omega

theorem blocksCount_le : img.super.sBlocksCount ≤ img.groups * img.globals.blocksPerGroup := by
  have hpos := img.blocksPerGroup_pos
  have hdiv := Nat.div_add_mod (img.super.sBlocksCount + img.globals.blocksPerGroup - 1)
    img.globals.blocksPerGroup
  have hmod := Nat.mod_lt (img.super.sBlocksCount + img.globals.blocksPerGroup - 1) hpos
  rw [Nat.mul_comm] at hdiv
  unfold groups
  omega

theorem numGroup_eq (htables : img.TablesInGroups) (haligned : img.TablesAligned) :
    (numGroup img.globals img.super).toNat = img.groups := by
  have hmul := groups_mul_le htables haligned
  have hcount := img.blocksCount_le
  have hle := img.blocksPerGroup_le
  have hgroups : img.groups ≤ img.groups * img.globals.blocksPerGroup :=
    Nat.le_mul_of_pos_right _ img.blocksPerGroup_pos
  have hsmall : img.super.sBlocksCount + img.globals.blocksPerGroup - 1 < 2 ^ 32 := by omega
  unfold numGroup
  rw [Nat.mod_eq_of_lt hsmall]
  show (toInt32 (img.groups : ℕ)).toNat = img.groups
  rw [toInt32_eq_self (Int.natCast_nonneg _), Int.toNat_natCast]
  unfold INT_MAX
  omega

/-- An inode table fits into its group, so there are at most eight inodes for each block. -/
theorem inodeNo_eq (htables : img.TablesInGroups) (haligned : img.TablesAligned) {k : ℕ}
    (hk : k < img.groups * img.super.sInodesPerGroup) : toInt32 (1 + k) = 1 + k := by
  have hmul := groups_mul_le htables haligned
  have hgroups : 0 < img.groups := by
    rcases Nat.eq_zero_or_pos img.groups with hzero | hpos
    · rw [hzero, Nat.zero_mul] at hk
      exact absurd hk (Nat.not_lt_zero k)
    · exact hpos
  obtain ⟨hbegin, hend⟩ := htables 0 hgroups
  have hentry : img.super.sInodesPerGroup * 128 ≤ img.super.sInodesPerGroup * entrySize img.super :=
    Nat.mul_le_mul_left _ img.entrySize_ge
  have height : img.super.sInodesPerGroup ≤ 8 * img.globals.blocksPerGroup := by omega
  have htotal := Nat.mul_le_mul_left img.groups height
  rw [Nat.mul_left_comm] at htotal
  refine toInt32_eq_self (by omega) ?_
  unfold INT_MAX
  omega

/-! ## Which images are scanned -/

/-- The superblock gives the size of an inode, if a second one is looked for. -/
def SizesAgree (img : Image) : Prop :=
  0 < img.groups → 1 < img.super.sInodesPerGroup → img.super.sInodeSize = entrySize img.super

theorem getElem?_visits (k : ℕ) (v : Visit) :
    ((steps img.groups img.super.sInodesPerGroup).map img.visit)[k]? = some v ↔
      ∃ s, (steps img.groups img.super.sInodesPerGroup)[k]? = some s ∧ v = img.visit s := by
  rw [List.getElem?_map, Option.map_eq_some_iff]
  simp only [eq_comm]

/-- On an image that is scanned, each step reads the inode it should, and `main` goes on after the steps
before. -/
theorem ScansAll.step {opens : ℤ → Bool} (h : img.ScansAll opens) {g i : ℕ} (hg : g < img.groups)
    (hi : i < img.super.sInodesPerGroup) :
    (img.visit (g, i)).pos = slotPos img.disk img.globals (g, i) ∧
      ∀ g' i', i' < img.super.sInodesPerGroup →
        g' * img.super.sInodesPerGroup + i' < g * img.super.sInodesPerGroup + i →
        GoesOn img.disk opens (slotPos img.disk img.globals (g', i'))
          (toInt32 (1 + (g' * img.super.sInodesPerGroup + i' : ℕ))) := by
  have hvisit := (getElem?_visits (g * img.super.sInodesPerGroup + i) (img.visit (g, i))).2
    ⟨(g, i), getElem?_steps hg hi, rfl⟩
  rw [← h, scan_eq, getElem?_scanLoop] at hvisit
  obtain ⟨⟨s, hs, heq⟩, hgoes⟩ := hvisit
  obtain ⟨hs1, hs2, hsum⟩ := exists_of_getElem?_steps hs
  obtain ⟨rfl, rfl⟩ := eq_of_mul_add_eq hi hs2 hsum
  refine ⟨congrArg Visit.pos heq, fun g' i' hi' hlt => ?_⟩
  refine hgoes _ hlt (g', i') (getElem?_steps ?_ hi')
  -- An earlier step belongs to a group that is not later.
  by_contra hge
  have hmul := Nat.mul_le_mul_right img.super.sInodesPerGroup (Nat.succ_le_of_lt hs1 |>.trans (not_lt.1 hge))
  rw [Nat.succ_mul] at hmul
  omega

theorem ScansAll.tablesAligned {opens : ℤ → Bool} (h : img.ScansAll opens) (htables : img.TablesInGroups) :
    img.TablesAligned := by
  intro g hg
  have hpos := (h.step hg img.inodesPerGroup_pos).1
  rw [slotPos_eq] at hpos
  unfold visit at hpos
  simp only [Nat.zero_mul, Nat.add_zero] at hpos
  exact (localOffset_eq_table_iff htables hg).1 hpos.symm

theorem ScansAll.sizesAgree {opens : ℤ → Bool} (h : img.ScansAll opens) (htables : img.TablesInGroups) :
    img.SizesAgree := by
  intro hgroups htwo
  have hpos := (h.step hgroups htwo).1
  have hfirst := (localOffset_eq_table_iff htables hgroups).2 (h.tablesAligned htables 0 hgroups)
  rw [slotPos_eq] at hpos
  unfold visit at hpos
  simp only [hfirst, Nat.one_mul] at hpos
  omega

/-- On an image whose tables are aligned the steps read what they should. -/
theorem slotPos_eq_visit (htables : img.TablesInGroups) (haligned : img.TablesAligned)
    (hsizes : img.SizesAgree) {g i : ℕ} (hg : g < img.groups) (hi : i < img.super.sInodesPerGroup) :
    slotPos img.disk img.globals (g, i) = (img.visit (g, i)).pos := by
  rw [slotPos_eq]
  unfold visit
  rw [(localOffset_eq_table_iff htables hg).2 (haligned g hg)]
  rcases Nat.eq_zero_or_pos i with rfl | hpos
  · simp only [Nat.zero_mul]
  · rw [hsizes (Nat.lt_of_le_of_lt (Nat.zero_le g) hg) (Nat.lt_of_le_of_lt hpos hi)]

theorem step_lt {g i : ℕ} (hg : g < img.groups) (hi : i < img.super.sInodesPerGroup) :
    g * img.super.sInodesPerGroup + i < img.groups * img.super.sInodesPerGroup := by
  have hlt := (List.getElem?_eq_some_iff.1 (getElem?_steps hg hi)).1
  rwa [length_steps] at hlt

theorem inodeNo_visit (htables : img.TablesInGroups) (haligned : img.TablesAligned) {g i : ℕ}
    (hg : g < img.groups) (hi : i < img.super.sInodesPerGroup) :
    toInt32 (1 + (g * img.super.sInodesPerGroup + i : ℕ)) = (img.visit (g, i)).inodeNo := by
  rw [inodeNo_eq htables haligned (step_lt hg hi)]
  unfold visit
  push_cast
  exact Int.add_comm _ _

/-- For every image with blocks of 1024 bytes and any number of groups, with each inode table anywhere in
its group, and for every answer of `fopen`: all inodes are read where the descriptors of their groups
say, with their numbers, if and only if the tables of all groups lie as the one of group 0 does and
below 2^22, the superblock gives the size of an inode, and the output files can be created for every jpg
but the last inode. -/
theorem scansAll_iff (img : Image) (opens : ℤ → Bool) (htables : img.TablesInGroups) :
    img.ScansAll opens ↔ img.TablesAligned ∧ img.SizesAgree ∧ img.OutputsOpen opens := by
  constructor
  · intro h
    have haligned := h.tablesAligned htables
    have hsizes := h.sizesAgree htables
    refine ⟨haligned, hsizes, fun g hg i hi hlast => ?_⟩
    -- The last step is reached, so `main` goes on after this one.
    have hgroups : img.groups - 1 < img.groups := by omega
    have hinodes : img.super.sInodesPerGroup - 1 < img.super.sInodesPerGroup :=
      Nat.sub_lt img.inodesPerGroup_pos Nat.one_pos
    have hend : (img.groups - 1) * img.super.sInodesPerGroup + (img.super.sInodesPerGroup - 1) + 1 =
        img.groups * img.super.sInodesPerGroup := by
      have hone : img.groups = img.groups - 1 + 1 := by omega
      conv_rhs => rw [hone, Nat.succ_mul]
      omega
    have hgoes := (h.step hgroups hinodes).2 g i hi (by omega)
    rwa [slotPos_eq_visit htables haligned hsizes hg hi, inodeNo_visit htables haligned hg hi] at hgoes
  · rintro ⟨haligned, hsizes, hopen⟩
    refine List.ext_getElem? fun k => Option.ext fun v => ?_
    rw [getElem?_visits, scan_eq, getElem?_scanLoop, numGroup_eq htables haligned]
    have hstep : ∀ {j : ℕ} {s : ℕ × ℕ}, (steps img.groups img.super.sInodesPerGroup)[j]? = some s →
        img.visit s = ⟨slotPos img.disk img.globals s, toInt32 (1 + j)⟩ := by
      rintro j ⟨g, i⟩ hs
      obtain ⟨hg, hi, rfl⟩ := exists_of_getElem?_steps hs
      rw [slotPos_eq_visit htables haligned hsizes hg hi, inodeNo_visit htables haligned hg hi]
    constructor
    · rintro ⟨⟨s, hs, rfl⟩, -⟩
      exact ⟨s, hs, (hstep hs).symm⟩
    · rintro ⟨s, hs, rfl⟩
      refine ⟨⟨s, hs, hstep hs⟩, ?_⟩
      rintro j hj ⟨g, i⟩ ht
      have hk := (List.getElem?_eq_some_iff.1 hs).1
      rw [length_steps] at hk
      obtain ⟨hg, hi, rfl⟩ := exists_of_getElem?_steps ht
      have hgoes := hopen g hg i hi (Nat.lt_of_le_of_lt hj hk)
      rw [← inodeNo_visit htables haligned hg hi, ← slotPos_eq_visit htables haligned hsizes hg hi] at hgoes
      exact hgoes

end Image

/-- Two groups of 8192 blocks, with their inode tables at the given blocks. -/
def twoGroups (first second : List UInt8) : Disk :=
  diskOf (superFields [0, 0x40] ++ ((List.range 4).map fun i => (2056 + i, first.getD i 0)) ++
    (List.range 4).map fun i => (2088 + i, second.getD i 0))

/-- The tables at blocks 5 and 8197. -/
def alignedImage : Image where
  disk := twoGroups [5] [5, 0x20]
  globals := ⟨1024, 8, 1, 8192, 2, 8⟩
  accepted := rfl
  logBlockSize := rfl
  blocksPerGroup_le := le_rfl
  inodesPerGroup_pos := Nat.succ_pos 7
  inodesPerGroup_le := Nat.le_add_right 8 8184
  entrySize_ge := le_rfl

/-- The second table two blocks further to the front, at 8195. -/
def shiftedImage : Image where
  disk := twoGroups [5] [3, 0x20]
  globals := ⟨1024, 8, 1, 8192, 2, 8⟩
  accepted := rfl
  logBlockSize := rfl
  blocksPerGroup_le := le_rfl
  inodesPerGroup_pos := Nat.succ_pos 7
  inodesPerGroup_le := Nat.le_add_right 8 8184
  entrySize_ge := le_rfl

theorem alignedImage_tablesInGroups : alignedImage.TablesInGroups := by
  unfold Image.TablesInGroups
  decide

theorem shiftedImage_tablesInGroups : shiftedImage.TablesInGroups := by
  unfold Image.TablesInGroups
  decide

/-- The tables of both groups are read where they are. -/
theorem scansAll_aligned : alignedImage.ScansAll fun _ => true := by
  refine (Image.scansAll_iff alignedImage _ alignedImage_tablesInGroups).2 ⟨?_, fun _ _ => ?_, ?_⟩
  · unfold Image.TablesAligned
    decide
  · decide
  · exact fun _ _ _ _ _ _ => rfl

/-- The inodes of the second group are read from block 8197, and not from block 8195 where they are. -/
theorem not_scansAll_shifted : ¬ shiftedImage.ScansAll fun _ => true := by
  intro h
  have haligned := h.tablesAligned shiftedImage_tablesInGroups 1 (by decide)
  exact absurd haligned.1 (by decide)

end SystemsProjects.Ext2
