import Mathlib.Data.List.Basic
import Mathlib.Logic.Function.Iterate
import Mathlib.Tactic.IntervalCases
import SystemsProjects.Lib.Rounds

/-!
# Recovering the contents of a file

`data_copy` of `P7/runscan.c`, on an image with blocks of 1024 bytes.  The descriptor of the image is
its file position: `lseek` sets it, `read` delivers the bytes from it on and moves it.  The direct
blocks are read by their numbers, but of an indirect table only the first entry is read, and the data
blocks are then taken one after the other from the block it names.  `chunk_written` says which block
each chunk of the output comes from, and `followsMap_iff` when these are the blocks of the file.
-/

namespace SystemsProjects.Ext2

open Rounds

def blockSize : ℕ := 1024

/-- The byte of the image at each offset. -/
abbrev Disk := ℕ → UInt8

/-- The fields of `struct ext2_inode` that `data_copy` reads. -/
structure Inode where
  iSize : ℕ
  iBlock : ℕ → ℕ

/-- The file position of the image and the bytes written to the output file. -/
structure Files where
  pos : ℕ
  out : List UInt8

/-- The bytes `read` delivers. -/
def bytes (disk : Disk) (pos n : ℕ) : List UInt8 := (List.range n).map fun i => disk (pos + i)

/-- The little-endian word at an offset. -/
def word (disk : Disk) (pos : ℕ) : ℕ :=
  (disk pos).toNat + 256 * ((disk (pos + 1)).toNat +
    256 * ((disk (pos + 2)).toNat + 256 * (disk (pos + 3)).toNat))

/-- `block*block_size`, a product of `unsigned int`s. -/
def blockOffset (block : ℕ) : ℕ := block * blockSize % 2 ^ 32

/-! ## The source function -/

section

variable (disk : Disk) (inode : Inode)

def lseek (f : Files) (offset : ℕ) : Files := { f with pos := offset }

/-- `read(fd, &indir_block, 4)`. -/
def readWord (f : Files) : ℕ × Files := (word disk f.pos, { f with pos := f.pos + 4 })

/-- `read(fd, data_buf, n)` and `fwrite(data_buf, 1, n, fp)`. -/
def copyBytes (n : ℕ) (f : Files) : Files := ⟨f.pos + n, f.out ++ bytes disk f.pos n⟩

/-- The loop that copies `n` blocks from the file position on. -/
def copyBlocks (n : ℕ) (f : Files) : Files := (copyBytes disk blockSize)^[n] f

/-- The direct blocks, and the last bytes of a file of less than 12 blocks. -/
def copyDirect (f : Files) : Files :=
  let lastBlock := inode.iSize % blockSize
  let blocksNeeded := inode.iSize / blockSize
  if 1 ≤ blocksNeeded then
    let n := if blocksNeeded > 12 then 12 else blocksNeeded
    let f := (List.range n).foldl
      (fun f i => copyBytes disk blockSize (lseek f (blockOffset (inode.iBlock i)))) f
    if n < 12 then copyBytes disk lastBlock f else f
  else copyBytes disk lastBlock (lseek f (blockOffset (inode.iBlock 0)))

/-- The blocks of the single-indirect table: only its first entry is read. -/
def copySingle (f : Files) : Files :=
  let lastBlock := inode.iSize % blockSize
  let blocksNeeded := inode.iSize / blockSize
  if blocksNeeded > 12 then
    let n := if blocksNeeded - 12 > 256 then 256 else blocksNeeded - 12
    let (indirBlock, f) := readWord disk (lseek f (blockOffset (inode.iBlock 12)))
    let f := copyBlocks disk n (lseek f (blockOffset indirBlock))
    if n < 256 then copyBytes disk lastBlock f else f
  else f

/-- Go to the data block named by the first entry of the table that entry `cnt` of the
double-indirect table names. -/
def seekDouble (cnt : ℕ) (f : Files) : Files :=
  let (table, f) := readWord disk (lseek f ((inode.iBlock 13 * blockSize + cnt * 4) % 2 ^ 32))
  let (data, f) := readWord disk (lseek f (blockOffset table))
  lseek f (blockOffset data)

def copyDouble (f : Files) : Files :=
  let lastBlock := inode.iSize % blockSize
  let blocksNeeded := inode.iSize / blockSize
  if blocksNeeded > 268 then
    let doubleInd := (blocksNeeded - 268) / 256
    let blocksLeft := (blocksNeeded - 268) % 256
    let f := (List.range doubleInd).foldl
      (fun f cnt => copyBlocks disk 256 (seekDouble disk inode cnt f)) f
    copyBytes disk lastBlock (copyBlocks disk blocksLeft (seekDouble disk inode doubleInd f))
  else f

def dataCopy (f : Files) : Files :=
  copyDouble disk inode (copySingle disk inode (copyDirect disk inode f))

end

/-! ## The map of the file -/

section

variable (disk : Disk) (inode : Inode)

/-- The content of a block. -/
def content (block : ℕ) : List UInt8 := bytes disk (block * blockSize) blockSize

/-- Entry `i` of the table in a block. -/
def entry (block i : ℕ) : ℕ := word disk (block * blockSize + i * 4)

/-- The block that holds the `k`-th 1024 bytes of the file. -/
def mapBlock (k : ℕ) : ℕ :=
  if k < 12 then inode.iBlock k
  else if k < 268 then entry disk (inode.iBlock 12) (k - 12)
  else entry disk (entry disk (inode.iBlock 13) ((k - 268) / 256)) ((k - 268) % 256)

/-- What `data_copy` writes to a new file, with the image's position anywhere. -/
def written (pos : ℕ) : List UInt8 := (dataCopy disk inode ⟨pos, []⟩).out

/-- The `k`-th 1024 bytes of an output. -/
def chunk (out : List UInt8) (k : ℕ) : List UInt8 := (out.drop (blockSize * k)).take blockSize

/-- Each full chunk written is the content of the block of the map. -/
def FollowsMap (pos : ℕ) : Prop :=
  ∀ k < inode.iSize / blockSize,
    chunk (written disk inode pos) k = content disk (mapBlock disk inode k)

/-- The largest size that needs no triple-indirect block. -/
def MAX_SIZE : ℕ := (12 + 256 + 256 * 256) * blockSize

end

/-! ## The blocks that are read -/

section

variable (disk : Disk) (inode : Inode)

/-- The block reached by an offset that is computed from a block number. -/
def reached (block : ℕ) : ℕ := block % 2 ^ 22

/-- The block that the data blocks of a table are counted from: the one named by its first entry. -/
def firstData (table : ℕ) : ℕ := reached (entry disk (reached table) 0)

/-- The block the `k`-th chunk is read from. -/
def readBlock (k : ℕ) : ℕ :=
  if k < 12 then reached (inode.iBlock k)
  else if k < 268 then firstData disk (inode.iBlock 12) + (k - 12)
  else firstData disk (entry disk (reached (inode.iBlock 13)) ((k - 268) / 256)) + (k - 268) % 256

end

variable {disk : Disk} {inode : Inode}

theorem blockOffset_eq (block : ℕ) : blockOffset block = reached block * blockSize := by
  unfold blockOffset reached blockSize
  have h : (2 : ℕ) ^ 32 = 2 ^ 22 * 1024 := by norm_num
  rw [h, Nat.mul_mod_mul_right]

/-- The entries of the double-indirect table are within its block, so no carry leaves it. -/
theorem entryOffset_eq (block : ℕ) {cnt : ℕ} (hcnt : cnt < 256) :
    (block * blockSize + cnt * 4) % 2 ^ 32 = reached block * blockSize + cnt * 4 := by
  unfold reached blockSize
  omega

theorem length_bytes (disk : Disk) (pos n : ℕ) : (bytes disk pos n).length = n := by
  simp [bytes]

theorem length_content (disk : Disk) (block : ℕ) : (content disk block).length = blockSize :=
  length_bytes disk _ _

/-! ### Loops that append to the output -/

/-- The output of a loop whose body appends `c i`. -/
theorem foldl_out {g : Files → ℕ → Files} {c : ℕ → List UInt8} {l : List ℕ}
    (h : ∀ f, ∀ i ∈ l, (g f i).out = f.out ++ c i) (f : Files) :
    (l.foldl g f).out = f.out ++ l.flatMap c := by
  induction l generalizing f with
  | nil => simp
  | cons i l ih =>
    rw [List.foldl_cons, ih (fun f j hj => h f j (List.mem_cons_of_mem i hj)),
      h f i List.mem_cons_self, List.flatMap_cons, List.append_assoc]

/-- Copying only adds to the output. -/
theorem out_copyBytes (disk : Disk) (n : ℕ) (f : Files) : f.out <+: (copyBytes disk n f).out :=
  ⟨_, rfl⟩

theorem copyBlocks_eq (disk : Disk) (n : ℕ) (f : Files) {block : ℕ}
    (hpos : f.pos = block * blockSize) :
    copyBlocks disk n f = ⟨(block + n) * blockSize,
      f.out ++ (List.range n).flatMap fun i => content disk (block + i)⟩ := by
  induction n with
  | zero => simp [copyBlocks, ← hpos]
  | succ n ih =>
    unfold copyBlocks at ih ⊢
    rw [Function.iterate_succ_apply', ih, copyBytes, List.range_succ, List.flatMap_append,
      List.flatMap_singleton, List.append_assoc, ← Nat.add_assoc, Nat.add_mul _ 1, Nat.one_mul]
    rfl

/-! ### The three regimes -/

/-- The contents of the blocks that the first `n` chunks are read from. -/
def blocksOut (disk : Disk) (inode : Inode) (n : ℕ) : List UInt8 :=
  (List.range n).flatMap fun k => content disk (readBlock disk inode k)

theorem blocksOut_split {a n : ℕ} (h : a ≤ n) :
    blocksOut disk inode n = blocksOut disk inode a ++
      (List.range (n - a)).flatMap fun i => content disk (readBlock disk inode (a + i)) := by
  have hsplit := flatMap_range_add (fun k => content disk (readBlock disk inode k)) a (n - a)
  rwa [Nat.add_sub_cancel' h] at hsplit

/-- The loop over the direct blocks. -/
theorem directLoop_out (f : Files) {n : ℕ} (hn : n ≤ 12) :
    ((List.range n).foldl
      (fun f i => copyBytes disk blockSize (lseek f (blockOffset (inode.iBlock i)))) f).out =
        f.out ++ blocksOut disk inode n := by
  refine foldl_out (fun f i hi => ?_) f
  have hi12 : i < 12 := lt_of_lt_of_le (List.mem_range.1 hi) hn
  simp only [copyBytes, lseek, blockOffset_eq, readBlock, if_pos hi12, content]

theorem copyDirect_out_of_lt (f : Files) (h : inode.iSize / blockSize < 12) :
    f.out ++ blocksOut disk inode (inode.iSize / blockSize) <+: (copyDirect disk inode f).out := by
  unfold copyDirect
  by_cases hone : 1 ≤ inode.iSize / blockSize
  · have hn : (if inode.iSize / blockSize > 12 then 12 else inode.iSize / blockSize) =
        inode.iSize / blockSize := if_neg (by omega)
    simp only [if_pos hone, hn, if_pos h]
    rw [← directLoop_out f h.le]
    exact out_copyBytes disk _ _
  · have hzero : inode.iSize / blockSize = 0 := Nat.eq_zero_of_not_pos hone
    rw [if_neg hone, hzero]
    simp only [blocksOut, List.range_zero, List.flatMap_nil, List.append_nil]
    show (lseek f (blockOffset (inode.iBlock 0))).out <+: _
    exact out_copyBytes disk _ _

theorem copyDirect_out_of_ge (f : Files) (h : 12 ≤ inode.iSize / blockSize) :
    (copyDirect disk inode f).out = f.out ++ blocksOut disk inode 12 := by
  have hn : (if inode.iSize / blockSize > 12 then 12 else inode.iSize / blockSize) = 12 := by
    split_ifs <;> omega
  have hone : 1 ≤ inode.iSize / blockSize := by omega
  simp only [copyDirect, if_pos hone, hn, lt_irrefl, if_false]
  exact directLoop_out f le_rfl

theorem copySingle_of_le (f : Files) (h : inode.iSize / blockSize ≤ 12) :
    copySingle disk inode f = f := by
  simp [copySingle, h]

/-- The loop over the blocks of the single-indirect table. -/
theorem singleLoop_out (disk : Disk) (inode : Inode) (f : Files) {n : ℕ} (hn : n ≤ 256) :
    (copyBlocks disk n (lseek f (blockOffset (entry disk (reached (inode.iBlock 12)) 0)))).out =
      f.out ++ (List.range n).flatMap fun i => content disk (readBlock disk inode (12 + i)) := by
  have hpos : (lseek f (blockOffset (entry disk (reached (inode.iBlock 12)) 0))).pos =
      firstData disk (inode.iBlock 12) * blockSize := blockOffset_eq _
  rw [copyBlocks_eq disk n _ hpos]
  refine congrArg (f.out ++ ·) (List.flatMap_congr fun i hi => ?_)
  have hi256 : 12 + i < 268 := by
    have := List.mem_range.1 hi
    omega
  have hi12 : ¬ 12 + i < 12 := by omega
  rw [readBlock, if_neg hi12, if_pos hi256, Nat.add_sub_cancel_left]

theorem readWord_table (f : Files) (block : ℕ) :
    (readWord disk (lseek f (blockOffset block))).1 = entry disk (reached block) 0 := by
  simp [readWord, lseek, entry, blockOffset_eq]

theorem copySingle_out_of_lt (f : Files) (h : 12 < inode.iSize / blockSize)
    (hlt : inode.iSize / blockSize < 268) :
    f.out ++ (List.range (inode.iSize / blockSize - 12)).flatMap
        (fun i => content disk (readBlock disk inode (12 + i))) <+:
      (copySingle disk inode f).out := by
  have hn : (if inode.iSize / blockSize - 12 > 256 then 256 else inode.iSize / blockSize - 12) =
      inode.iSize / blockSize - 12 := if_neg (by omega)
  have hn256 : inode.iSize / blockSize - 12 < 256 := by omega
  simp only [copySingle, if_pos (show inode.iSize / blockSize > 12 from h), hn, if_pos hn256,
    readWord_table]
  have hloop := singleLoop_out disk inode
    (readWord disk (lseek f (blockOffset (inode.iBlock 12)))).2 hn256.le
  refine List.IsPrefix.trans ?_ (out_copyBytes disk _ _)
  rw [hloop]
  exact ⟨[], List.append_nil _⟩

theorem copySingle_out_of_ge (f : Files) (h : 268 ≤ inode.iSize / blockSize) :
    (copySingle disk inode f).out = f.out ++ (List.range 256).flatMap
      fun i => content disk (readBlock disk inode (12 + i)) := by
  have hn : (if inode.iSize / blockSize - 12 > 256 then 256 else inode.iSize / blockSize - 12) =
      256 := by split_ifs <;> omega
  have h12 : inode.iSize / blockSize > 12 := by omega
  simp only [copySingle, if_pos h12, hn, lt_irrefl, if_false, readWord_table]
  exact singleLoop_out disk inode _ le_rfl

theorem copyDouble_of_le (f : Files) (h : inode.iSize / blockSize ≤ 268) :
    copyDouble disk inode f = f := by
  simp [copyDouble, h]

theorem seekDouble_eq (f : Files) {cnt : ℕ} (hcnt : cnt < 256) :
    seekDouble disk inode cnt f = lseek f
      (firstData disk (entry disk (reached (inode.iBlock 13)) cnt) * blockSize) := by
  simp only [seekDouble, readWord, lseek, entryOffset_eq _ hcnt, blockOffset_eq, firstData, entry,
    Nat.zero_mul, Nat.add_zero]

theorem seekDouble_out (f : Files) (cnt : ℕ) : (seekDouble disk inode cnt f).out = f.out := rfl

/-- One round of the loop over the tables of the double-indirect table. -/
theorem doubleLoop_out (f : Files) {cnt n : ℕ} (hcnt : cnt < 256) (hn : n ≤ 256) :
    (copyBlocks disk n (seekDouble disk inode cnt f)).out = f.out ++
      (List.range n).flatMap fun j => content disk (readBlock disk inode (268 + (256 * cnt + j))) := by
  rw [seekDouble_eq f hcnt, copyBlocks_eq disk n (lseek f _) rfl]
  refine congrArg (f.out ++ ·) (List.flatMap_congr fun j hj => ?_)
  have hj256 := List.mem_range.1 hj
  have h12 : ¬ 268 + (256 * cnt + j) < 12 := by omega
  have h268 : ¬ 268 + (256 * cnt + j) < 268 := by omega
  have hdiv : (256 * cnt + j) / 256 = cnt := by omega
  have hmod : (256 * cnt + j) % 256 = j := by omega
  rw [readBlock, if_neg h12, if_neg h268, Nat.add_sub_cancel_left, hdiv, hmod]

theorem doubleRounds_out (f : Files) {d : ℕ} (hd : d ≤ 256) :
    ((List.range d).foldl (fun f cnt => copyBlocks disk 256 (seekDouble disk inode cnt f)) f).out =
      f.out ++ (List.range (256 * d)).flatMap
        fun i => content disk (readBlock disk inode (268 + i)) := by
  have hbody : ∀ f, ∀ cnt ∈ List.range d,
      (copyBlocks disk 256 (seekDouble disk inode cnt f)).out = f.out ++ (List.range 256).flatMap
        fun j => content disk (readBlock disk inode (268 + (256 * cnt + j))) := by
    intro f cnt hcnt
    exact doubleLoop_out f (lt_of_lt_of_le (List.mem_range.1 hcnt) hd) le_rfl
  rw [foldl_out hbody f,
    flatMap_range_rounds 256 fun i => content disk (readBlock disk inode (268 + i))]

/-- The rounds of 256 blocks and the blocks left over. -/
theorem doubleAll_out (disk : Disk) (inode : Inode) (f : Files) {d r : ℕ}
    (hd : d < 256 ∨ d = 256 ∧ r = 0) (hr : r ≤ 256) :
    (copyBlocks disk r (seekDouble disk inode d ((List.range d).foldl
      (fun f cnt => copyBlocks disk 256 (seekDouble disk inode cnt f)) f))).out =
        f.out ++ (List.range (256 * d + r)).flatMap
          fun i => content disk (readBlock disk inode (268 + i)) := by
  rcases hd with hd | ⟨rfl, rfl⟩
  · rw [doubleLoop_out _ hd hr, doubleRounds_out f hd.le, List.append_assoc, flatMap_range_add]
  · -- The last seek leaves the table, but nothing is copied from there.
    rw [copyBlocks, Function.iterate_zero, id, seekDouble_out, Nat.add_zero]
    exact doubleRounds_out f (Nat.le_refl 256)

theorem copyDouble_out (f : Files) (h : 268 < inode.iSize / blockSize)
    (hsize : inode.iSize / blockSize - 268 ≤ 256 * 256) :
    f.out ++ (List.range (inode.iSize / blockSize - 268)).flatMap
        (fun i => content disk (readBlock disk inode (268 + i))) <+:
      (copyDouble disk inode f).out := by
  have hdiv := Nat.div_add_mod (inode.iSize / blockSize - 268) 256
  have hleft := doubleAll_out disk inode f
    (d := (inode.iSize / blockSize - 268) / 256) (r := (inode.iSize / blockSize - 268) % 256)
    (by omega) (by omega)
  rw [hdiv] at hleft
  rw [← hleft]
  unfold copyDouble
  rw [if_pos h]
  exact out_copyBytes disk _ _

/-- The output begins with the blocks that are read, in order. -/
theorem blocksOut_written (disk : Disk) (pos : ℕ) (hsize : inode.iSize ≤ MAX_SIZE) :
    blocksOut disk inode (inode.iSize / blockSize) <+: written disk inode pos := by
  unfold written dataCopy
  rcases Nat.lt_or_ge (inode.iSize / blockSize) 12 with h | h
  · rw [copySingle_of_le _ (by omega), copyDouble_of_le _ (by omega)]
    exact copyDirect_out_of_lt ⟨pos, []⟩ h
  have hdirect : (copyDirect disk inode ⟨pos, []⟩).out = blocksOut disk inode 12 := by
    rw [copyDirect_out_of_ge _ h, List.nil_append]
  rcases Nat.lt_or_ge 12 (inode.iSize / blockSize) with h12 | h12
  · rcases Nat.lt_or_ge (inode.iSize / blockSize) 268 with h268 | h268
    · rw [copyDouble_of_le _ h268.le, blocksOut_split h, ← hdirect]
      exact copySingle_out_of_lt _ h12 h268
    · have hsingle : (copySingle disk inode (copyDirect disk inode ⟨pos, []⟩)).out =
          blocksOut disk inode 268 := by
        rw [copySingle_out_of_ge _ h268, hdirect, blocksOut_split (a := 12) (n := 268) (by decide)]
      rcases Nat.lt_or_ge 268 (inode.iSize / blockSize) with hlt | hge
      · rw [blocksOut_split h268, ← hsingle]
        exact copyDouble_out _ hlt (by unfold MAX_SIZE blockSize at *; omega)
      · refine ⟨[], ?_⟩
        rw [List.append_nil, copyDouble_of_le _ hge, hsingle, le_antisymm hge h268]
  · refine ⟨[], ?_⟩
    rw [List.append_nil, copySingle_of_le _ h12, copyDouble_of_le _ (by omega), hdirect, le_antisymm h12 h]

theorem length_blocksOut (n : ℕ) : (blocksOut disk inode n).length = blockSize * n := by
  induction n with
  | zero => rfl
  | succ n ih =>
    rw [blocksOut_split (Nat.le_succ n), List.length_append, ih]
    simp [length_content, Nat.mul_succ]

/-- The `k`-th chunk of the output is the content of `readBlock k`. -/
theorem chunk_written (pos : ℕ) (hsize : inode.iSize ≤ MAX_SIZE) {k : ℕ}
    (hk : k < inode.iSize / blockSize) :
    chunk (written disk inode pos) k = content disk (readBlock disk inode k) := by
  obtain ⟨t, ht⟩ := blocksOut_written disk pos hsize
  -- The output is the first `k` chunks, chunk `k`, and the rest.
  have hsplit : ∃ rest, written disk inode pos =
      blocksOut disk inode k ++ (content disk (readBlock disk inode k) ++ rest) := by
    rw [← ht, blocksOut_split (Nat.succ_le_of_lt hk), blocksOut_split (Nat.le_succ k),
      Nat.succ_sub Nat.le.refl, Nat.sub_self, List.range_one, List.flatMap_singleton]
    simp only [List.append_assoc]
    exact ⟨_, rfl⟩
  obtain ⟨rest, hrest⟩ := hsplit
  rw [chunk, hrest, List.drop_left' (length_blocksOut k), List.take_left' (length_content disk _)]

/-! ## When the output follows the map -/

/-- Reading in sequence delivers the blocks of the map: for each entry `i` of an indirect table the
block that lies `i` places after the one named by the table's first entry has the content of the block
named by entry `i`, and a block number times 1024 that does not fit 32 bits still leads to the same
content. -/
structure InSequence (disk : Disk) (inode : Inode) : Prop where
  direct : ∀ k < 12, k < inode.iSize / blockSize →
    content disk (reached (inode.iBlock k)) = content disk (inode.iBlock k)
  single : ∀ i < 256, 12 + i < inode.iSize / blockSize →
    content disk (firstData disk (inode.iBlock 12) + i) =
      content disk (entry disk (inode.iBlock 12) i)
  double : ∀ m, ∀ j < 256, 268 + (256 * m + j) < inode.iSize / blockSize →
    content disk (firstData disk (entry disk (reached (inode.iBlock 13)) m) + j) =
      content disk (entry disk (entry disk (inode.iBlock 13) m) j)

/-- The blocks read have the contents of the blocks of the map exactly when they lie in sequence. -/
theorem inSequence_iff : InSequence disk inode ↔ ∀ k < inode.iSize / blockSize,
    content disk (readBlock disk inode k) = content disk (mapBlock disk inode k) := by
  constructor
  · intro h k hk
    unfold readBlock mapBlock
    by_cases h12 : k < 12
    · rw [if_pos h12, if_pos h12]
      exact h.direct k h12 hk
    · rw [if_neg h12, if_neg h12]
      by_cases h268 : k < 268
      · rw [if_pos h268, if_pos h268]
        exact h.single (k - 12) (by omega) (by omega)
      · rw [if_neg h268, if_neg h268]
        exact h.double _ _ (Nat.mod_lt _ (by decide)) (by omega)
  · intro h
    refine ⟨fun k h12 hk => ?_, fun i hi hk => ?_, fun m j hj hk => ?_⟩
    · have := h k hk
      rwa [readBlock, mapBlock, if_pos h12, if_pos h12] at this
    · have h12 : ¬ 12 + i < 12 := by omega
      have h268 : 12 + i < 268 := by omega
      have := h (12 + i) hk
      rwa [readBlock, mapBlock, if_neg h12, if_neg h12, if_pos h268, if_pos h268,
        Nat.add_sub_cancel_left] at this
    · have h12 : ¬ 268 + (256 * m + j) < 12 := by omega
      have h268 : ¬ 268 + (256 * m + j) < 268 := by omega
      have hdiv : (256 * m + j) / 256 = m := by omega
      have hmod : (256 * m + j) % 256 = j := by omega
      have := h _ hk
      rwa [readBlock, mapBlock, if_neg h12, if_neg h12, if_neg h268, if_neg h268,
        Nat.add_sub_cancel_left, hdiv, hmod] at this

/-- For every image, every inode that needs no triple-indirect block and every position of the image:
the chunks that `data_copy` writes are the blocks of the file's map if and only if these lie in
sequence. -/
theorem followsMap_iff (disk : Disk) (inode : Inode) (pos : ℕ) (hsize : inode.iSize ≤ MAX_SIZE) :
    FollowsMap disk inode pos ↔ InSequence disk inode := by
  rw [inSequence_iff]
  refine forall_congr' fun k => forall_congr' fun hk => ?_
  rw [chunk_written pos hsize hk]

/-- The entries of the tables in use are consecutive block numbers, and offsets fit 32 bits. -/
structure Contiguous (disk : Disk) (inode : Inode) : Prop where
  small : ∀ k < 14, inode.iBlock k < 2 ^ 22
  single : ∀ i < 256, 12 + i < inode.iSize / blockSize →
    entry disk (inode.iBlock 12) 0 < 2 ^ 22 ∧
    entry disk (inode.iBlock 12) i = entry disk (inode.iBlock 12) 0 + i
  double : ∀ m, ∀ j < 256, 268 + (256 * m + j) < inode.iSize / blockSize →
    entry disk (inode.iBlock 13) m < 2 ^ 22 ∧
    entry disk (entry disk (inode.iBlock 13) m) 0 < 2 ^ 22 ∧
    entry disk (entry disk (inode.iBlock 13) m) j =
      entry disk (entry disk (inode.iBlock 13) m) 0 + j

theorem reached_of_lt {block : ℕ} (h : block < 2 ^ 22) : reached block = block := Nat.mod_eq_of_lt h

/-- A file laid out in one piece is recovered. -/
theorem Contiguous.inSequence (h : Contiguous disk inode) : InSequence disk inode := by
  refine ⟨fun k h12 _ => ?_, fun i hi hk => ?_, fun m j hj hk => ?_⟩
  · rw [reached_of_lt (h.small k (by omega))]
  · obtain ⟨hfirst, hentry⟩ := h.single i hi hk
    rw [firstData, reached_of_lt (h.small 12 (by decide)), reached_of_lt hfirst, hentry]
  · obtain ⟨htable, hfirst, hentry⟩ := h.double m j hj hk
    rw [firstData, reached_of_lt (h.small 13 (by decide)), reached_of_lt htable,
      reached_of_lt hfirst, hentry]

/-- A file of 14 blocks whose single-indirect table is block 2. -/
def fourteenBlocks : Inode where
  iSize := 14336
  iBlock k := if k = 12 then 2 else 0

/-- The table names blocks 3 and 4. -/
def compact : Disk := fun pos => if pos = 2048 then 3 else if pos = 2052 then 4 else 0

theorem compact_contiguous : Contiguous compact fourteenBlocks := by
  have hblocks : fourteenBlocks.iSize / blockSize = 14 := rfl
  refine ⟨fun k _ => ?_, fun i _ hi => ?_, fun m j _ hk => ?_⟩
  · unfold fourteenBlocks
    simp only
    split_ifs <;> decide
  · have hi2 : i < 2 := by omega
    interval_cases i <;> decide
  · omega

theorem followsMap_compact : FollowsMap compact fourteenBlocks 0 :=
  (followsMap_iff compact fourteenBlocks 0 (by decide)).2 compact_contiguous.inSequence

/-- The table names blocks 3 and 5, and block 5 begins with another byte than block 4. -/
def scattered : Disk := fun pos =>
  if pos = 2048 then 3 else if pos = 2052 then 5 else if pos = 5120 then 7 else 0

theorem head_content (disk : Disk) (block : ℕ) :
    (content disk block).head? = some (disk (block * blockSize)) := by
  have hrange : List.range blockSize = 0 :: (List.range 1023).map Nat.succ := List.range_succ_eq_map
  simp [content, bytes, hrange]

/-- The last block of the file is read from block 4 instead of block 5. -/
theorem not_followsMap_scattered : ¬ FollowsMap scattered fourteenBlocks 0 := by
  intro h
  have hlast := h 13 (by decide)
  rw [chunk_written 0 (by decide) (by decide)] at hlast
  have hread : readBlock scattered fourteenBlocks 13 = 4 := by decide
  have hmap : mapBlock scattered fourteenBlocks 13 = 5 := by decide
  have hhead := congrArg List.head? hlast
  rw [hread, hmap, head_content, head_content] at hhead
  exact absurd (Option.some.inj hhead) (by decide)


end SystemsProjects.Ext2
