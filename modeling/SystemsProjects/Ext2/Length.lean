import SystemsProjects.Ext2.DataCopy

/-!
# The length of a recovered file

How many bytes each of the regions of `data_copy` writes.  The last bytes of a file are written in the
region of its last full block, except that the regions of the direct and the single-indirect blocks do
not write them when all their blocks are full, and the next region begins only one block later.
-/

namespace SystemsProjects.Ext2

variable (disk : Disk) (inode : Inode)

theorem length_copyBytes (n : ℕ) (f : Files) : (copyBytes disk n f).out.length = f.out.length + n := by
  rw [copyBytes, List.length_append, length_bytes]

theorem length_copyBlocks (n : ℕ) (f : Files) :
    (copyBlocks disk n f).out.length = f.out.length + n * blockSize := by
  induction n with
  | zero => simp [copyBlocks]
  | succ n ih =>
    unfold copyBlocks at ih ⊢
    rw [Function.iterate_succ_apply', length_copyBytes, ih, Nat.succ_mul, Nat.add_assoc]

/-- A loop whose body writes `n` bytes. -/
theorem length_foldl {g : Files → ℕ → Files} {n : ℕ} (h : ∀ f i, (g f i).out.length = f.out.length + n)
    (l : List ℕ) (f : Files) : (l.foldl g f).out.length = f.out.length + l.length * n := by
  induction l generalizing f with
  | nil => simp
  | cons i l ih =>
    rw [List.foldl_cons, ih, h, List.length_cons, Nat.succ_mul]
    omega

theorem length_copyDirect (f : Files) :
    (copyDirect disk inode f).out.length = f.out.length +
      if inode.iSize / blockSize < 12 then inode.iSize else 12 * blockSize := by
  have hloop : ∀ n, ((List.range n).foldl
      (fun f i => copyBytes disk blockSize (lseek f (blockOffset (inode.iBlock i)))) f).out.length =
        f.out.length + n * blockSize := by
    intro n
    rw [length_foldl (n := blockSize), List.length_range]
    intro f i
    rw [length_copyBytes, lseek]
  have hdiv := Nat.div_add_mod' inode.iSize blockSize
  unfold copyDirect
  by_cases hone : 1 ≤ inode.iSize / blockSize
  · simp only [if_pos hone]
    by_cases h : inode.iSize / blockSize < 12
    · have hn : ¬ inode.iSize / blockSize > 12 := by omega
      rw [if_neg hn, if_pos h, if_pos h, length_copyBytes, hloop]
      omega
    · have hn : (if inode.iSize / blockSize > 12 then 12 else inode.iSize / blockSize) = 12 := by
        split_ifs <;> omega
      rw [hn, if_neg (lt_irrefl 12), if_neg h, hloop]
  · have hzero : inode.iSize / blockSize = 0 := Nat.eq_zero_of_not_pos hone
    rw [hzero, Nat.zero_mul, Nat.zero_add] at hdiv
    rw [if_neg hone, hzero, if_pos (by decide), length_copyBytes, hdiv, lseek]

theorem length_copySingle (f : Files) :
    (copySingle disk inode f).out.length = f.out.length +
      if inode.iSize / blockSize ≤ 12 then 0
      else if inode.iSize / blockSize < 268 then inode.iSize - 12 * blockSize else 256 * blockSize := by
  by_cases h12 : inode.iSize / blockSize ≤ 12
  · rw [copySingle_of_le f h12, if_pos h12, Nat.add_zero]
  · have hdiv := Nat.div_add_mod' inode.iSize blockSize
    unfold copySingle
    rw [if_pos (not_le.1 h12), if_neg h12]
    simp only
    by_cases h268 : inode.iSize / blockSize < 268
    · have hn : ¬ inode.iSize / blockSize - 12 > 256 := by omega
      have hlt : inode.iSize / blockSize - 12 < 256 := by omega
      rw [if_neg hn, if_pos hlt, if_pos h268, length_copyBytes, length_copyBlocks, Nat.sub_mul]
      show f.out.length + _ + _ = _
      have hle : 12 * blockSize ≤ inode.iSize / blockSize * blockSize := Nat.mul_le_mul_right _ (by omega)
      omega
    · have hn : (if inode.iSize / blockSize - 12 > 256 then 256 else inode.iSize / blockSize - 12) =
          256 := by split_ifs <;> omega
      rw [hn, if_neg (lt_irrefl 256), if_neg h268, length_copyBlocks]
      rfl

theorem length_copyDouble (f : Files) :
    (copyDouble disk inode f).out.length = f.out.length +
      if inode.iSize / blockSize ≤ 268 then 0 else inode.iSize - 268 * blockSize := by
  by_cases h268 : inode.iSize / blockSize ≤ 268
  · rw [copyDouble_of_le f h268, if_pos h268, Nat.add_zero]
  · have hdiv := Nat.div_add_mod' inode.iSize blockSize
    have hround := Nat.div_add_mod' (inode.iSize / blockSize - 268) 256
    unfold copyDouble
    rw [if_pos (not_le.1 h268), if_neg h268]
    simp only
    rw [length_copyBytes, length_copyBlocks, seekDouble_out, length_foldl (n := 256 * blockSize), List.length_range]
    · have hblocks : (inode.iSize / blockSize - 268) / 256 * (256 * blockSize) +
          (inode.iSize / blockSize - 268) % 256 * blockSize = (inode.iSize / blockSize - 268) * blockSize := by
        rw [← Nat.mul_assoc, ← Nat.add_mul, hround]
      rw [Nat.sub_mul] at hblocks
      have hle : 268 * blockSize ≤ inode.iSize / blockSize * blockSize := Nat.mul_le_mul_right _ (by omega)
      omega
    · intro f cnt
      rw [length_copyBlocks, seekDouble_out]

/-- The number of bytes that are written. -/
theorem length_written (pos : ℕ) : (written disk inode pos).length =
    if inode.iSize / blockSize = 12 then 12 * blockSize
    else if inode.iSize / blockSize = 268 then 268 * blockSize else inode.iSize := by
  have hle : ∀ n, n ≤ inode.iSize / blockSize → n * blockSize ≤ inode.iSize := fun n hn =>
    (Nat.mul_le_mul_right _ hn).trans (Nat.div_mul_le_self _ _)
  unfold written dataCopy
  rw [length_copyDouble, length_copySingle, length_copyDirect, List.length_nil, Nat.zero_add]
  rcases Nat.lt_trichotomy (inode.iSize / blockSize) 12 with h | h | h
  · rw [if_pos h, if_pos h.le, if_pos (by omega), if_neg h.ne, if_neg (by omega)]
    rfl
  · simp [h]
  · rw [if_neg (by omega), if_neg (not_le.2 h), if_neg h.ne']
    have h12 := hle 12 h.le
    rcases Nat.lt_trichotomy (inode.iSize / blockSize) 268 with h' | h' | h'
    · rw [if_pos h', if_pos h'.le, if_neg h'.ne]
      omega
    · simp only [h', lt_irrefl, if_false, le_refl, if_true]
      omega
    · have h268 := hle 268 h'.le
      rw [if_neg (by omega), if_neg (not_le.2 h'), if_neg h'.ne']
      omega

/-- A file whose full blocks are just the direct blocks, or just these and those of the single-indirect
table, loses its last bytes; every other file has the right length. -/
theorem length_written_iff (pos : ℕ) : (written disk inode pos).length = inode.iSize ↔
    ¬ ((inode.iSize / blockSize = 12 ∨ inode.iSize / blockSize = 268) ∧ inode.iSize % blockSize ≠ 0) := by
  have hdiv := Nat.div_add_mod' inode.iSize blockSize
  rw [length_written]
  by_cases h12 : inode.iSize / blockSize = 12
  · rw [h12] at hdiv
    rw [if_pos h12]
    simp only [h12, true_or, true_and, not_not]
    omega
  · by_cases h268 : inode.iSize / blockSize = 268
    · rw [h268] at hdiv
      rw [if_neg h12, if_pos h268]
      simp only [h268, or_true, true_and, not_not]
      omega
    · simp [h12, h268]

/-- Of a file of 12 blocks and one byte, the byte is missing. -/
theorem length_written_ne_thirteenthBlock :
    (written (fun _ => 0) ⟨12289, fun _ => 0⟩ 0).length ≠ 12289 := by
  rw [length_written]
  decide

end SystemsProjects.Ext2
