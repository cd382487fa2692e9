import SystemsProjects.Lib.Interleaving
import SystemsProjects.Lib.MachineInt
import SystemsProjects.Psort.MergeSort

/-!
# The psort program

`main` of `P6/psort.c` in its three parts: reading and distributing the lines (`start`), the worker
threads, one `Prog` per child array, which run in any interleaving (`Interleaving.Reaches`), and
gathering, sorting and writing (`finish`).  The counters of the source are `int`s and integers here,
which is the same for fewer than 2^31 lines, each of 100 bytes, and threads: no counter exceeds their numbers.
-/

namespace SystemsProjects.Psort

open MachineInt

def LINE_LENGTH : ℕ := 100

structure KeyValuePair where
  key : ℤ
  value : List UInt8

/-- `*(int *)buffer`: the first four bytes as a signed little-endian integer. -/
def keyOf (buffer : List UInt8) : ℤ :=
  toInt32 ((buffer.take 4).foldr (fun b n => b.toNat + 256 * n) 0)

/-! ## Step 1: reading -/

/-- The `fread` loop.  A short read overwrites only the beginning of the buffer. -/
def readLines (buffer : List UInt8) (file : List UInt8) : List KeyValuePair :=
  if file = [] then []
  else
    let chunk := file.take LINE_LENGTH
    let buffer := chunk ++ buffer.drop chunk.length
    ⟨keyOf buffer, buffer⟩ :: readLines buffer (file.drop LINE_LENGTH)
termination_by file.length
decreasing_by
  have : file.length ≠ 0 := by simpa [List.length_eq_zero_iff] using ‹_›
  rw [List.length_drop, LINE_LENGTH]
  omega

/-! ## Step 2: distribution -/

/-- The counters computed from the number of lines and of threads. -/
structure Plan where
  numThread : ℤ
  linesEachThread : ℤ
  remainder : ℤ
  numLines : ℤ

/-- With more threads than lines, two threads are used. -/
def plan (numLines numThread : ℤ) : Plan :=
  let numThread' := if numLines / numThread = 0 then 2 else numThread
  { numThread := numThread'
    linesEachThread := numLines / numThread'
    remainder := numLines % numThread'
    numLines := numLines - numLines % numThread' }

/-- `parent_array`. -/
abbrev Grid := List (Cells KeyValuePair)

def Grid.write (g : Grid) (j k : ℤ) (v : KeyValuePair) : Option Grid :=
  if j < 0 ∨ (g.length : ℤ) ≤ j then none
  else (Cells.write (g.getD j.toNat []) k v).map fun row => g.set j.toNat row

/-- The distribution loop from index `i` on, with the iterations left as argument `n`. -/
def distribute (lines : List KeyValuePair) (linesEachThread : ℤ) :
    (n : ℕ) → (i j k : ℤ) → Grid → Option Grid
  | 0, _, _, _, g => some g
  | n + 1, i, j, k, g =>
    (Cells.read (lines.map some) i).bind fun v => (g.write j k v).bind fun g =>
      if k = linesEachThread - 1 then distribute lines linesEachThread n (i + 1) (j + 1) 0 g
      else distribute lines linesEachThread n (i + 1) j (k + 1) g

/-! ## Step 3: the threads -/

/-- The threads and the child arrays they sort. -/
abbrev Threads (n : ℕ) := Interleaving.Pool (Fin n) ℕ (Prog KeyValuePair) (Cells KeyValuePair)

/-- Steps 2 and 3 up to the creation of the threads: `thrFunc` sorts `data[i].arr` from `0` to
`lines_each_thread - 1`. -/
def start (lines : List KeyValuePair) (p : Plan) : Option (Threads p.numThread.toNat) :=
  (distribute lines p.linesEachThread p.numLines.toNat 0 0 0
    (List.replicate p.numThread.toNat (malloc p.linesEachThread))).map fun g =>
      { control := fun _ => mergeSort KeyValuePair.key 0 (p.linesEachThread - 1) .done
        heap := fun j => g.getD j [] }

/-! ## Steps 4 and 5: gathering, sorting and writing -/

/-- `parent_array[j][k]` after the threads have been joined. -/
def Threads.read {n : ℕ} (t : Threads n) (j k : ℤ) : Option KeyValuePair :=
  if j < 0 ∨ (n : ℤ) ≤ j then none else (t.heap j.toNat).read k

/-- The loop that copies the child arrays into the final array. -/
def gather {n : ℕ} (t : Threads n) (linesEachThread : ℤ) :
    (m : ℕ) → (i j k : ℤ) → Cells KeyValuePair → Option (Cells KeyValuePair)
  | 0, _, _, _, final => some final
  | m + 1, i, j, k, final =>
    (t.read j k).bind fun v => (final.write i v).bind fun final =>
      if k = linesEachThread - 1 then gather t linesEachThread m (i + 1) (j + 1) 0 final
      else gather t linesEachThread m (i + 1) j (k + 1) final

/-- The loop that adds the remainder back. -/
def addRemainder (lines : List KeyValuePair) :
    (m : ℕ) → (i : ℤ) → Cells KeyValuePair → Option (Cells KeyValuePair)
  | 0, _, final => some final
  | m + 1, i, final =>
    (Cells.read (lines.map some) i).bind fun v => (final.write i v).bind fun final =>
      addRemainder lines m (i + 1) final

/-- The output loop. -/
def writeLines (final : Cells KeyValuePair) : (m : ℕ) → (i : ℤ) → Option (List UInt8)
  | 0, _ => some []
  | m + 1, i => (final.read i).bind fun v => (writeLines final m (i + 1)).map fun out => v.value ++ out

/-- Everything after the threads have been joined: the bytes of the output file, or `none` if some
access leaves its array. -/
def finish (lines : List KeyValuePair) (p : Plan) (t : Threads p.numThread.toNat) :
    Option (List UInt8) :=
  let numLines := p.numLines + p.remainder
  (gather t p.linesEachThread p.numLines.toNat 0 0 0 (malloc numLines)).bind fun final =>
    (addRemainder lines p.remainder.toNat p.numLines final).bind fun final =>
      ((mergeSort KeyValuePair.key 0 (numLines - 1) .done).exec final).bind fun final =>
        writeLines final numLines.toNat 0

end SystemsProjects.Psort
