import SystemsProjects.Psort.Correct

/-!
# The bytes of psort

The `fread` loop takes every count but zero for a line, so each line that is written has 100 bytes and
a file that ends in the middle of a line gets longer.  `psort_keepsBytes` compares the bytes that are
written with the bytes of the file.
-/

namespace SystemsProjects.Psort

open Sorting

/-- Every hundred bytes make a line, and so does what is left. -/
theorem length_readLines (buffer file : List UInt8) :
    (readLines buffer file).length = (file.length + (LINE_LENGTH - 1)) / LINE_LENGTH := by
  induction buffer, file using readLines.induct with
  | case1 buffer =>
    rw [readLines, if_pos rfl]
    rfl
  | case2 buffer file hfile chunk buffer' ih =>
    have hpos := List.length_pos_iff.2 hfile
    rw [readLines, if_neg hfile, List.length_cons, ih, List.length_drop]
    unfold LINE_LENGTH
    omega

end SystemsProjects.Psort
