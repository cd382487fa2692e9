import Mathlib.Data.List.Basic

/-!
# Descriptor tables

What each descriptor of a process refers to, for any type of files.  A new file goes to the lowest
descriptor that is not open; `get` after each operation is all that the later proofs need.
-/

namespace SystemsProjects

variable {α : Type*}

/-- The files of the descriptors `0`, `1`, ...; descriptors behind the end are not open. -/
structure FdTable (α : Type*) where
  files : List (Option α)
  deriving DecidableEq

namespace FdTable

def get (t : FdTable α) (fd : ℕ) : Option α := t.files[fd]?.join

def put (t : FdTable α) (fd : ℕ) (f : Option α) : FdTable α :=
  ⟨(t.files ++ List.replicate (fd + 1 - t.files.length) none).set fd f⟩

/-- The lowest descriptor that is not open. -/
def lowest (t : FdTable α) : ℕ := t.files.findIdx Option.isNone

/-- A file opened at the lowest descriptor. -/
def install (t : FdTable α) (f : α) : ℕ × FdTable α := (t.lowest, t.put t.lowest (some f))

def close (t : FdTable α) (fd : ℕ) : FdTable α := t.put fd none

/-- Fails if `oldfd` is not open. -/
def dup2 (t : FdTable α) (oldfd newfd : ℕ) : FdTable α :=
  match t.get oldfd with
  | none => t
  | some f => t.put newfd (some f)

/-- `pipe`: the read end, then the write end, at the lowest descriptors. -/
def pipe (t : FdTable α) (readEnd writeEnd : α) : (ℕ × ℕ) × FdTable α :=
  let (r, t) := t.install readEnd
  let (w, t) := t.install writeEnd
  ((r, w), t)

/-! ## What is open afterwards -/

theorem get_put (t : FdTable α) (fd : ℕ) (f : Option α) (k : ℕ) :
    (t.put fd f).get k = if k = fd then f else t.get k := by
  unfold get put
  rw [List.getElem?_set]
  by_cases hk : k = fd
  · have hlt : k < (t.files ++ List.replicate (fd + 1 - t.files.length) none).length := by
      rw [List.length_append, List.length_replicate]
      omega
    rw [if_pos hk.symm, if_pos hk, ← hk, if_pos (by rwa [hk] at hlt ⊢)]
    rfl
  · rw [if_neg (Ne.symm hk), if_neg hk]
    rcases Nat.lt_or_ge k t.files.length with hlt | hge
    · rw [List.getElem?_append_left hlt]
    · rw [List.getElem?_append_right hge, List.getElem?_replicate, List.getElem?_eq_none hge]
      split_ifs <;> rfl

@[simp] theorem get_close (t : FdTable α) (fd k : ℕ) :
    (t.close fd).get k = if k = fd then none else t.get k := get_put t fd none k

theorem get_dup2 (t : FdTable α) {oldfd : ℕ} {f : α} (h : t.get oldfd = some f) (newfd k : ℕ) :
    (t.dup2 oldfd newfd).get k = if k = newfd then some f else t.get k := by
  unfold dup2
  rw [h]
  exact get_put t newfd (some f) k

/-- `dup2`, then `close` of the descriptor that was copied. -/
theorem get_close_dup2 (t : FdTable α) {oldfd : ℕ} {f : α} (h : t.get oldfd = some f) (newfd k : ℕ) :
    ((t.dup2 oldfd newfd).close oldfd).get k =
      if k = oldfd then none else if k = newfd then some f else t.get k := by
  rw [get_close, get_dup2 t h]

/-- A copied descriptor refers to a file that was open before. -/
theorem exists_get_of_get_dup2 {t : FdTable α} {oldfd newfd k : ℕ} {f : α}
    (h : (t.dup2 oldfd newfd).get k = some f) : ∃ k', t.get k' = some f := by
  cases hold : t.get oldfd with
  | none =>
    rw [dup2, hold] at h
    exact ⟨k, h⟩
  | some g =>
    rw [get_dup2 t hold] at h
    split_ifs at h
    · exact ⟨oldfd, hold.trans h⟩
    · exact ⟨k, h⟩

theorem get_lowest (t : FdTable α) : t.get t.lowest = none := by
  unfold get lowest
  rcases Nat.lt_or_ge (t.files.findIdx Option.isNone) t.files.length with hlt | hge
  · rw [List.getElem?_eq_getElem hlt]
    exact Option.isNone_iff_eq_none.1 (List.findIdx_getElem (w := hlt))
  · rw [List.getElem?_eq_none hge]
    rfl

theorem get_isSome_of_lt_lowest {t : FdTable α} {fd : ℕ} (h : fd < t.lowest) :
    (t.get fd).isSome = true := by
  have hlt : fd < t.files.length := Nat.lt_of_lt_of_le h List.findIdx_le_length
  have hopen := List.not_of_lt_findIdx h
  unfold get
  rw [List.getElem?_eq_getElem hlt]
  cases hfd : t.files[fd] with
  | none =>
    rw [hfd] at hopen
    cases hopen
  | some f => rfl

theorem lowest_ne {t : FdTable α} {fd : ℕ} {f : α} (h : t.get fd = some f) : t.lowest ≠ fd := by
  rintro rfl
  rw [get_lowest] at h
  cases h

theorem lowest_eq_one {t : FdTable α} (h0 : (t.get 0).isSome = true) (h1 : t.get 1 = none) :
    t.lowest = 1 := by
  have hzero : t.lowest ≠ 0 := by
    intro hlow
    rw [← hlow, get_lowest] at h0
    cases h0
  have hle : ¬ 1 < t.lowest := by
    intro hlt
    have hopen := get_isSome_of_lt_lowest hlt
    rw [h1] at hopen
    cases hopen
  omega

theorem get_install (t : FdTable α) (f : α) (k : ℕ) :
    (t.install f).2.get k = if k = t.lowest then some f else t.get k := get_put t t.lowest (some f) k

/-- The two descriptors of a pipe were not open, and the rest of the table is as before. -/
structure Piped (t : FdTable α) (readEnd writeEnd : α) (r w : ℕ) (t' : FdTable α) : Prop where
  lowest : r = t.lowest
  ne : w ≠ r
  read_free : t.get r = none
  write_free : t.get w = none
  get : ∀ k, t'.get k = if k = w then some writeEnd else if k = r then some readEnd else t.get k

theorem piped_pipe (t : FdTable α) (readEnd writeEnd : α) :
    Piped t readEnd writeEnd (t.pipe readEnd writeEnd).1.1 (t.pipe readEnd writeEnd).1.2
      (t.pipe readEnd writeEnd).2 := by
  have hput := get_put t t.lowest (some readEnd)
  have hne : (t.put t.lowest (some readEnd)).lowest ≠ t.lowest :=
    lowest_ne (by rw [hput, if_pos rfl])
  refine ⟨rfl, hne, get_lowest t, ?_, fun k => ?_⟩
  · have hfree := get_lowest (t.put t.lowest (some readEnd))
    rwa [hput, if_neg hne] at hfree
  · have hpipe := get_put (t.put t.lowest (some readEnd)) (t.put t.lowest (some readEnd)).lowest
      (some writeEnd) k
    rw [hput] at hpipe
    exact hpipe

end FdTable

end SystemsProjects
