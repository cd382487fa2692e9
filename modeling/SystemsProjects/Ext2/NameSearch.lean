import Mathlib.Data.List.TakeWhile
import SystemsProjects.Ext2.Scan

/-!
# The search for a name

`name_search` of `P7/runscan.c`, on an image with blocks of 1024 bytes.  It looks at the first block of
every directory for an entry with the inode number, and copies the name of the first one it comes to into
a buffer that nobody has written before.  It reads one inode more than a table has, writes no
terminator, and returns zero also when it has found nothing.  `findsName_iff` says on which images, and
with which bytes in the buffer, this does no harm.
-/

namespace SystemsProjects.Ext2

open MachineInt Rounds

/-! ## Directory entries -/

section

variable (b : ℕ → UInt8) (o : ℕ)

/-- The fields of the `struct ext2_dir_entry` at offset `o`. -/
def recLen : ℕ := half b (o + 4)
def nameLen : ℕ := (b (o + 6)).toNat
def entryName : List UInt8 := bytes b (o + 8) (nameLen b o)

/-- The step of the walk over a block. -/
def nextCount : ℕ :=
  let offset := if nameLen b o ≠ 4 then 4 - nameLen b o % 4 else 0
  o + 4 + 2 + 2 + nameLen b o + offset

/-- The bytes an entry occupies. -/
def entrySpan : ℕ := (8 + nameLen b o + 3) / 4 * 4

/-- Those that it is given if a name whose length is a multiple of 4, other than 4, gets four bytes more. -/
def paddedSpan : ℕ :=
  if nameLen b o % 4 = 0 ∧ nameLen b o ≠ 4 then entrySpan b o + 4 else entrySpan b o

theorem four_dvd_paddedSpan : 4 ∣ paddedSpan b o := by
  unfold paddedSpan entrySpan
  split_ifs <;> omega

theorem paddedSpan_ge : 12 ≤ paddedSpan b o := by
  unfold paddedSpan entrySpan
  split_ifs <;> omega

theorem nextCount_eq : nextCount b o = o + paddedSpan b o := by
  unfold nextCount paddedSpan entrySpan
  simp only
  split_ifs <;> omega

theorem lt_nextCount : o < nextCount b o := by
  have hspan := paddedSpan_ge b o
  rw [nextCount_eq]
  omega

/-- The walk over a block from `o` on, up to an entry for inode `n`. -/
def walk (n : ℤ) (o : ℕ) : Option ℕ :=
  if o < 1024 then if toInt32 (word b o) = n then some o else walk n (nextCount b o) else none
termination_by 1024 - o
decreasing_by
  have hlt := lt_nextCount b o
  omega

end

/-! ## The source function -/

/-- `char buffer[1024]` after the first block of a directory has been read, and the stack behind it. -/
def dirBuffer (disk : Disk) (g : Globals) (stack : ℕ → UInt8) (inode : Inode) : ℕ → UInt8 :=
  fun i => if i < 1024 then disk (globalOffset g (inode.iBlock 0) + i) else stack i

/-- The name at which the search stops in the inode of step `s`, if it stops there. -/
def hit (disk : Disk) (g : Globals) (stack : ℕ → UInt8) (n : ℤ) (s : ℕ × ℕ) : Option (List UInt8) :=
  let inode := inodeAt disk (slotPos disk g s)
  if inode.isDir then
    let buffer := dirBuffer disk g stack inode.toInode
    (walk buffer n 0).map (entryName buffer)
  else none

/-- The inodes that are read, and the name that is found. -/
structure Found where
  reads : List (ℕ × ℕ)
  name : Option (List UInt8)

def searchLoop (hit : ℕ × ℕ → Option (List UInt8)) : List (ℕ × ℕ) → Found
  | [] => ⟨[], none⟩
  | s :: rest =>
    match hit s with
    | some name => ⟨[s], some name⟩
    | none => ⟨s :: (searchLoop hit rest).reads, (searchLoop hit rest).name⟩

/-- The bytes that `strncpy(inode_name, name, name_len)` writes: those before a `NUL`, then zeros. -/
def copied (name : List UInt8) : List UInt8 :=
  let text := name.takeWhile fun c => c ≠ 0
  text ++ List.replicate (name.length - text.length) 0

/-- The inodes that are searched; the loop includes `s_inodes_per_group`. -/
def searched (disk : Disk) (g : Globals) : List (ℕ × ℕ) :=
  let super := readSuperBlock disk g
  steps (numGroup g super).toNat (toInt32 super.sInodesPerGroup + 1).toNat

/-- What the loops of `name_search` come to. -/
def search (disk : Disk) (g : Globals) (stack : ℕ → UInt8) (n : ℤ) : Found :=
  searchLoop (hit disk g stack n) (searched disk g)

structure Search where
  found : Found
  ret : ℤ
  inodeName : List UInt8

def nameSearch (disk : Disk) (g : Globals) (stack : ℕ → UInt8) (n : ℤ) (inodeName : List UInt8) :
    Search where
  found := search disk g stack n
  ret := 0
  inodeName :=
    match (search disk g stack n).name with
    | some name => copied name ++ inodeName.drop name.length
    | none => inodeName

/-! ## Names in an image -/

/-- The offsets of the entries of a block, live ones and those left behind the bytes that a live one uses. -/
inductive EntryAt (b : ℕ → UInt8) : ℕ → Prop
  | first : EntryAt b 0
  | next {o : ℕ} : EntryAt b o → o + recLen b o < 1024 → EntryAt b (o + recLen b o)
  | slack {o : ℕ} : EntryAt b o → o + 8 + (nameLen b o + 3) / 4 * 4 < 1024 →
      EntryAt b (o + 8 + (nameLen b o + 3) / 4 * 4)

/-- Step `s` is a slot of an inode table. -/
def Image.Slot (img : Image) (s : ℕ × ℕ) : Prop :=
  s.1 < (numGroup img.globals img.super).toNat ∧ s.2 < img.super.sInodesPerGroup

def Image.inode (img : Image) (s : ℕ × ℕ) : InodeRecord :=
  inodeAt img.disk (slotPos img.disk img.globals s)

/-- The `k`-th data block of an inode. -/
def Image.dataBlock (img : Image) (s : ℕ × ℕ) (k : ℕ) : ℕ → UInt8 :=
  fun i => img.disk (mapBlock img.disk (img.inode s).toInode k * blockSize + i)

/-- A data block of a directory of the image has an entry for inode `n` with this name. -/
def Image.IsName (img : Image) (n : ℤ) (name : List UInt8) : Prop :=
  ∃ s, img.Slot s ∧ (img.inode s).isDir = true ∧ ∃ k, k * blockSize < (img.inode s).iSize ∧ ∃ o,
    EntryAt (img.dataBlock s k) o ∧ o + 8 + nameLen (img.dataBlock s k) o ≤ blockSize ∧
      toInt32 (word (img.dataBlock s k) o) = n ∧ name = entryName (img.dataBlock s k) o

/-- The buffer holds the name and a terminator. -/
def Holds (inodeName name : List UInt8) : Prop :=
  inodeName.take name.length = name ∧ inodeName[name.length]? = some 0

/-- `name_search` reads only slots of the tables, leaves a name of the inode if there is one, and returns
something else than after a success if there is none. -/
structure FindsName (img : Image) (stack : ℕ → UInt8) (n : ℤ) (inodeName : List UInt8) : Prop where
  slots : ∀ s ∈ (nameSearch img.disk img.globals stack n inodeName).found.reads, img.Slot s
  found : (∃ name, img.IsName n name) → ∃ name, img.IsName n name ∧
    Holds (nameSearch img.disk img.globals stack n inodeName).inodeName name
  missing : (∀ name, ¬ img.IsName n name) →
    (nameSearch img.disk img.globals stack n inodeName).ret ≠ 0

/-! ## The first entry for an inode -/

/-- From `o` to `stop` there are entries for other inodes than `n`, each of its padded size. -/
inductive OthersUpTo (b : ℕ → UInt8) (n : ℤ) : ℕ → ℕ → Prop
  | nil (o : ℕ) : OthersUpTo b n o o
  | cons {o stop : ℕ} : toInt32 (word b o) ≠ n → OthersUpTo b n (o + paddedSpan b o) stop → OthersUpTo b n o stop

/-- The block begins with entries for other inodes, and the next one, at `o`, is for inode `n`. -/
structure EntryFor (b : ℕ → UInt8) (n : ℤ) (o : ℕ) : Prop where
  others : OthersUpTo b n 0 o
  lt : o < 1024
  inode : toInt32 (word b o) = n

section

variable (disk : Disk) (g : Globals) (stack : ℕ → UInt8) (s : ℕ × ℕ)

def IsDirAt : Prop := (inodeAt disk (slotPos disk g s)).isDir = true

/-- The first block of an inode, where the product gives its address. -/
def firstBlock : ℕ → UInt8 := fun i => disk (globalOffset g ((inodeAt disk (slotPos disk g s)).iBlock 0) + i)

/-- The buffer after the first block of the directory of step `s` has been read. -/
def bufferAt : ℕ → UInt8 := dirBuffer disk g stack (inodeAt disk (slotPos disk g s)).toInode

end

/-- Inode `idx` of group 0 is a directory whose first block has an entry for inode `n`, at `o`, and no
inode in front of it is one. -/
structure FirstMatch (img : Image) (n : ℤ) (idx o : ℕ) : Prop where
  slot : img.Slot (0, idx)
  dir : IsDirAt img.disk img.globals (0, idx)
  entry : EntryFor (firstBlock img.disk img.globals (0, idx)) n o
  first : ∀ i < idx, IsDirAt img.disk img.globals (0, i) →
    ∀ o, ¬ EntryFor (firstBlock img.disk img.globals (0, i)) n o

/-- The name of an entry without what follows a `NUL` in it. -/
def textOf (entry : List UInt8) : List UInt8 := entry.takeWhile fun c => c ≠ 0

/-- The text of an entry is the beginning of `name`, and the buffer holds the rest of `name` and a
terminator behind the bytes of the entry.  Where the entry is longer than its text, `name` has zeros. -/
structure Completes (entry inodeName name : List UInt8) : Prop where
  text : textOf entry <+: name
  zeros : ∀ i, (textOf entry).length ≤ i → i < entry.length → i < name.length → name[i]? = some 0
  rest : ∀ i, entry.length ≤ i → i < name.length → inodeName[i]? = name[i]?
  terminator : entry.length ≤ name.length → inodeName[name.length]? = some 0

/-! ## The loop -/

/-- The search goes up to the first hit, or through all inodes. -/
theorem searchLoop_cases (hit : ℕ × ℕ → Option (List UInt8)) (l : List (ℕ × ℕ)) :
    (∃ k s name, l[k]? = some s ∧ hit s = some name ∧ (∀ t ∈ l.take k, hit t = none) ∧
        searchLoop hit l = ⟨l.take (k + 1), some name⟩) ∨
      (∀ t ∈ l, hit t = none) ∧ searchLoop hit l = ⟨l, none⟩ := by
  induction l with
  | nil => exact Or.inr ⟨fun t ht => absurd ht List.not_mem_nil, rfl⟩
  | cons s rest ih =>
    cases hs : hit s with
    | some name =>
      refine Or.inl ⟨0, s, name, rfl, hs, fun t ht => ?_, ?_⟩
      · rw [List.take_zero] at ht
        exact absurd ht List.not_mem_nil
      · simp only [searchLoop, hs]
        rfl
    | none =>
      rcases ih with ⟨k, t, name, hk, ht, hbefore, heq⟩ | ⟨hnone, heq⟩
      · refine Or.inl ⟨k + 1, t, name, hk, ht, ?_, ?_⟩
        · rw [List.take_succ_cons, List.forall_mem_cons]
          exact ⟨hs, hbefore⟩
        · simp only [searchLoop, hs, heq]
          rfl
      · refine Or.inr ⟨List.forall_mem_cons.2 ⟨hs, hnone⟩, ?_⟩
        simp only [searchLoop, hs, heq]

/-! ## The walk -/

section

variable {b b' : ℕ → UInt8} {n : ℤ} {o k : ℕ}

namespace OthersUpTo

theorem le (h : OthersUpTo b n k o) : k ≤ o := by
  induction h with
  | nil o => exact Nat.le_refl o
  | cons _ _ ih => omega

theorem four_dvd (h : OthersUpTo b n k o) (hk : 4 ∣ k) : 4 ∣ o := by
  induction h with
  | nil o => exact hk
  | cons _ _ ih => exact ih (Nat.dvd_add hk (four_dvd_paddedSpan b _))

theorem snoc (h : OthersUpTo b n k o) (hne : toInt32 (word b o) ≠ n) : OthersUpTo b n k (o + paddedSpan b o) := by
  induction h with
  | nil o => exact .cons hne (.nil _)
  | cons hother _ ih => exact .cons hother (ih hne)

/-- Behind an entry for another inode the next one follows. -/
theorem iff_of_ne (hne : toInt32 (word b k) ≠ n) :
    OthersUpTo b n k o ↔ o = k ∨ OthersUpTo b n (k + paddedSpan b k) o := by
  constructor
  · intro h
    cases h with
    | nil => exact Or.inl rfl
    | cons _ hrest => exact Or.inr hrest
  · rintro (rfl | hrest)
    · exact .nil o
    · exact .cons hne hrest

theorem eq_of_match (h : OthersUpTo b n k o) (hmatch : toInt32 (word b k) = n) : o = k := by
  cases h with
  | nil => rfl
  | cons hne _ => exact absurd hmatch hne

/-- One of two ends lies behind the other. -/
theorem total {o' : ℕ} (h : OthersUpTo b n k o) (h' : OthersUpTo b n k o') :
    OthersUpTo b n o o' ∨ OthersUpTo b n o' o := by
  induction h with
  | nil o => exact Or.inl h'
  | cons hne hrest ih =>
    cases h' with
    | nil => exact Or.inr (.cons hne hrest)
    | cons _ hrest' => exact ih hrest'

end OthersUpTo

theorem word_congr (h : ∀ i < 1024, b i = b' i) (ho : o + 4 ≤ 1024) : word b o = word b' o := by
  unfold word
  rw [h o (by omega), h (o + 1) (by omega), h (o + 2) (by omega), h (o + 3) (by omega)]

theorem nameLen_congr (h : ∀ i < 1024, b i = b' i) (ho : o + 6 < 1024) : nameLen b o = nameLen b' o := by
  unfold nameLen
  rw [h (o + 6) ho]

theorem paddedSpan_congr (h : ∀ i < 1024, b i = b' i) (ho : o + 6 < 1024) : paddedSpan b o = paddedSpan b' o := by
  unfold paddedSpan entrySpan
  rw [nameLen_congr h ho]

/-- Only bytes of the block matter. -/
theorem OthersUpTo.congr (h : ∀ i < 1024, b i = b' i) (ho : o < 1024) (hb : OthersUpTo b n k o) :
    OthersUpTo b' n k o := by
  induction hb with
  | nil o => exact .nil o
  | cons hne hrest ih =>
    have hspan := paddedSpan_ge b
    have hle := hrest.le
    rename_i o' _
    have hin : o' + 12 ≤ 1024 := by
      have := hspan o'
      omega
    rw [word_congr h (by omega)] at hne
    rw [paddedSpan_congr h (by omega)] at ih
    exact .cons hne (ih ho)

theorem EntryFor.congr (h : ∀ i < 1024, b i = b' i) (hb : EntryFor b n o) : EntryFor b' n o := by
  have hdvd := hb.others.four_dvd (Nat.dvd_zero 4)
  have hlt := hb.lt
  refine ⟨hb.others.congr h hlt, hlt, ?_⟩
  rw [← word_congr h (by omega)]
  exact hb.inode

/-- The walk comes to the first entry for the inode. -/
theorem walk_eq_some_iff :
    walk b n k = some o ↔ OthersUpTo b n k o ∧ o < 1024 ∧ toInt32 (word b o) = n := by
  induction k using walk.induct b n with
  | case1 k hlt hmatch =>
    rw [walk, if_pos hlt, if_pos hmatch, Option.some.injEq]
    constructor
    · rintro rfl
      exact ⟨.nil k, hlt, hmatch⟩
    · rintro ⟨hothers, -, -⟩
      exact (hothers.eq_of_match hmatch).symm
  | case2 k hlt hne ih =>
    rw [walk, if_pos hlt, if_neg hne, ih, OthersUpTo.iff_of_ne hne, nextCount_eq]
    constructor
    · rintro ⟨hrest, hin⟩
      exact ⟨Or.inr hrest, hin⟩
    · rintro ⟨rfl | hrest, hin⟩
      · exact absurd hin.2 hne
      · exact ⟨hrest, hin⟩
  | case3 k hge =>
    rw [walk, if_neg hge]
    refine iff_of_false (fun h => nomatch h) ?_
    rintro ⟨hothers, hlt, -⟩
    have hle := hothers.le
    omega

end

/-! ## When a name is found -/

variable {img : Image} {stack : ℕ → UInt8} {n : ℤ} {inodeName : List UInt8}

theorem firstBlock_eq_bufferAt (disk : Disk) (g : Globals) (stack : ℕ → UInt8) (s : ℕ × ℕ) :
    ∀ i < 1024, firstBlock disk g s i = bufferAt disk g stack s i := by
  intro i hi
  unfold firstBlock bufferAt dirBuffer
  rw [if_pos hi]

theorem walk_bufferAt_eq_some_iff (stack : ℕ → UInt8) {disk : Disk} {g : Globals} {s : ℕ × ℕ} {o : ℕ} :
    walk (bufferAt disk g stack s) n 0 = some o ↔ EntryFor (firstBlock disk g s) n o := by
  have hsame := firstBlock_eq_bufferAt disk g stack s
  rw [walk_eq_some_iff]
  constructor
  · rintro ⟨hothers, hlt, hmatch⟩
    exact EntryFor.congr (fun i hi => (hsame i hi).symm) ⟨hothers, hlt, hmatch⟩
  · intro h
    have hbuffer := h.congr hsame
    exact ⟨hbuffer.others, hbuffer.lt, hbuffer.inode⟩

/-- The search stops at the directories whose first block has an entry for the inode. -/
theorem hit_eq_some_iff {disk : Disk} {g : Globals} {s : ℕ × ℕ} {name : List UInt8} :
    hit disk g stack n s = some name ↔ IsDirAt disk g s ∧
      ∃ o, EntryFor (firstBlock disk g s) n o ∧ entryName (bufferAt disk g stack s) o = name := by
  simp only [← walk_bufferAt_eq_some_iff stack]
  unfold hit IsDirAt bufferAt
  simp only
  split_ifs with hdir
  · rw [Option.map_eq_some_iff]
    exact (and_iff_right hdir).symm
  · exact iff_of_false (fun h => nomatch h) fun h => hdir h.1

theorem hit_eq_none_iff {disk : Disk} {g : Globals} {s : ℕ × ℕ} : hit disk g stack n s = none ↔
    (IsDirAt disk g s → ∀ o, ¬ EntryFor (firstBlock disk g s) n o) := by
  rw [Option.eq_none_iff_forall_ne_some]
  simp only [ne_eq, hit_eq_some_iff]
  constructor
  · intro h hdir o hentry
    exact h _ ⟨hdir, o, hentry, rfl⟩
  · rintro h name ⟨hdir, o, hentry, -⟩
    exact h hdir o hentry

/-- There is one step more for each table than it has slots. -/
theorem searched_eq (img : Image) : searched img.disk img.globals =
    steps (numGroup img.globals img.super).toNat (img.super.sInodesPerGroup + 1) := by
  have hcount : ((img.super.sInodesPerGroup : ℤ) + 1).toNat = img.super.sInodesPerGroup + 1 := by omega
  unfold searched
  rw [Image.readSuperBlock_eq]
  simp only [Image.toInt32_inodesPerGroup, hcount]

/-- The first steps of the search are those of group 0. -/
theorem getElem?_searched {i : ℕ} (hgroups : 0 < (numGroup img.globals img.super).toNat)
    (hi : i ≤ img.super.sInodesPerGroup) : (searched img.disk img.globals)[i]? = some (0, i) := by
  have hget := getElem?_steps hgroups (Nat.lt_succ_of_le hi)
  rwa [Nat.zero_mul, Nat.zero_add, ← searched_eq] at hget

theorem not_slot_end (img : Image) : ¬ img.Slot (0, img.super.sInodesPerGroup) :=
  fun h => Nat.lt_irrefl _ h.2

/-- A search that reads only slots stops at a first match in group 0. -/
theorem exists_firstMatch
    (hslots : ∀ s ∈ (search img.disk img.globals stack n).reads, img.Slot s)
    (hgroups : 0 < (numGroup img.globals img.super).toNat) : ∃ idx o, FirstMatch img n idx o := by
  unfold search at hslots
  have hend := getElem?_searched hgroups (Nat.le_refl img.super.sInodesPerGroup)
  rcases searchLoop_cases (hit img.disk img.globals stack n) (searched img.disk img.globals) with
    ⟨k, s, name, hk, hs, hbefore, heq⟩ | ⟨-, heq⟩
  · simp only [heq] at hslots
    have hlt : k < img.super.sInodesPerGroup := by
      by_contra hge
      -- The step behind the table of group 0 has been made.
      have hread : (0, img.super.sInodesPerGroup) ∈ (searched img.disk img.globals).take (k + 1) := by
        refine List.mem_of_getElem? (i := img.super.sInodesPerGroup) ?_
        rw [List.getElem?_take_of_lt (by omega), hend]
      exact not_slot_end img (hslots _ hread)
    have hk' := getElem?_searched hgroups hlt.le
    obtain rfl : s = (0, k) := Option.some.inj (hk.symm.trans hk')
    obtain ⟨hdir, o, hentry, -⟩ := hit_eq_some_iff.1 hs
    refine ⟨k, o, ⟨hgroups, hlt⟩, hdir, hentry, fun i hi => hit_eq_none_iff.1 (hbefore _ ?_)⟩
    refine List.mem_of_getElem? (i := i) ?_
    rw [List.getElem?_take_of_lt hi, getElem?_searched hgroups (by omega)]
  · simp only [heq] at hslots
    exact absurd (hslots _ (List.mem_of_getElem? hend)) (not_slot_end img)

/-- At a first match the search has read only slots, and has its name. -/
theorem FirstMatch.search_slots {idx o : ℕ} (h : FirstMatch img n idx o) (stack : ℕ → UInt8) :
    (∀ s ∈ (search img.disk img.globals stack n).reads, img.Slot s) ∧
      (search img.disk img.globals stack n).name =
        some (entryName (bufferAt img.disk img.globals stack (0, idx)) o) := by
  have hstops : hit img.disk img.globals stack n (0, idx) =
      some (entryName (bufferAt img.disk img.globals stack (0, idx)) o) :=
    hit_eq_some_iff.2 ⟨h.dir, o, h.entry, rfl⟩
  unfold search
  have hgroups := h.slot.1
  have hidx := getElem?_searched hgroups (Nat.le_of_lt h.slot.2)
  rcases searchLoop_cases (hit img.disk img.globals stack n) (searched img.disk img.globals) with
    ⟨k, s, name', hk, hs, hbefore, heq⟩ | ⟨hnone, -⟩
  · have hle : idx ≤ k := by
      by_contra hlt
      have hk' := getElem?_searched hgroups (show k ≤ img.super.sInodesPerGroup from by
        have := h.slot.2
        omega)
      obtain rfl : s = (0, k) := Option.some.inj (hk.symm.trans hk')
      rw [hit_eq_none_iff.2 (h.first k (by omega))] at hs
      cases hs
    have hge : ¬ idx < k := by
      intro hlt
      have hmem : (0, idx) ∈ (searched img.disk img.globals).take k := by
        refine List.mem_of_getElem? (i := idx) ?_
        rw [List.getElem?_take_of_lt hlt, hidx]
      have hno := hbefore _ hmem
      rw [hstops] at hno
      cases hno
    obtain rfl : idx = k := by omega
    obtain rfl : s = (0, idx) := Option.some.inj (hk.symm.trans hidx)
    simp only [heq]
    refine ⟨fun t ht => ?_, hs.symm.trans hstops⟩
    obtain ⟨j, hj⟩ := List.mem_iff_getElem?.1 ht
    have hjlt : j < idx + 1 := by
      have := (List.getElem?_eq_some_iff.1 hj).1
      rw [List.length_take] at this
      omega
    rw [List.getElem?_take_of_lt hjlt, getElem?_searched hgroups (by have := h.slot.2; omega)] at hj
    obtain rfl := Option.some.inj hj
    exact ⟨hgroups, by have := h.slot.2; simp only; omega⟩
  · have hno := hnone _ (List.mem_of_getElem? hidx)
    rw [hstops] at hno
    cases hno

/-! ## What is in the buffer -/

/-- The bytes that are copied: the text, then zeros. -/
theorem getElem?_copied {entry : List UInt8} {i : ℕ} (hi : i < entry.length) :
    (copied entry)[i]? = if i < (textOf entry).length then (textOf entry)[i]? else some 0 := by
  have htext : (textOf entry).length ≤ entry.length := (List.takeWhile_prefix _).length_le
  show (textOf entry ++ List.replicate (entry.length - (textOf entry).length) 0)[i]? = _
  split_ifs with hlt
  · exact List.getElem?_append_left hlt
  · rw [List.getElem?_append_right (by omega), List.getElem?_replicate, if_pos (by omega)]

theorem length_copied (entry : List UInt8) : (copied entry).length = entry.length := by
  have htext : (textOf entry).length ≤ entry.length := (List.takeWhile_prefix _).length_le
  show (textOf entry ++ List.replicate (entry.length - (textOf entry).length) 0).length = _
  rw [List.length_append, List.length_replicate]
  omega

theorem zero_not_mem_textOf (entry : List UInt8) : 0 ∉ textOf entry := by
  intro h
  have hne := List.mem_takeWhile_imp h
  exact absurd rfl (of_decide_eq_true hne)

/-- The buffer after the copy. -/
theorem getElem?_copied_append {entry : List UInt8} {i : ℕ} :
    (copied entry ++ inodeName.drop entry.length)[i]? =
      if i < entry.length then if i < (textOf entry).length then (textOf entry)[i]? else some 0
      else inodeName[i]? := by
  split_ifs with hlt htext
  · rw [List.getElem?_append_left (by rwa [length_copied]), getElem?_copied hlt, if_pos htext]
  · rw [List.getElem?_append_left (by rwa [length_copied]), getElem?_copied hlt, if_neg htext]
  · rw [List.getElem?_append_right (by rw [length_copied]; omega), length_copied, List.getElem?_drop]
    congr 1
    omega

theorem holds_iff_getElem? {buffer name : List UInt8} : Holds buffer name ↔
    (∀ i < name.length, buffer[i]? = name[i]?) ∧ buffer[name.length]? = some 0 := by
  refine and_congr_left fun _ => ⟨fun h i hi => ?_, fun h => ?_⟩
  · rw [← h, List.getElem?_take_of_lt hi]
  · refine List.ext_getElem? fun i => ?_
    rcases Nat.lt_or_ge i name.length with hlt | hge
    · rw [List.getElem?_take_of_lt hlt, h i hlt]
    · rw [List.getElem?_take_eq_none hge, List.getElem?_eq_none hge]

/-- What the copy leaves holds a name if and only if the buffer completes the entry to it. -/
theorem holds_copied_iff {entry name : List UInt8} :
    Holds (copied entry ++ inodeName.drop entry.length) name ↔ Completes entry inodeName name := by
  have htext : (textOf entry).length ≤ entry.length := (List.takeWhile_prefix _).length_le
  rw [holds_iff_getElem?]
  simp only [getElem?_copied_append]
  constructor
  · rintro ⟨hname, hzero⟩
    have hle : (textOf entry).length ≤ name.length := by
      by_contra hlt
      -- The terminator would be a byte of the text.
      rw [if_pos (by omega), if_pos (by omega)] at hzero
      exact zero_not_mem_textOf entry (List.mem_of_getElem? hzero)
    refine ⟨?_, fun i hge hlt hi => ?_, fun i hge hi => ?_, fun hge => ?_⟩
    · rw [List.prefix_iff_getElem?]
      intro i hi
      have hbyte := hname i (by omega)
      rw [if_pos (by omega), if_pos hi] at hbyte
      rw [← hbyte]
      exact List.getElem?_eq_getElem hi
    · have hbyte := hname i hi
      rw [if_pos hlt, if_neg (by omega)] at hbyte
      exact hbyte.symm
    · have hbyte := hname i hi
      rwa [if_neg (by omega)] at hbyte
    · rwa [if_neg (by omega)] at hzero
  · intro h
    have hle := h.text.length_le
    refine ⟨fun i hi => ?_, ?_⟩
    · split_ifs with hin hchar
      · rw [List.prefix_iff_getElem?.1 h.text i hchar]
        exact List.getElem?_eq_getElem hchar
      · exact (h.zeros i (by omega) hin hi).symm
      · exact h.rest i (by omega) hi
    · split_ifs with hin hchar
      · omega
      · rfl
      · exact h.terminator (by omega)

theorem nameSearch_found (disk : Disk) (g : Globals) (stack : ℕ → UInt8) (n : ℤ)
    (inodeName : List UInt8) :
    (nameSearch disk g stack n inodeName).found = search disk g stack n := by
  rw [nameSearch]

theorem nameSearch_inodeName {disk : Disk} {g : Globals} {hitName : List UInt8}
    (h : (search disk g stack n).name = some hitName) :
    (nameSearch disk g stack n inodeName).inodeName =
      copied hitName ++ inodeName.drop hitName.length := by
  rw [nameSearch, h]

/-- At a first match, `name_search` does what it should if and only if the buffer completes its name. -/
theorem FirstMatch.findsName_iff_completes {idx o : ℕ} (h : FirstMatch img n idx o) :
    FindsName img stack n inodeName ↔ ∃ name, img.IsName n name ∧
      Completes (entryName (bufferAt img.disk img.globals stack (0, idx)) o) inodeName name := by
  obtain ⟨hslots, hsome⟩ := h.search_slots stack
  constructor
  · intro hfinds
    have hname : ∃ name, img.IsName n name := by
      by_contra hno
      exact absurd rfl (hfinds.missing (not_exists.1 hno))
    obtain ⟨name, hisName, hholds⟩ := hfinds.found hname
    rw [nameSearch_inodeName hsome] at hholds
    exact ⟨name, hisName, holds_copied_iff.1 hholds⟩
  · rintro ⟨name, hname, hcompletes⟩
    refine ⟨?_, fun _ => ⟨name, hname, ?_⟩, fun hnone => absurd hname (hnone name)⟩
    · rw [nameSearch_found]
      exact hslots
    · rw [nameSearch_inodeName hsome]
      exact holds_copied_iff.2 hcompletes

/-- When it is the only name of the inode, and has no `NUL` in it, this is one byte of the buffer. -/
theorem FirstMatch.findsName_iff_terminated {idx o : ℕ} {entry : List UInt8} (h : FirstMatch img n idx o)
    (hentry : entryName (bufferAt img.disk img.globals stack (0, idx)) o = entry) (hzero : 0 ∉ entry)
    (honly : ∀ name, img.IsName n name ↔ name = entry) :
    FindsName img stack n inodeName ↔ inodeName[entry.length]? = some 0 := by
  have htext : textOf entry = entry := by
    apply List.takeWhile_eq_self_iff.2
    intro c hc
    rw [decide_eq_true_eq]
    rintro rfl
    exact hzero hc
  rw [h.findsName_iff_completes, hentry]
  simp only [honly, exists_eq_left]
  constructor
  · intro hcompletes
    exact hcompletes.terminator (Nat.le_refl _)
  · intro hbyte
    refine ⟨?_, fun i hge hlt _ => ?_, fun i hge hlt => ?_, fun _ => hbyte⟩
    · exact List.takeWhile_prefix _
    · rw [htext] at hge
      omega
    · omega

/-- For every image with blocks of 1024 bytes, every inode number and every content of the buffer:
`name_search` does what it should if and only if a directory in a slot of group 0 has an entry for the inode
in its first block, and the buffer completes the name of the first such entry to a name of the inode. -/
theorem findsName_iff (img : Image) (stack : ℕ → UInt8) (n : ℤ) (inodeName : List UInt8) :
    FindsName img stack n inodeName ↔ ∃ idx o, FirstMatch img n idx o ∧
      ∃ name, img.IsName n name ∧
        Completes (entryName (bufferAt img.disk img.globals stack (0, idx)) o) inodeName name := by
  constructor
  · intro h
    have hgroups : 0 < (numGroup img.globals img.super).toNat := by
      by_contra hnone
      -- Without a group there is no name, and the function returns zero.
      have hno : ∀ name, ¬ img.IsName n name := by
        rintro name ⟨s, hs, -⟩
        exact hnone (Nat.lt_of_le_of_lt (Nat.zero_le _) hs.1)
      exact absurd rfl (h.missing hno)
    have hslots := h.slots
    rw [nameSearch_found] at hslots
    obtain ⟨idx, o, hfirst⟩ := exists_firstMatch hslots hgroups
    exact ⟨idx, o, hfirst, hfirst.findsName_iff_completes.1 h⟩
  · rintro ⟨idx, o, hfirst, hcompletes⟩
    exact hfirst.findsName_iff_completes.2 hcompletes

/-- The directory is inode 2 of one group; behind `.` and `..` it has `a.jpg` for inode 12. -/
def smallDisk : Disk :=
  diskOf (superFields [0, 0x20] ++
    [(2056, 5), (5248, 0xED), (5249, 0x41), (5253, 4), (5288, 20),
      (20480, 2), (20484, 12), (20486, 1), (20488, 0x2e),
      (20492, 2), (20496, 12), (20498, 2), (20500, 0x2e), (20501, 0x2e),
      (20504, 12), (20508, 0xE8), (20509, 3), (20510, 5),
      (20512, 0x61), (20513, 0x2e), (20514, 0x6a), (20515, 0x70), (20516, 0x67)])

def smallImage : Image where
  disk := smallDisk
  globals := ⟨1024, 8, 1, 8192, 1, 8⟩
  accepted := rfl
  logBlockSize := rfl
  blocksPerGroup_le := Nat.le_refl 8192
  inodesPerGroup_pos := of_decide_eq_true rfl
  inodesPerGroup_le := of_decide_eq_true rfl
  entrySize_ge := Nat.le_refl 128

theorem smallImage_isName : smallImage.IsName 12 [0x61, 0x2e, 0x6a, 0x70, 0x67] := by
  refine ⟨(0, 1), ⟨by decide, by decide⟩, by decide, 0, by decide, 24, ?_, by decide, by decide, by decide⟩
  have hdot : EntryAt (smallImage.dataBlock (0, 1) 0) 12 := EntryAt.first.next (by decide)
  exact hdot.next (by decide)

theorem smallImage_firstMatch : FirstMatch smallImage 12 1 24 := by
  refine ⟨⟨by decide, by decide⟩, by unfold IsDirAt; decide, ⟨?_, by decide, by decide⟩, fun i hi hdir => ?_⟩
  · generalize hb : firstBlock smallImage.disk smallImage.globals (0, 1) = b
    have hone : 0 + paddedSpan b 0 = 12 := by
      rw [← hb]
      decide
    have htwo : 12 + paddedSpan b 12 = 24 := by
      rw [← hb]
      decide
    refine .cons (by rw [← hb]; decide) ?_
    rw [hone]
    refine .cons (by rw [← hb]; decide) ?_
    rw [htwo]
    exact .nil 24
  · obtain rfl : i = 0 := Nat.lt_one_iff.1 hi
    have hfile : ¬ IsDirAt smallImage.disk smallImage.globals (0, 0) := by
      unfold IsDirAt
      decide
    exact absurd hdir hfile

/-- In a buffer full of other bytes the name is not terminated. -/
theorem not_findsName_dirty :
    ¬ FindsName smallImage (fun _ => 0) 12 (List.replicate 255 0xff) := by
  intro h
  have hsome := (smallImage_firstMatch.search_slots fun _ => 0).2
  obtain ⟨name, -, hholds⟩ := h.found ⟨_, smallImage_isName⟩
  rw [nameSearch_inodeName hsome] at hholds
  have hzero := List.mem_of_getElem? hholds.2
  exact absurd hzero (by decide)

end SystemsProjects.Ext2
