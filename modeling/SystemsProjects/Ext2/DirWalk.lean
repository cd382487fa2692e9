import SystemsProjects.Ext2.NameSearch

/-!
# The walk over a directory block

The inner loop of `name_search` in `P7/runscan.c`, over the values that `byte_count` takes.  The step is
computed from `name_len`: a length that is a multiple of 4, other than 4, is taken for one that needs four
bytes more.  `walks_entries_iff` says for which blocks the values are the offsets of the entries, and
`walksInBuffer_iff` for which contents of the directories the loop stays in its buffer of 1024 bytes.
-/

namespace SystemsProjects.Ext2

open MachineInt Rounds

/-! ## The values of `byte_count` -/

section

variable (b : ℕ → UInt8)

/-- The values of `byte_count` for which the body of the loop runs, from `o` on. -/
def byteCounts (n : ℤ) (o : ℕ) : List ℕ :=
  if o < 1024 then o :: if toInt32 (word b o) = n then [] else byteCounts n (nextCount b o) else []
termination_by 1024 - o
decreasing_by
  have hlt := lt_nextCount b o
  omega

/-- The entries at the offsets `starts` lie back to back from `o` to `stop`. -/
inductive LaidOut : ℕ → List ℕ → ℕ → Prop
  | nil (o : ℕ) : LaidOut o [] o
  | cons {o stop : ℕ} {starts : List ℕ} : 1 ≤ nameLen b o → LaidOut (o + entrySpan b o) starts stop →
      LaidOut o (o :: starts) stop

/-- The entries up to the first one for inode `n`. -/
def upToMatch (n : ℤ) : List ℕ → List ℕ
  | [] => []
  | o :: starts => o :: if toInt32 (word b o) = n then [] else upToMatch n starts

/-- Inside the sequence of entries, the loop for inode `n` looks at the entries up to the first one for
`n`, and at nothing else. -/
def WalksEntries (n : ℤ) (starts : List ℕ) (stop : ℕ) : Prop :=
  (byteCounts b n 0).filter (fun o => o < stop) = upToMatch b n starts

end

variable {b : ℕ → UInt8} {n : ℤ}

/-! ## Every entry is looked at -/

theorem nameLen_lt (b : ℕ → UInt8) (o : ℕ) : nameLen b o < 256 := (b (o + 6)).toNat_lt

theorem le_of_mem_byteCounts {o k : ℕ} (h : k ∈ byteCounts b n o) : o ≤ k := by
  induction o using walk.induct b n with
  | case1 o hlt hmatch =>
    rw [byteCounts, if_pos hlt, if_pos hmatch, List.mem_singleton] at h
    exact h.ge
  | case2 o hlt hne ih =>
    rw [byteCounts, if_pos hlt, if_neg hne, List.mem_cons] at h
    have hstep := lt_nextCount b o
    rcases h with rfl | h
    · exact Nat.le_refl k
    · have hle := ih h
      omega
  | case3 o hge =>
    rw [byteCounts, if_neg hge] at h
    cases h

theorem filter_byteCounts_of_le {o stop : ℕ} (h : stop ≤ o) :
    (byteCounts b n o).filter (fun k => k < stop) = [] := by
  rw [List.filter_eq_nil_iff]
  intro k hk
  have hle := le_of_mem_byteCounts hk
  rw [decide_eq_true_eq]
  omega

theorem filter_cons_of_lt {o stop : ℕ} (h : o < stop) (l : List ℕ) :
    (o :: l).filter (fun k => k < stop) = o :: l.filter fun k => k < stop :=
  List.filter_cons_of_pos (decide_eq_true h)

/-- The step is right for the lengths that are not a multiple of 4, and for 4. -/
theorem nextCount_eq_entrySpan {o : ℕ} (h : nameLen b o % 4 ≠ 0 ∨ nameLen b o = 4) :
    nextCount b o = o + entrySpan b o := by
  rw [nextCount_eq]
  unfold paddedSpan
  rw [if_neg (by omega)]

/-- For the others it is four bytes too long. -/
theorem nextCount_eq_add_four {o : ℕ} (h : ¬ (nameLen b o % 4 ≠ 0 ∨ nameLen b o = 4)) :
    nextCount b o = o + entrySpan b o + 4 := by
  rw [nextCount_eq]
  unfold paddedSpan
  rw [if_pos (by omega), Nat.add_assoc]

theorem entrySpan_ge {o : ℕ} (h : 1 ≤ nameLen b o) : 12 ≤ entrySpan b o := by
  unfold entrySpan
  omega

theorem le_nextCount (b : ℕ → UInt8) (o : ℕ) : o + entrySpan b o ≤ nextCount b o := by
  by_cases h : nameLen b o % 4 ≠ 0 ∨ nameLen b o = 4
  · exact (nextCount_eq_entrySpan h).ge
  · rw [nextCount_eq_add_four h]
    omega

theorem LaidOut.le {o stop : ℕ} {starts : List ℕ} (h : LaidOut b o starts stop) : o ≤ stop := by
  induction h with
  | nil o => exact Nat.le_refl o
  | cons _ _ ih => omega

/-- The first entry of a sequence that is not empty starts where the sequence does. -/
theorem LaidOut.cases {o stop : ℕ} {starts : List ℕ} (h : LaidOut b o starts stop) :
    starts = [] ∧ o = stop ∨ (∃ rest, starts = o :: rest) ∧ o + 12 ≤ stop := by
  cases h with
  | nil => exact Or.inl ⟨rfl, rfl⟩
  | cons hlen hrest =>
    have hspan := entrySpan_ge hlen
    have hle := hrest.le
    exact Or.inr ⟨⟨_, rfl⟩, by omega⟩

/-- From an entry on the loop looks at the entries up to a match, if and only if it makes the right step
from each of them but the last. -/
theorem LaidOut.filter_byteCounts_iff {o stop : ℕ} {starts : List ℕ} (h : LaidOut b o starts stop)
    (hstop : stop ≤ 1024) :
    (byteCounts b n o).filter (fun k => k < stop) = upToMatch b n starts ↔
      ∀ k ∈ (upToMatch b n starts).dropLast, nameLen b k % 4 ≠ 0 ∨ nameLen b k = 4 := by
  induction h with
  | nil o =>
    rw [filter_byteCounts_of_le (Nat.le_refl o)]
    exact ⟨fun _ k hk => absurd hk List.not_mem_nil, fun _ => rfl⟩
  | @cons o stop starts hlen hrest ih =>
    have hspan := entrySpan_ge hlen
    have hle := hrest.le
    have hin : o < stop := by omega
    rw [byteCounts, if_pos (by omega), filter_cons_of_lt hin, upToMatch]
    by_cases hmatch : toInt32 (word b o) = n
    · rw [if_pos hmatch, if_pos hmatch]
      exact ⟨fun _ k hk => absurd hk List.not_mem_nil, fun _ => rfl⟩
    rw [if_neg hmatch, if_neg hmatch, List.cons_inj_right]
    rcases hrest.cases with ⟨rfl, hend⟩ | ⟨⟨rest, rfl⟩, hnext⟩
    · -- The last entry: a step that is too long is made behind the sequence.
      have hbehind : stop ≤ nextCount b o := hend ▸ le_nextCount b o
      rw [filter_byteCounts_of_le hbehind]
      exact ⟨fun _ k hk => absurd hk List.not_mem_nil, fun _ => rfl⟩
    · have hdrop : (o :: upToMatch b n ((o + entrySpan b o) :: rest)).dropLast =
          o :: (upToMatch b n ((o + entrySpan b o) :: rest)).dropLast := by
        rw [upToMatch, List.dropLast_cons_of_ne_nil (List.cons_ne_nil _ _)]
      rw [hdrop, List.forall_mem_cons]
      by_cases hright : nameLen b o % 4 ≠ 0 ∨ nameLen b o = 4
      · rw [nextCount_eq_entrySpan hright, ih hstop]
        exact ⟨fun h => ⟨hright, h⟩, fun h => h.2⟩
      · -- The loop goes on four bytes behind the start of the next entry.
        refine iff_of_false (fun heq => ?_) fun h => hright h.1
        have hshift : o + entrySpan b o + 4 < stop := by omega
        rw [nextCount_eq_add_four hright, byteCounts, if_pos (by omega), filter_cons_of_lt hshift,
          upToMatch] at heq
        have hhead := (List.cons.inj heq).1
        omega

/-- For every block that begins with entries laid back to back, and every inode number: the values of
`byte_count` are the offsets of the entries up to a match if and only if each of these, but the last, has a
name of 4 bytes or of a length that is not a multiple of 4. -/
theorem walks_entries_iff (b : ℕ → UInt8) (n : ℤ) {starts : List ℕ} {stop : ℕ}
    (h : LaidOut b 0 starts stop) (hstop : stop ≤ 1024) :
    WalksEntries b n starts stop ↔
      ∀ o ∈ (upToMatch b n starts).dropLast, nameLen b o % 4 ≠ 0 ∨ nameLen b o = 4 :=
  h.filter_byteCounts_iff hstop

/-- A name of 8 bytes, and behind it one of 5 bytes for inode 12. -/
def twoEntries : ℕ → UInt8 := diskOf [(0, 11), (6, 8), (16, 12), (22, 5)]

theorem twoEntries_laidOut : LaidOut twoEntries 0 [0, 16] 32 :=
  .cons (by decide) (.cons (by decide) (.nil 32))

/-- The first one is followed by the other only if the step from it is right. -/
theorem walks_entries_iff_two : LaidOut twoEntries 0 [0, 16] 32 ∧ 32 ≤ 1024 ∧
    (WalksEntries twoEntries 12 [0, 16] 32 ↔ ∀ o ∈ (upToMatch twoEntries 12 [0, 16]).dropLast,
      nameLen twoEntries o % 4 ≠ 0 ∨ nameLen twoEntries o = 4) :=
  ⟨twoEntries_laidOut, by decide, walks_entries_iff twoEntries 12 twoEntries_laidOut (by decide)⟩

/-- From the name of 8 bytes the loop goes on at offset 20, and does not see inode 12. -/
theorem not_walksEntries_eight : LaidOut twoEntries 0 [0, 16] 32 ∧
    ¬ WalksEntries twoEntries 12 [0, 16] 32 := by
  refine ⟨twoEntries_laidOut, fun h => ?_⟩
  unfold WalksEntries at h
  have hstep : nextCount twoEntries 0 = 20 := by decide
  rw [byteCounts, if_pos (by decide), if_neg (by decide), hstep, byteCounts, if_pos (by decide),
    filter_cons_of_lt (by decide), filter_cons_of_lt (by decide)] at h
  have hsecond := congrArg (fun l => l[1]?) h
  exact absurd hsecond (by decide)

/-! ## The buffer -/

def EXT2_NAME_LEN : ℕ := 255

/-- What the walk for inode `n` reads into the buffer `b` and uses of it lies in its 1024 bytes: at every
value of `byte_count` the inode number and `name_len`, and at a match the name, which fits its destination. -/
structure InBuffer (g : Globals) (b : ℕ → UInt8) (n : ℤ) : Prop where
  read : g.blockSize ≤ 1024
  inode : ∀ o ∈ byteCounts b n 0, o + 4 ≤ 1024
  length : ∀ o ∈ byteCounts b n 0, o + 6 < 1024
  name : ∀ o ∈ byteCounts b n 0, toInt32 (word b o) = n → o + 8 + nameLen b o ≤ 1024
  copied : ∀ o ∈ byteCounts b n 0, toInt32 (word b o) = n → nameLen b o ≤ EXT2_NAME_LEN

/-- Entries for other inodes than `n` are followed by one, with its 8 bytes in the block, that is for `n` and
ends in the block, or that is for another inode too and with its padded size reaches the end of the block. -/
def EndsInside (b : ℕ → UInt8) (n : ℤ) : Prop :=
  ∃ o, OthersUpTo b n 0 o ∧ o + 8 ≤ 1024 ∧
    (toInt32 (word b o) = n ∧ o + entrySpan b o ≤ 1024 ∨
      toInt32 (word b o) ≠ n ∧ 1024 ≤ o + paddedSpan b o)

section

variable (disk : Disk) (g : Globals) (stack : ℕ → UInt8) (n : ℤ)

/-- In each directory at which it looks, `name_search` stays in its buffer. -/
def WalksInBuffer : Prop :=
  ∀ s ∈ (search disk g stack n).reads, IsDirAt disk g s → InBuffer g (bufferAt disk g stack s) n

/-- The slots of the inode tables, and the one behind each table. -/
def Searched (s : ℕ × ℕ) : Prop :=
  s.1 < numGroup g (readSuperBlock disk g) ∧ s.2 ≤ toInt32 (readSuperBlock disk g).sInodesPerGroup

/-- No directory in front of `s`, in the same table or one before, has an entry for inode `n` in its first
block. -/
def NoneBefore (s : ℕ × ℕ) : Prop :=
  ∀ t, Searched disk g t → t.1 < s.1 ∨ t.1 = s.1 ∧ t.2 < s.2 → IsDirAt disk g t →
    ∀ o, ¬ EntryFor (firstBlock disk g t) n o

end

/-- The values of `byte_count` are the offsets of the entries for other inodes, and of the next one. -/
theorem mem_byteCounts_iff {o k : ℕ} : o ∈ byteCounts b n k ↔ OthersUpTo b n k o ∧ o < 1024 := by
  induction k using walk.induct b n with
  | case1 k hlt hmatch =>
    rw [byteCounts, if_pos hlt, if_pos hmatch, List.mem_singleton]
    constructor
    · rintro rfl
      exact ⟨.nil o, hlt⟩
    · rintro ⟨hothers, -⟩
      exact hothers.eq_of_match hmatch
  | case2 k hlt hne ih =>
    rw [byteCounts, if_pos hlt, if_neg hne, List.mem_cons, ih, OthersUpTo.iff_of_ne hne, nextCount_eq]
    constructor
    · rintro (rfl | ⟨hrest, hin⟩)
      · exact ⟨Or.inl rfl, hlt⟩
      · exact ⟨Or.inr hrest, hin⟩
    · rintro ⟨rfl | hrest, hin⟩
      · exact Or.inl rfl
      · exact Or.inr ⟨hrest, hin⟩
  | case3 k hge =>
    rw [byteCounts, if_neg hge]
    refine iff_of_false List.not_mem_nil ?_
    rintro ⟨hothers, hlt⟩
    have hle := hothers.le
    omega

/-- The loop ends at an entry for `n`, or at one that reaches the end of the block. -/
theorem exists_last {k : ℕ} (hk : k < 1024) : ∃ o ∈ byteCounts b n k,
    toInt32 (word b o) = n ∨ toInt32 (word b o) ≠ n ∧ 1024 ≤ o + paddedSpan b o := by
  induction k using walk.induct b n with
  | case1 k hlt hmatch =>
    rw [byteCounts, if_pos hlt]
    exact ⟨k, List.mem_cons_self, Or.inl hmatch⟩
  | case2 k hlt hne ih =>
    rw [byteCounts, if_pos hlt, if_neg hne]
    rcases Nat.lt_or_ge (nextCount b k) 1024 with hnext | hnext
    · obtain ⟨o, ho, hlast⟩ := ih hnext
      exact ⟨o, List.mem_cons_of_mem k ho, hlast⟩
    · rw [nextCount_eq] at hnext
      exact ⟨k, List.mem_cons_self, Or.inr ⟨hne, hnext⟩⟩
  | case3 k hge => exact absurd hk hge

/-- An offset is a multiple of 4, so that the inode number always lies in the buffer; the other fields do if
the last entry is not at offset 1020. -/
theorem inBuffer_iff (g : Globals) (b : ℕ → UInt8) (n : ℤ) :
    InBuffer g b n ↔ g.blockSize ≤ 1024 ∧ EndsInside b n := by
  have hdvd : ∀ {o}, OthersUpTo b n 0 o → 4 ∣ o := fun h => h.four_dvd (Nat.dvd_zero 4)
  constructor
  · intro h
    refine ⟨h.read, ?_⟩
    obtain ⟨o, ho, hlast⟩ := exists_last (b := b) (n := n) (by decide : 0 < 1024)
    have hothers := (mem_byteCounts_iff.1 ho).1
    have hfour := hdvd hothers
    have hlength := h.length o ho
    refine ⟨o, hothers, by omega, ?_⟩
    rcases hlast with hmatch | hend
    · have hname := h.name o ho hmatch
      unfold entrySpan
      exact Or.inl ⟨hmatch, by omega⟩
    · exact Or.inr hend
  · rintro ⟨hread, o, hothers, hheader, hend⟩
    -- No entry that the loop looks at lies behind the last one.
    have hlast : ∀ o' ∈ byteCounts b n 0, o' ≤ o ∧ (toInt32 (word b o') = n → o' = o) := by
      intro o' ho'
      obtain ⟨hothers', hlt'⟩ := mem_byteCounts_iff.1 ho'
      rcases hothers.total hothers' with hbehind | hbefore
      · cases hbehind with
        | nil => exact ⟨Nat.le_refl _, fun _ => rfl⟩
        | cons hne hrest =>
          have hle := hrest.le
          rcases hend with ⟨hmatch, -⟩ | ⟨-, hend⟩
          · exact absurd hmatch hne
          · omega
      · exact ⟨hbefore.le, fun hmatch => (hbefore.eq_of_match hmatch).symm⟩
    refine ⟨hread, fun o' ho' => ?_, fun o' ho' => ?_, fun o' ho' hmatch => ?_, fun o' _ _ => ?_⟩
    · have hle := (hlast o' ho').1
      omega
    · have hle := (hlast o' ho').1
      omega
    · obtain rfl := (hlast o' ho').2 hmatch
      rcases hend with ⟨-, hend⟩ | ⟨hne, -⟩
      · unfold entrySpan at hend
        omega
      · exact absurd hmatch hne
    · have hbyte := nameLen_lt b o'
      unfold EXT2_NAME_LEN
      omega

/-- Only bytes of the block matter. -/
theorem EndsInside.congr {b' : ℕ → UInt8} (h : ∀ i < 1024, b i = b' i) (hb : EndsInside b n) :
    EndsInside b' n := by
  obtain ⟨o, hothers, hheader, hend⟩ := hb
  refine ⟨o, hothers.congr h (by omega), hheader, ?_⟩
  have hspan : entrySpan b o = entrySpan b' o := by
    unfold entrySpan
    rw [nameLen_congr h (by omega)]
  rw [← word_congr h (by omega), ← hspan, ← paddedSpan_congr h (by omega)]
  exact hend

theorem endsInside_bufferAt_iff (disk : Disk) (g : Globals) (stack : ℕ → UInt8) (s : ℕ × ℕ) :
    EndsInside (bufferAt disk g stack s) n ↔ EndsInside (firstBlock disk g s) n := by
  have hsame := firstBlock_eq_bufferAt disk g stack s
  exact ⟨fun h => h.congr fun i hi => (hsame i hi).symm, fun h => h.congr hsame⟩

/-- An inode is read if the search stops at none before. -/
theorem mem_reads_searchLoop (hit : ℕ × ℕ → Option (List UInt8)) (l : List (ℕ × ℕ)) (s : ℕ × ℕ) :
    s ∈ (searchLoop hit l).reads ↔ ∃ k, l[k]? = some s ∧ ∀ t ∈ l.take k, hit t = none := by
  rcases searchLoop_cases hit l with ⟨k, t, name, hk, ht, hbefore, heq⟩ | ⟨hnone, heq⟩
  · rw [heq, List.mem_iff_getElem?]
    constructor
    · rintro ⟨j, hj⟩
      have hjlt : j < k + 1 := by
        have hlen := (List.getElem?_eq_some_iff.1 hj).1
        rw [List.length_take] at hlen
        omega
      rw [List.getElem?_take_of_lt hjlt] at hj
      refine ⟨j, hj, fun u hu => hbefore u ?_⟩
      exact (List.take_prefix_take_left (by omega)).subset hu
    · rintro ⟨j, hj, hnone⟩
      have hjle : j < k + 1 := by
        by_contra hlt
        have hmem : t ∈ l.take j := by
          refine List.mem_of_getElem? (i := k) ?_
          rw [List.getElem?_take_of_lt (by omega), hk]
        rw [hnone t hmem] at ht
        cases ht
      exact ⟨j, by rw [List.getElem?_take_of_lt hjle, hj]⟩
  · rw [heq, List.mem_iff_getElem?]
    exact ⟨fun ⟨j, hj⟩ => ⟨j, hj, fun t ht => hnone t (List.mem_of_mem_take ht)⟩,
      fun ⟨j, hj, _⟩ => ⟨j, hj⟩⟩

variable {disk : Disk} {g : Globals} {stack : ℕ → UInt8}

/-- The inodes that are read are those in front of which there is no match. -/
theorem mem_reads_iff {s : ℕ × ℕ} : s ∈ (search disk g stack n).reads ↔
    Searched disk g s ∧ NoneBefore disk g n s := by
  unfold search searched
  simp only
  rw [mem_reads_searchLoop]
  have hgroups : ∀ x : ℕ, x < (numGroup g (readSuperBlock disk g)).toNat ↔
      (x : ℤ) < numGroup g (readSuperBlock disk g) := fun x => by omega
  have hslots : ∀ x : ℕ, x < (toInt32 (readSuperBlock disk g).sInodesPerGroup + 1).toNat ↔
      (x : ℤ) ≤ toInt32 (readSuperBlock disk g).sInodesPerGroup := fun x => by omega
  constructor
  · rintro ⟨k, hk, hnone⟩
    obtain ⟨hg, hi, rfl⟩ := exists_of_getElem?_steps hk
    refine ⟨⟨(hgroups _).1 hg, (hslots _).1 hi⟩, fun t ht hbefore => ?_⟩
    exact hit_eq_none_iff.1 (hnone t ((mem_take_steps hg hi).2 ⟨(hslots _).2 ht.2, hbefore⟩))
  · rintro ⟨hs, hnone⟩
    have hg := (hgroups _).2 hs.1
    have hi := (hslots _).2 hs.2
    refine ⟨_, getElem?_steps hg hi, fun t ht => hit_eq_none_iff.2 ?_⟩
    obtain ⟨hm, hbefore⟩ := (mem_take_steps hg hi).1 ht
    refine hnone t ⟨(hgroups _).1 ?_, (hslots _).1 hm⟩ hbefore
    omega

/-- The blocks of an accepted image fit the buffer only if they have 1024 bytes. -/
theorem blockSize_le_iff (h : ext2ReadInit disk = some g) :
    g.blockSize ≤ 1024 ↔ (superBlock disk BASE_OFFSET).sLogBlockSize = 0 := by
  have hsize := (accepted_of_ext2ReadInit h).blockSize
  constructor
  · intro hle
    by_contra hne
    have htwo : 2 ^ 1 ≤ 2 ^ (superBlock disk BASE_OFFSET).sLogBlockSize :=
      Nat.pow_le_pow_right (by decide) (Nat.pos_of_ne_zero hne)
    omega
  · intro hzero
    rw [hsize, hzero]
    decide

/-- For every accepted image and every inode number: `name_search` stays in its buffer if and only if, for
every directory in front of which there is none with an entry for the inode, blocks have 1024 bytes and the
first block ends inside. -/
theorem walksInBuffer_iff (stack : ℕ → UInt8) (n : ℤ) (h : ext2ReadInit disk = some g) :
    WalksInBuffer disk g stack n ↔
      ∀ s, Searched disk g s → NoneBefore disk g n s → IsDirAt disk g s →
        (superBlock disk BASE_OFFSET).sLogBlockSize = 0 ∧ EndsInside (firstBlock disk g s) n := by
  unfold WalksInBuffer
  simp only [mem_reads_iff, inBuffer_iff, blockSize_le_iff h, endsInside_bufferAt_iff, and_imp]

theorem walksInBuffer_iff_small : ext2ReadInit smallDisk = some smallImage.globals ∧
    (WalksInBuffer smallDisk smallImage.globals (fun _ => 0) 12 ↔
      ∀ s, Searched smallDisk smallImage.globals s → NoneBefore smallDisk smallImage.globals 12 s →
        IsDirAt smallDisk smallImage.globals s → (superBlock smallDisk BASE_OFFSET).sLogBlockSize = 0 ∧
          EndsInside (firstBlock smallDisk smallImage.globals s) 12) :=
  ⟨rfl, walksInBuffer_iff (fun _ => 0) 12 rfl⟩

/-- Zeros are taken for entries of 12 bytes. -/
theorem othersUpTo_zeros {start : ℕ} (hn : n ≠ 0) (hzero : ∀ i, start ≤ i → i < 1024 → b i = 0)
    (h : OthersUpTo b n 0 start) (k : ℕ) (hk : start + 12 * k ≤ 1020) : OthersUpTo b n 0 (start + 12 * k) := by
  induction k with
  | zero => exact h
  | succ k ih =>
    have hbyte : ∀ i, i < 8 → b (start + 12 * k + i) = 0 := fun i hi => hzero _ (by omega) (by omega)
    have hword : word b (start + 12 * k) = 0 := by
      unfold word
      have hfirst := hbyte 0 (by decide)
      rw [Nat.add_zero] at hfirst
      rw [hfirst, hbyte 1 (by decide), hbyte 2 (by decide), hbyte 3 (by decide)]
      rfl
    have hnext : start + 12 * k + paddedSpan b (start + 12 * k) = start + 12 * (k + 1) := by
      unfold paddedSpan entrySpan nameLen
      rw [hbyte 6 (by decide)]
      simp only [UInt8.toNat_zero]
      rw [if_pos (by decide)]
      omega
    rw [← hnext]
    refine (ih (by omega)).snoc ?_
    rw [hword]
    exact Ne.symm hn

/-- An image with one directory, inode 2, and in this only `.` and `..`. -/
def emptyDirDisk : Disk :=
  diskOf (superFields [0, 0x20] ++
    [(2056, 5), (5248, 0xED), (5249, 0x41), (5253, 4), (5288, 20),
      (20480, 2), (20484, 12), (20486, 1), (20488, 0x2e),
      (20492, 2), (20496, 0xF4), (20497, 3), (20498, 2), (20500, 0x2e), (20501, 0x2e)])

theorem diskOf_eq_zero {fields : List (ℕ × UInt8)} {n i : ℕ} (h : ∀ f ∈ fields, f.1 < n)
    (hi : n ≤ i) : diskOf fields i = 0 := by
  unfold diskOf
  have hnone : fields.lookup i = none := by
    rw [List.lookup_eq_none_iff]
    intro f hf
    have hlt := h f hf
    rw [bne_iff_ne]
    omega
  rw [hnone]
  rfl

/-- In a directory with only `.` and `..` the search for inode 12 reads `name_len` behind the buffer. -/
theorem not_walksInBuffer_emptyDir : ext2ReadInit emptyDirDisk = some smallImage.globals ∧
    ¬ WalksInBuffer emptyDirDisk smallImage.globals (fun _ => 0) 12 := by
  refine ⟨rfl, fun h => ?_⟩
  have hread : (0, 1) ∈ (search emptyDirDisk smallImage.globals (fun _ => 0) 12).reads := by
    rw [mem_reads_iff]
    refine ⟨⟨by decide, by decide⟩, fun t _ hbefore hdir => ?_⟩
    obtain rfl : t = (0, 0) := by
      rcases hbefore with hlt | ⟨hg, hlt⟩
      · exact absurd hlt (Nat.not_lt_zero t.1)
      · exact Prod.ext hg (Nat.lt_one_iff.1 hlt)
    have hfile : ¬ IsDirAt emptyDirDisk smallImage.globals (0, 0) := by
      unfold IsDirAt
      decide
    exact absurd hdir hfile
  have hin := h (0, 1) hread (by unfold IsDirAt; decide)
  generalize hb : bufferAt emptyDirDisk smallImage.globals (fun _ => 0) (0, 1) = b at hin
  have hblock : globalOffset smallImage.globals ((inodeAt emptyDirDisk
      (slotPos emptyDirDisk smallImage.globals (0, 1))).iBlock 0) = 20480 := by decide
  have hzero : ∀ i, 24 ≤ i → i < 1024 → b i = 0 := by
    intro i hi hlt
    rw [← hb]
    unfold bufferAt dirBuffer
    rw [if_pos hlt, hblock]
    unfold emptyDirDisk
    exact diskOf_eq_zero (n := 20504) (by decide) (by omega)
  have hone : OthersUpTo b 12 0 12 := by
    have hstep := (OthersUpTo.nil (b := b) (n := 12) 0).snoc (by rw [← hb]; decide)
    have hspan : 0 + paddedSpan b 0 = 12 := by
      rw [← hb]
      decide
    rwa [hspan] at hstep
  have htwo : OthersUpTo b 12 0 24 := by
    have hstep := hone.snoc (by rw [← hb]; decide)
    have hspan : 12 + paddedSpan b 12 = 24 := by
      rw [← hb]
      decide
    rwa [hspan] at hstep
  have hend := othersUpTo_zeros (by decide) hzero htwo 83 (by decide)
  have hbehind := hin.length 1020 (mem_byteCounts_iff.2 ⟨hend, by decide⟩)
  exact absurd hbehind (by decide)

end SystemsProjects.Ext2
