import SystemsProjects.Cow.Frames
import SystemsProjects.Lib.Sharing

/-!
# Ownership of user pages

The user page table entries of all page directories form a table of shared frames (`userTable`).
`Owned` is the invariant of the memory: the frames are used as `use` says, a frame is a user frame
exactly if some entry maps it, its reference count is the number of these entries, and an entry with
`PTE_W` is the only one of its frame.  The lemmas here are the steps that the loops of `vm.c` and the
page fault handler are made of, each with its effect on the table.
-/

namespace SystemsProjects.Cow

open Sharing

/-- A page table entry that user code can use: the frame, and whether it may be written. -/
def decode (pte : Word) : Option (Page × Bool) :=
  if has pte PTE_P && has pte PTE_U then some (pageOf pte, has pte PTE_W) else none

theorem decode_eq_some {pte : Word} (hP : has pte PTE_P = true) (hU : has pte PTE_U = true) :
    decode pte = some (pageOf pte, has pte PTE_W) := by
  simp [decode, hP, hU]

theorem decode_eq_none {pte : Word} (h : has pte PTE_P = false ∨ has pte PTE_U = false) :
    decode pte = none := by
  unfold decode
  cases h with
  | inl h => simp [h]
  | inr h => simp [h]

theorem decode_eq_some_iff {pte : Word} {e : Page × Bool} :
    decode pte = some e ↔
      has pte PTE_P = true ∧ has pte PTE_U = true ∧ e = (pageOf pte, has pte PTE_W) := by
  unfold decode
  split_ifs with h
  · rw [Bool.and_eq_true] at h
    simp [h.1, h.2, eq_comm]
  · simp only [false_iff]
    rintro ⟨h1, h2, -⟩
    simp [h1, h2] at h

/-- The user page table entries of the page directories. -/
def userTable (s : Mem) (use : Page → Use) : Table (Page × Page) Page := fun k =>
  if use k.1 = .dir then (pteOf s k.1 k.2).bind decode else none

/-- The table `T` of user entries agrees with the uses and the reference counts. -/
structure Counts (T : Table (Page × Page) Page) (refCnt : Page → Word) (use : Page → Use) : Prop where
  entry : ∀ d v f w, T (d, v) = some (f, w) → use d = .dir ∧ IsUser v ∧ use f = .user
  used : ∀ f, use f = .user → ∃ k, frame T k = some f
  count : ∀ f, use f = .user → refCnt f = BitVec.ofNat 32 (refs T f)
  exclusive : Exclusive T
  coloured : Coloured Prod.snd T

/-- The invariant of the memory. -/
structure Owned (L : Layout) (lost : Word) (s : Mem) (use : Page → Use) : Prop where
  frames : Frames L lost s use
  counts : Counts (userTable s use) s.refCnt use
  present : ∀ d v pte, use d = .dir → IsUser v → pteOf s d v = some pte → has pte PTE_P = true →
    has pte PTE_U = true

variable {L : Layout} {lost : Word} {s s' : Mem} {use use' : Page → Use} {f g d t v : Page}
  {i : Index} {w : Word} {b : Bool} {T : Table (Page × Page) Page} {refCnt : Page → Word}

/-! ## The table -/

theorem Frames.pteOf_write (h : Frames L lost s use) (ht : use t = .table d (pdx v)) (w : Word)
    {d' v' : Page} (hd' : use d' = .dir) :
    pteOf (s.write t (ptx v) w) d' v' = if (d', v') = (d, v) then some w else pteOf s d' v' := by
  have h' : Frames L lost (s.write t (ptx v) w) use := h.write (by simp [ht]) (by simp [ht]) _ _
  by_cases htab : ∃ t', use t' = .table d' (pdx v')
  · obtain ⟨t', ht'⟩ := htab
    rw [h'.pteOf_eq_some ht', h.pteOf_eq_some ht']
    by_cases hk : (d', v') = (d, v)
    · obtain ⟨rfl, rfl⟩ := Prod.mk.inj hk
      rw [if_pos rfl, h.table_unique ht ht', Mem.write_page_self, Function.update_self]
    · rw [if_neg hk]
      by_cases htt : t' = t
      · subst htt
        rw [ht] at ht'
        obtain ⟨rfl, hp⟩ := Use.table.inj ht'
        rw [Mem.write_page_self, Function.update_of_ne]
        intro hx
        exact hk (by rw [page_eq_of_pdx_ptx hp.symm hx])
      · rw [Mem.write_page_of_ne _ _ _ htt]
  · rw [not_exists] at htab
    rw [h'.pteOf_eq_none hd' htab, h.pteOf_eq_none hd' htab, if_neg]
    rintro hk
    obtain ⟨rfl, rfl⟩ := Prod.mk.inj hk
    exact htab t ht

theorem Frames.userTable_write (h : Frames L lost s use) (ht : use t = .table d (pdx v)) (w : Word) :
    userTable (s.write t (ptx v) w) use = Function.update (userTable s use) (d, v) (decode w) := by
  funext k
  obtain ⟨d', v'⟩ := k
  have hd := (h.table t d _ ht).1
  rw [Function.update_apply]
  unfold userTable
  by_cases hd' : use d' = .dir
  · simp only [hd', if_true, h.pteOf_write ht w hd']
    by_cases hk : (d', v') = (d, v)
    · rw [if_pos hk, if_pos hk, Option.bind_some]
    · rw [if_neg hk, if_neg hk]
  · have hk : (d', v') ≠ (d, v) := by
      intro hk
      exact hd' (by rw [(Prod.mk.inj hk).1, hd])
    simp only [hd', if_false, if_neg hk]

theorem userTable_congr (hdir : ∀ d, use' d = .dir ↔ use d = .dir)
    (hpte : ∀ d v, use d = .dir → pteOf s' d v = pteOf s d v) :
    userTable s' use' = userTable s use := by
  funext k
  unfold userTable
  by_cases hd : use k.1 = .dir
  · rw [if_pos ((hdir _).2 hd), if_pos hd, hpte _ _ hd]
  · rw [if_neg (fun h => hd ((hdir _).1 h)), if_neg hd]

/-! ## Counting -/

theorem Counts.unused (h : Counts T refCnt use) (hf : use f ≠ .user) : Unused T f := by
  intro k hk
  obtain ⟨w, hw⟩ := frame_eq_some_iff.1 hk
  exact hf (h.entry k.1 k.2 f w hw).2.2

/-- A frame that is no user frame becomes the frame of an entry that was empty. -/
theorem Counts.map (h : Counts T refCnt use) (hd : use d = .dir) (hv : IsUser v)
    (hempty : T (d, v) = none) (hf : use f ≠ .user) (hfd : use f ≠ .dir)
    (href : refCnt f = 1#32) :
    Counts (Function.update T (d, v) (some (f, b))) refCnt (Function.update use f .user) := by
  have hunused := h.unused hf
  have hnone : frame T (d, v) = none := frame_eq_none_iff.2 hempty
  have hdf : d ≠ f := fun hdf => hfd (hdf ▸ hd)
  refine ⟨fun e u g w hg => ?_, fun g hg => ?_, fun g hg => ?_, ?_, ?_⟩
  · by_cases hk : (e, u) = (d, v)
    · obtain ⟨rfl, rfl⟩ := Prod.mk.inj hk
      rw [Function.update_self] at hg
      obtain ⟨rfl, -⟩ : f = g ∧ b = w := by simpa using hg
      rw [Function.update_of_ne hdf, Function.update_self]
      exact ⟨hd, hv, rfl⟩
    · rw [Function.update_of_ne hk] at hg
      obtain ⟨he, hu, hgu⟩ := h.entry e u g w hg
      rw [Function.update_of_ne, Function.update_of_ne]
      · exact ⟨he, hu, hgu⟩
      · rintro rfl
        exact hf hgu
      · rintro rfl
        exact hfd he
  · by_cases hgf : g = f
    · exact ⟨(d, v), by rw [frame_update, if_pos rfl, hgf]; rfl⟩
    · rw [Function.update_of_ne hgf] at hg
      obtain ⟨k, hk⟩ := h.used g hg
      refine ⟨k, ?_⟩
      rw [frame_update, if_neg, hk]
      rintro rfl
      rw [hnone] at hk
      cases hk
  · have hcount := refs_update T (d, v) (some (f, b)) g
    rw [hnone] at hcount
    by_cases hgf : g = f
    · rw [hgf] at hcount ⊢
      rw [refs_eq_zero_iff.2 hunused] at hcount
      rw [href, show refs _ f = 1 by simpa using hcount]
    · rw [Function.update_of_ne hgf] at hg
      rw [h.count g hg, show refs (Function.update T (d, v) (some (f, b))) g = refs T g by
        simpa [Ne.symm hgf] using hcount]
  · exact h.exclusive.update_unique fun x hx => absurd hx (hunused x)
  · exact h.coloured.update_some fun x hx => absurd hx (hunused x)

/-- An entry is removed, and other entries keep its frame. -/
theorem Counts.unmap (h : Counts T refCnt use) {k : Page × Page} (hk : frame T k = some f)
    (hmany : refs T f ≠ 1) :
    Counts (Function.update T k none) (Function.update refCnt f (refCnt f - 1#32)) use := by
  have hcount := fun g => refs_update T k none g
  simp only [hk, Option.map_none, reduceCtorEq, if_false, Nat.add_zero, Option.some.injEq] at hcount
  have hpos := refs_pos hk
  refine ⟨fun e u g w hg => ?_, fun g hg => ?_, fun g hg => ?_, h.exclusive.update_none,
    h.coloured.update_none⟩
  · by_cases hek : (e, u) = k
    · rw [hek, Function.update_self] at hg
      cases hg
    · rw [Function.update_of_ne hek] at hg
      exact h.entry e u g w hg
  · apply refs_pos_iff.1
    have hg' := refs_pos_iff.2 (h.used g hg)
    have := hcount g
    by_cases hgf : g = f
    · rw [hgf, if_pos rfl] at this
      rw [hgf]
      omega
    · rw [if_neg (Ne.symm hgf)] at this
      omega
  · have := hcount g
    by_cases hgf : g = f
    · rw [hgf, if_pos rfl] at this
      rw [hgf, Function.update_self, h.count f (hgf ▸ hg), ← this, BitVec.ofNat_add,
        BitVec.add_sub_cancel]
    · rw [if_neg (Ne.symm hgf)] at this
      rw [Function.update_of_ne hgf, h.count g hg, ← this, Nat.add_zero]

/-- The last entry of a frame is removed. -/
theorem Counts.unmap_last (h : Counts T refCnt use) {k : Page × Page} (hk : frame T k = some f)
    (hone : refs T f = 1) (x : Use) (hx : x ≠ .user) :
    Counts (Function.update T k none) refCnt (Function.update use f x) := by
  have huniq : ∀ k', frame T k' = some f → k' = k := fun k' hk' => eq_of_refs_eq_one hone hk hk'
  have hfu : use f = .user := by
    obtain ⟨w, hw⟩ := frame_eq_some_iff.1 hk
    exact (h.entry k.1 k.2 f w hw).2.2
  refine ⟨fun e u g w hg => ?_, fun g hg => ?_, fun g hg => ?_, h.exclusive.update_none,
    h.coloured.update_none⟩
  · by_cases hek : (e, u) = k
    · rw [hek, Function.update_self] at hg
      cases hg
    · rw [Function.update_of_ne hek] at hg
      obtain ⟨he, hu, hgu⟩ := h.entry e u g w hg
      rw [Function.update_of_ne, Function.update_of_ne]
      · exact ⟨he, hu, hgu⟩
      · rintro rfl
        exact hek (huniq _ (frame_of_eq_some hg))
      · rintro rfl
        simp [hfu] at he
  · have hgf : g ≠ f := by
      rintro rfl
      rw [Function.update_self] at hg
      exact hx hg
    rw [Function.update_of_ne hgf] at hg
    obtain ⟨k', hk'⟩ := h.used g hg
    refine ⟨k', ?_⟩
    rw [frame_update, if_neg, hk']
    rintro rfl
    rw [hk] at hk'
    exact hgf (Option.some.inj hk').symm
  · have hgf : g ≠ f := by
      rintro rfl
      rw [Function.update_self] at hg
      exact hx hg
    rw [Function.update_of_ne hgf] at hg
    have hcount := refs_update T k none g
    rw [hk, if_neg (by simpa using Ne.symm hgf)] at hcount
    rw [h.count g hg, show refs (Function.update T k none) g = refs T g by
      simpa using hcount]

/-- The permission of an entry changes; with `PTE_W` it is the only one of its frame. -/
theorem Counts.setW (h : Counts T refCnt use) {k : Page × Page} (hk : frame T k = some f)
    (hone : b = true → refs T f = 1) : Counts (Function.update T k (some (f, b))) refCnt use := by
  have hframe : ∀ k', frame (Function.update T k (some (f, b))) k' = frame T k' := by
    intro k'
    rw [frame_update]
    split_ifs with hkk
    · rw [hkk, hk]
      rfl
    · rfl
  refine ⟨fun e u g w hg => ?_, fun g hg => ?_, fun g hg => ?_, ?_, fun a c g ha hc => ?_⟩
  · have hg' : frame T (e, u) = some g := by rw [← hframe]; exact frame_of_eq_some hg
    obtain ⟨w', hw'⟩ := frame_eq_some_iff.1 hg'
    exact h.entry e u g w' hw'
  · obtain ⟨k', hk'⟩ := h.used g hg
    exact ⟨k', by rw [hframe, hk']⟩
  · rw [h.count g hg, refs_congr hframe]
  · cases b with
    | true => exact h.exclusive.update_unique fun x hx => eq_of_refs_eq_one (hone rfl) hk hx
    | false => exact (h.exclusive.update_self hk).1
  · rw [hframe] at ha hc
    exact h.coloured a c g ha hc

/-- A second, read-only entry for a frame that nobody may write. -/
theorem Counts.share (h : Counts T refCnt use) {k : Page × Page} (hk : T k = some (f, false))
    (hd : use d = .dir) (hempty : T (d, k.2) = none) :
    Counts (Function.update T (d, k.2) (some (f, false)))
      (Function.update refCnt f (refCnt f + 1#32)) use := by
  have hkf := frame_of_eq_some hk
  obtain ⟨-, hv, hfu⟩ := h.entry k.1 k.2 f false hk
  have hnone : frame T (d, k.2) = none := frame_eq_none_iff.2 hempty
  have hnowriter : ∀ x, T x ≠ some (f, true) := by
    intro x hx
    obtain rfl := h.exclusive x f hx k hkf
    rw [hk] at hx
    simp at hx
  have hcount := fun g => refs_update T (d, k.2) (some (f, false)) g
  simp only [hnone, Option.map_some, reduceCtorEq, if_false, Nat.add_zero,
    Option.some.injEq] at hcount
  refine ⟨fun e u g w hg => ?_, fun g hg => ?_, fun g hg => ?_,
    h.exclusive.update_readonly hnowriter, h.coloured.update_some fun x hx => ?_⟩
  · by_cases hek : (e, u) = (d, k.2)
    · obtain ⟨rfl, rfl⟩ := Prod.mk.inj hek
      rw [Function.update_self] at hg
      obtain ⟨rfl, -⟩ : f = g ∧ false = w := by simpa using hg
      exact ⟨hd, hv, hfu⟩
    · rw [Function.update_of_ne hek] at hg
      exact h.entry e u g w hg
  · apply refs_pos_iff.1
    have := refs_pos_iff.2 (h.used g hg)
    have := hcount g
    omega
  · have := hcount g
    by_cases hgf : g = f
    · rw [hgf, if_pos rfl] at this
      rw [hgf, Function.update_self, h.count f hfu, this, BitVec.ofNat_add]
    · rw [if_neg (Ne.symm hgf)] at this
      rw [Function.update_of_ne hgf, h.count g hg, this, Nat.add_zero]
  · exact h.coloured x k f hx hkf

/-- Uses and counts of frames that are no user frames do not matter. -/
theorem Counts.congr (h : Counts T refCnt use) {refCnt' : Page → Word}
    (hdir : ∀ d, use d = .dir → use' d = .dir ∨ ∀ v, T (d, v) = none)
    (huser : ∀ f, use' f = .user ↔ use f = .user)
    (href : ∀ f, use f = .user → refCnt' f = refCnt f) : Counts T refCnt' use' := by
  refine ⟨fun e u g w hg => ?_, fun g hg => h.used g ((huser g).1 hg), fun g hg => ?_, h.exclusive,
    h.coloured⟩
  · obtain ⟨he, hu, hgu⟩ := h.entry e u g w hg
    refine ⟨?_, hu, (huser g).2 hgu⟩
    cases hdir e he with
    | inl he => exact he
    | inr hnone =>
      rw [hnone u] at hg
      cases hg
  · rw [href g ((huser g).1 hg), h.count g ((huser g).1 hg)]

/-- A frame has at most as many entries as there are page directories and user pages. -/
theorem Counts.refs_le (h : Counts T refCnt use) {m n : ℕ} (hm : ∀ d, use d = .dir → d.toNat < m)
    (hn : ∀ v, IsUser v → v.toNat < n) (f : Page) : refs T f ≤ m * n := by
  have hinj : refs T f ≤ (Finset.range m ×ˢ Finset.range n : Set (ℕ × ℕ)).ncard := by
    apply Set.ncard_le_ncard_of_injOn fun k : Page × Page => (k.1.toNat, k.2.toNat)
    · intro k hk
      obtain ⟨w, hw⟩ := frame_eq_some_iff.1 hk
      obtain ⟨hd, hv, -⟩ := h.entry k.1 k.2 f w hw
      simp only [Set.mem_prod, Finset.coe_range, Set.mem_Iio]
      exact ⟨hm _ hd, hn _ hv⟩
    · intro k _ k' _ hkk
      obtain ⟨h1, h2⟩ := Prod.mk.inj hkk
      exact Prod.ext (BitVec.eq_of_toNat_eq h1) (BitVec.eq_of_toNat_eq h2)
  rw [← Finset.coe_product, Set.ncard_coe_finset, Finset.card_product, Finset.card_range,
    Finset.card_range] at hinj
  exact hinj

/-! ## Steps on the memory -/

theorem Owned.refs_lt (h : Owned L lost s use) (f : Page) : refs (userTable s use) f < 2 ^ 31 :=
  lt_of_le_of_lt (h.counts.refs_le (fun d hd => (h.frames.range d (by simp [hd])).2)
    (fun _ hv => hv) f) (by decide)

/-- The reference count of a user frame as a number. -/
theorem Owned.toNat_refCnt (h : Owned L lost s use) (hf : use f = .user) :
    (s.refCnt f).toNat = refs (userTable s use) f := by
  have := h.refs_lt f
  rw [h.counts.count f hf, BitVec.toNat_ofNat]
  omega

theorem Owned.refCount_eq (h : Owned L lost s use) (hf : use f = .user) :
    refCount f s = refs (userTable s use) f := by
  have hlt := h.refs_lt f
  have hnat := h.toNat_refCnt hf
  unfold refCount
  rw [BitVec.toInt_eq_toNat_of_lt (by omega), hnat]

/-- The entry at which the tables of `d` store a user page. -/
theorem Frames.entry_eq (h : Frames L lost s use) (ht : use t = .table d (pdx v)) :
    userTable s use (d, v) = decode (s.page t (ptx v)) := by
  unfold userTable
  rw [if_pos (h.table t d _ ht).1]
  simp only
  rw [h.pteOf_eq_some ht, Option.bind_some]

theorem Owned.entry_eq (h : Owned L lost s use) (ht : use t = .table d (pdx v)) :
    userTable s use (d, v) = decode (s.page t (ptx v)) := h.frames.entry_eq ht

/-- For a user page, `PTE_P` alone decides whether there is an entry. -/
theorem Owned.entry_of_present (h : Owned L lost s use) (ht : use t = .table d (pdx v))
    (hv : IsUser v) (hP : has (s.page t (ptx v)) PTE_P = true) :
    userTable s use (d, v) = some (pageOf (s.page t (ptx v)), has (s.page t (ptx v)) PTE_W) := by
  rw [h.entry_eq ht, decode_eq_some hP]
  exact h.present d v _ (h.frames.table t d _ ht).1 hv (h.frames.pteOf_eq_some ht) hP

theorem Owned.present_of_entry (h : Owned L lost s use) (ht : use t = .table d (pdx v))
    (hempty : userTable s use (d, v) = none) (hv : IsUser v) :
    has (s.page t (ptx v)) PTE_P = false := by
  rw [← Bool.not_eq_true]
  intro hP
  rw [h.entry_of_present ht hv hP] at hempty
  cases hempty

/-- The memory changes, but not the tables, and no user frame is affected. -/
theorem Owned.congr (h : Owned L lost s use) {lost' : Word} (hframes : Frames L lost' s' use')
    (hdir : ∀ d, use' d = .dir ↔ use d = .dir)
    (hpte : ∀ d v, use d = .dir → pteOf s' d v = pteOf s d v)
    (huser : ∀ f, use' f = .user ↔ use f = .user)
    (href : ∀ f, use f = .user → s'.refCnt f = s.refCnt f) :
    Owned L lost' s' use' ∧ userTable s' use' = userTable s use := by
  have hT : userTable s' use' = userTable s use := userTable_congr hdir hpte
  refine ⟨⟨hframes, ?_, fun d v pte hd hv hp => ?_⟩, hT⟩
  · rw [hT]
    exact h.counts.congr (fun d hd => Or.inl ((hdir d).2 hd)) huser href
  · rw [hpte d v ((hdir d).1 hd)] at hp
    exact h.present d v pte ((hdir d).1 hd) hv hp

theorem Owned.setOom (h : Owned L lost s use) (b : Bool) :
    Owned L lost { s with oom := b } use ∧
      userTable { s with oom := b } use = userTable s use :=
  h.congr (h.frames.setOom b) (fun _ => Iff.rfl) (fun _ _ _ => rfl) (fun _ => Iff.rfl) fun _ _ => rfl

/-- The contents of a page that is not free and no page table change. -/
theorem Owned.setPage_of_ne (h : Owned L lost s use) (hfree : use f ≠ .free) (hdir : use f ≠ .dir)
    (htable : ∀ d i, use f ≠ .table d i) (x : PageData) :
    Owned L lost (s.setPage f x) use ∧ userTable (s.setPage f x) use = userTable s use := by
  refine h.congr (h.frames.setPage hfree hdir x) (fun _ => Iff.rfl) (fun d v hd => ?_)
    (fun _ => Iff.rfl) fun _ _ => rfl
  apply h.frames.pteOf_congr hd
  · apply Mem.setPage_page_of_ne
    rintro rfl
    exact hdir hd
  · intro t i ht
    apply Mem.setPage_page_of_ne
    rintro rfl
    exact htable d i ht

/-- The contents of a user frame or of a page of the kernel change. -/
theorem Owned.setPage (h : Owned L lost s use) (hf : use f = .kern ∨ use f = .user) (x : PageData) :
    Owned L lost (s.setPage f x) use ∧ userTable (s.setPage f x) use = userTable s use := by
  cases hf with
  | inl hf => exact h.setPage_of_ne (by simp [hf]) (by simp [hf]) (by simp [hf]) x
  | inr hf => exact h.setPage_of_ne (by simp [hf]) (by simp [hf]) (by simp [hf]) x

/-- `kalloc` succeeds. -/
theorem Owned.kalloc_eq_some (h : Owned L lost s use) (hne : s.freelist ≠ 0#32) :
    ∃ f s', kalloc s = (some f, s') ∧ use f = .free ∧
      Owned L lost s' (Function.update use f .kern) ∧
      userTable s' (Function.update use f .kern) = userTable s use ∧ s'.page = s.page ∧
      (∀ g, g ≠ f → s'.refCnt g = s.refCnt g) ∧ s'.oom = s.oom := by
  obtain ⟨f, s', hk, hf, hframes, hpage, href, hoom⟩ := h.frames.kalloc_eq_some hne
  have href' : ∀ g, g ≠ f → s'.refCnt g = s.refCnt g := fun g hg => by
    rw [href, Function.update_of_ne hg]
  obtain ⟨howned, hT⟩ := h.congr hframes
    (update_eq_iff (by simp [hf]) (by simp))
    (fun d v _ => by unfold pteOf; rw [hpage]) (update_eq_iff (by simp [hf]) (by simp))
    (fun g hg => href' g (by rintro rfl; simp [hf] at hg))
  exact ⟨f, s', hk, hf, howned, hT, hpage, href', hoom⟩

/-- `kfree` of a page of the kernel. -/
theorem Owned.kfree_kern (h : Owned L lost s use) (hf : use f = .kern) :
    ∃ s', kfree L f s = .ok s' ∧ Owned L lost s' (Function.update use f .free) ∧
      userTable s' (Function.update use f .free) = userTable s use ∧
      (∀ g, g ≠ f → s'.page g = s.page g) ∧ s'.oom = s.oom := by
  obtain ⟨s', hk, hframes, hpage, href, hoom⟩ := h.frames.kfree_eq_ok hf
  obtain ⟨howned, hT⟩ := h.congr hframes
    (update_eq_iff (by simp [hf]) (by simp))
    (fun d v hd => h.frames.pteOf_congr hd (hpage d (by rintro rfl; simp [hf] at hd))
      fun t i ht => hpage t (by rintro rfl; simp [hf] at ht))
    (update_eq_iff (by simp [hf]) (by simp)) (fun g _ => by rw [href])
  exact ⟨s', hk, howned, hT, hpage, hoom⟩

/-- An entry is written whose frame keeps its use. -/
theorem Owned.write (h : Owned L lost s use) (ht : use t = .table d (pdx v)) (w : Word)
    (refCnt' : Page → Word) (use' : Page → Use) (hframes : Frames L lost { s with refCnt := refCnt' } use')
    (htags : ∀ g, (use g).Structural ∨ (use' g).Structural → use' g = use g)
    (hcounts : Counts (Function.update (userTable s use) (d, v) (decode w)) refCnt' use')
    (hu : IsUser v → has w PTE_P = true → has w PTE_U = true) :
    Owned L lost { s.write t (ptx v) w with refCnt := refCnt' } use' ∧
      userTable { s.write t (ptx v) w with refCnt := refCnt' } use' =
        Function.update (userTable s use) (d, v) (decode w) := by
  have hdir : ∀ g, use' g = .dir ↔ use g = .dir := fun g =>
    ⟨fun hg => by rw [← htags g (by simp [hg, Use.Structural]), hg],
      fun hg => by rw [htags g (by simp [hg, Use.Structural]), hg]⟩
  have ht' : use' t = .table d (pdx v) := by rw [htags t (by simp [ht, Use.Structural]), ht]
  have hT : userTable { s.write t (ptx v) w with refCnt := refCnt' } use' =
      Function.update (userTable s use) (d, v) (decode w) := by
    rw [← h.frames.userTable_write ht w]
    exact userTable_congr hdir fun _ _ _ => rfl
  refine ⟨⟨?_, ?_, fun e u pte he huser hp => ?_⟩, hT⟩
  · exact hframes.write (f := t) (by simp [ht']) (by simp [ht']) _ _
  · rw [hT]
    exact hcounts
  · have hpw : pteOf (s.write t (ptx v) w) e u = if (e, u) = (d, v) then some w else pteOf s e u :=
      h.frames.pteOf_write ht w ((hdir e).1 he)
    have hp' : pteOf (s.write t (ptx v) w) e u = some pte := hp
    rw [hpw] at hp'
    split_ifs at hp' with hk
    · obtain ⟨rfl, rfl⟩ := Prod.mk.inj hk
      obtain rfl := Option.some.inj hp'
      exact hu huser
    · exact h.present e u pte ((hdir e).1 he) huser hp'

/-- A page of the kernel is mapped at a user page that was not mapped. -/
theorem Owned.map (h : Owned L lost s use) (ht : use t = .table d (pdx v)) (hv : IsUser v)
    (hempty : userTable s use (d, v) = none) (hf : use f = .kern)
    (hw : decode w = some (f, b)) :
    Owned L lost (s.write t (ptx v) w) (Function.update use f .user) ∧
      userTable (s.write t (ptx v) w) (Function.update use f .user) =
        Function.update (userTable s use) (d, v) (some (f, b)) := by
  have href : s.refCnt f = 1#32 := h.frames.ref_of (Or.inr hf)
  have := h.write ht w s.refCnt (Function.update use f .user)
    (h.frames.retag (Or.inl hf) (Or.inr rfl) href)
    (update_of_structural (by simp [hf, Use.Structural]) (by simp [Use.Structural]))
    (by rw [hw]; exact h.counts.map (h.frames.table t d _ ht).1 hv hempty (by simp [hf]) (by simp [hf]) href)
    fun _ _ => (decode_eq_some_iff.1 hw).2.1
  rwa [hw] at this

/-- The permission of an entry is changed. -/
theorem Owned.setW (h : Owned L lost s use) (ht : use t = .table d (pdx v))
    (hk : frame (userTable s use) (d, v) = some f) (hw : decode w = some (f, b))
    (hone : b = true → refs (userTable s use) f = 1) :
    Owned L lost (s.write t (ptx v) w) use ∧
      userTable (s.write t (ptx v) w) use =
        Function.update (userTable s use) (d, v) (some (f, b)) := by
  have := h.write ht w s.refCnt use h.frames (fun _ _ => rfl)
    (by rw [hw]; exact h.counts.setW hk hone) fun _ _ => (decode_eq_some_iff.1 hw).2.1
  rwa [hw] at this

/-- A frame that nobody may write is mapped a second time. -/
theorem Owned.share (h : Owned L lost s use) {p : Page}
    (hk : userTable s use (p, v) = some (f, false)) (ht : use t = .table d (pdx v))
    (hempty : userTable s use (d, v) = none) (hw : decode w = some (f, false)) :
    Owned L lost (incPageRef f (s.write t (ptx v) w)) use ∧
      userTable (incPageRef f (s.write t (ptx v) w)) use =
        Function.update (userTable s use) (d, v) (some (f, false)) := by
  have hfu := (h.counts.entry p v f false hk).2.2
  have hd := (h.frames.table t d _ ht).1
  have := h.write ht w (Function.update s.refCnt f (s.refCnt f + 1#32)) use
    (h.frames.setRef hfu _) (fun _ _ => rfl)
    (by rw [hw]; exact h.counts.share (k := (p, v)) hk hd hempty)
    fun _ _ => (decode_eq_some_iff.1 hw).2.1
  rwa [hw] at this

/-- `kfree` and a write to another page commute. -/
theorem kfree_write_comm (hne : t ≠ f) (i : Index) (w : Word) :
    kfree L f (s.write t i w) = (kfree L f s).map fun s => s.write t i w := by
  unfold kfree
  rw [Mem.write_refCnt]
  split_ifs
  · rfl
  · simp only [Except.map, Mem.write, Mem.setPage, Except.ok.injEq, Mem.mk.injEq, and_true]
    rw [Function.update_comm hne.symm, Function.update_of_ne hne]
  · rfl

/-- An entry is cleared and its frame given back. -/
theorem Owned.unmap (h : Owned L lost s use) (ht : use t = .table d (pdx v))
    (hk : frame (userTable s use) (d, v) = some f) :
    ∃ s' use', ((kfree L f s).map fun s => s.write t (ptx v) 0#32) = .ok s' ∧ Owned L lost s' use' ∧
      userTable s' use' = Function.update (userTable s use) (d, v) none ∧
      (∀ g, use' g = use g ∨ use g = .user ∧ use' g = .free) ∧
      (∀ g, use' g = .user → s'.page g = s.page g) ∧ s'.oom = s.oom := by
  obtain ⟨b, hb⟩ := frame_eq_some_iff.1 hk
  have hfu := (h.counts.entry d v f b hb).2.2
  have htf : t ≠ f := by
    rintro rfl
    simp [hfu] at ht
  have hzero : decode 0#32 = none := decode_eq_none (by simp)
  by_cases hone : refs (userTable s use) f = 1
  · have href : s.refCnt f = 1#32 := by rw [h.counts.count f hfu, hone]
    obtain ⟨h1, hT1⟩ := h.write ht 0#32 s.refCnt (Function.update use f .kern)
      (h.frames.retag (Or.inr hfu) (Or.inl rfl) href)
      (update_of_structural (by simp [hfu, Use.Structural]) (by simp [Use.Structural]))
      (by rw [hzero]; exact h.counts.unmap_last hk hone .kern (by simp)) (by simp)
    obtain ⟨s', hs', h2, hT2, hpage, hoom⟩ := h1.kfree_kern (f := f) (by simp)
    refine ⟨s', _, ?_, h2, ?_, fun g => ?_, fun g hg => ?_, hoom⟩
    · rw [← kfree_write_comm htf]
      exact hs'
    · rw [hT2, hT1, hzero]
    · by_cases hgf : g = f
      · exact Or.inr (by simp [hgf, hfu])
      · exact Or.inl (by simp [Function.update_of_ne hgf])
    · have hgf : g ≠ f := by
        rintro rfl
        simp at hg
      rw [hpage g hgf]
      apply Mem.write_page_of_ne
      rintro rfl
      simp [Function.update_of_ne hgf, ht] at hg
  · have hpos := refs_pos hk
    have hnat := h.toNat_refCnt hfu
    obtain ⟨hlo, hhi⟩ := h.frames.range f (by simp [hfu])
    obtain ⟨h1, hT1⟩ := h.write ht 0#32
      (Function.update s.refCnt f (s.refCnt f - 1#32)) use
      (h.frames.setRef hfu _) (fun _ _ => rfl)
      (by rw [hzero]; exact h.counts.unmap hk hone) (by simp)
    refine ⟨_, use, ?_, h1, by rw [hT1, hzero], fun _ => Or.inl rfl, fun g hg => ?_, rfl⟩
    · rw [kfree, if_neg (by omega), if_neg (by omega)]
      rfl
    · apply Mem.write_page_of_ne
      rintro rfl
      simp [ht] at hg

/-- An entry moves to a copy of its shared frame. -/
theorem Owned.copy (h : Owned L lost s use) (ht : use t = .table d (pdx v))
    (hk : frame (userTable s use) (d, v) = some f) (hmany : refs (userTable s use) f ≠ 1)
    (hg : use g = .kern) (hw : decode w = some (g, b)) :
    Owned L lost ((decPageRef f s).write t (ptx v) w) (Function.update use g .user) ∧
      userTable ((decPageRef f s).write t (ptx v) w) (Function.update use g .user) =
        Function.update (userTable s use) (d, v) (some (g, b)) := by
  obtain ⟨b', hb'⟩ := frame_eq_some_iff.1 hk
  obtain ⟨hd, hv, hfu⟩ := h.counts.entry d v f b' hb'
  have hgf : g ≠ f := by
    rintro rfl
    simp [hfu] at hg
  have href : s.refCnt g = 1#32 := h.frames.ref_of (Or.inr hg)
  have hcounts : Counts (Function.update (userTable s use) (d, v) (some (g, b)))
      (Function.update s.refCnt f (s.refCnt f - 1#32)) (Function.update use g .user) := by
    have := (h.counts.unmap hk hmany).map (f := g) (b := b) hd hv (by simp) (by simp [hg])
      (by simp [hg]) (by rw [Function.update_of_ne hgf, href])
    rwa [Function.update_idem] at this
  have := h.write ht w (Function.update s.refCnt f (s.refCnt f - 1#32))
    (Function.update use g .user)
    ((h.frames.setRef hfu _).retag (Or.inl hg) (Or.inr rfl)
      (by simp only [Function.update_of_ne hgf]; exact href))
    (update_of_structural (by simp [hg, Use.Structural]) (by simp [Use.Structural]))
    (by rw [hw]; exact hcounts) fun _ _ => (decode_eq_some_iff.1 hw).2.1
  rwa [hw] at this

/-! ## Steps on page directories -/

/-- An entry outside the user part, or without `PTE_U`, does not matter to user code. -/
theorem Owned.writeKernel (h : Owned L lost s use) (ht : use t = .table d (pdx v)) (hv : ¬ IsUser v)
    (hw : has w PTE_U = false) :
    Owned L lost (s.write t (ptx v) w) use ∧
      userTable (s.write t (ptx v) w) use = userTable s use := by
  have hnone : userTable s use (d, v) = none := by
    cases hT : userTable s use (d, v) with
    | none => rfl
    | some e => exact absurd (h.counts.entry d v e.1 e.2 hT).2.1 hv
  have hdec : decode w = none := decode_eq_none (Or.inr hw)
  have hsame : Function.update (userTable s use) (d, v) (decode w) = userTable s use := by
    rw [hdec, ← hnone, Function.update_eq_self]
  have := h.write ht w s.refCnt use h.frames (fun _ _ => rfl)
    (by rw [hsame]; exact h.counts) fun hv' => absurd hv' hv
  rwa [hsame] at this

/-- A zeroed page becomes a page directory. -/
theorem Owned.newDir (h : Owned L lost s use) (hd : use d = .kern)
    (hzero : s.page d = fun _ => 0#32) :
    Owned L lost s (Function.update use d .dir) ∧
      userTable s (Function.update use d .dir) = userTable s use := by
  have hpte : ∀ v, pteOf s d v = none := fun v => by
    unfold pteOf
    rw [hzero, has_zero, if_neg Bool.false_ne_true]
  have hT : userTable s (Function.update use d .dir) = userTable s use := by
    funext k
    unfold userTable
    by_cases hkd : k.1 = d
    · simp [hkd, hd, hpte]
    · rw [Function.update_of_ne hkd]
  refine ⟨⟨h.frames.newDir hd hzero, ?_, fun e v pte he hv hp => ?_⟩, hT⟩
  · rw [hT]
    refine h.counts.congr (fun e he => Or.inl ?_) (update_eq_iff (by simp [hd]) (by simp)) fun _ _ => rfl
    rw [Function.update_of_ne, he]
    rintro rfl
    simp [hd] at he
  · by_cases hed : e = d
    · rw [hed, hpte v] at hp
      cases hp
    · rw [Function.update_of_ne hed] at he
      exact h.present e v pte he hv hp

/-- A zeroed page is entered as a page table. -/
theorem Owned.addTable (h : Owned L lost s use) (hd : use d = .dir) (hpde : s.page d i = 0#32)
    (ht : use t = .kern) (hzero : s.page t = fun _ => 0#32) :
    Owned L lost (s.write d i (pdeFor t)) (Function.update use t (.table d i)) ∧
      userTable (s.write d i (pdeFor t)) (Function.update use t (.table d i)) = userTable s use := by
  have hframes := h.frames.addTable hd hpde ht
  have hdir : ∀ e, Function.update use t (.table d i) e = .dir ↔ use e = .dir :=
    update_eq_iff (by simp [ht]) (by simp)
  have htd : t ≠ d := by
    rintro rfl
    simp [hd] at ht
  -- the new entries are zero, and no other entry changes
  have hpte : ∀ e v, use e = .dir → pteOf (s.write d i (pdeFor t)) e v = pteOf s e v ∨
      pteOf (s.write d i (pdeFor t)) e v = some 0#32 ∧ pteOf s e v = none := by
    intro e v he
    by_cases hk : e = d ∧ pdx v = i
    · obtain ⟨rfl, rfl⟩ := hk
      right
      rw [hframes.pteOf_eq_some (t := t) (by simp), Mem.write_page_of_ne _ _ _ htd, hzero]
      refine ⟨rfl, ?_⟩
      unfold pteOf
      rw [hpde, has_zero, if_neg Bool.false_ne_true]
    · left
      have hpage : (s.write d i (pdeFor t)).page e (pdx v) = s.page e (pdx v) := by
        by_cases hed : e = d
        · subst hed
          rw [Mem.write_page_self, Function.update_of_ne fun hx => hk ⟨rfl, hx⟩]
        · rw [Mem.write_page_of_ne _ _ _ hed]
      unfold pteOf
      rw [hpage]
      cases h.frames.pde e (pdx v) he with
      | inl h0 => rw [h0, has_zero]; rfl
      | inr h1 =>
        obtain ⟨t', ht'⟩ := h1
        rw [(h.frames.table t' e _ ht').2, pageOf_pdeFor, Mem.write_page_of_ne]
        rintro rfl
        simp [hd] at ht'
  have hT : userTable (s.write d i (pdeFor t)) (Function.update use t (.table d i)) =
      userTable s use := by
    funext k
    unfold userTable
    by_cases hkd : use k.1 = .dir
    · rw [if_pos ((hdir _).2 hkd), if_pos hkd]
      cases hpte k.1 k.2 hkd with
      | inl hp => rw [hp]
      | inr hp =>
        rw [hp.1, hp.2, Option.bind_some, Option.bind_none]
        exact decode_eq_none (by simp)
    · rw [if_neg fun hx => hkd ((hdir _).1 hx), if_neg hkd]
  refine ⟨⟨hframes, ?_, fun e v pte he hv hp => ?_⟩, hT⟩
  · rw [hT]
    exact h.counts.congr (fun e he => Or.inl ((hdir e).2 he)) (update_eq_iff (by simp [ht]) (by simp))
      fun _ _ => rfl
  · cases hpte e v ((hdir e).1 he) with
    | inl hp' =>
      rw [hp'] at hp
      exact h.present e v pte ((hdir e).1 he) hv hp
    | inr hp' =>
      rw [hp'.1] at hp
      obtain rfl := Option.some.inj hp
      simp

/-- A page directory without user entries is given up. -/
theorem Owned.retire (h : Owned L lost s use) (hd : use d = .dir)
    (hempty : ∀ v, userTable s use (d, v) = none) :
    Owned L lost s (retired use d) ∧ userTable s (retired use d) = userTable s use := by
  have hT : userTable s (retired use d) = userTable s use := by
    funext k
    by_cases hkd : k.1 = d
    · have hk : userTable s use k = none := by
        rw [show k = (d, k.2) from Prod.ext hkd rfl]
        exact hempty k.2
      rw [hk]
      unfold userTable
      rw [if_neg fun hx => (retired_eq_dir_iff.1 hx).2 hkd]
    · unfold userTable
      by_cases hk : use k.1 = .dir
      · rw [if_pos (retired_eq_dir_iff.2 ⟨hk, hkd⟩), if_pos hk]
      · rw [if_neg fun hx => hk (retired_eq_dir_iff.1 hx).1, if_neg hk]
  refine ⟨⟨h.frames.retire hd, ?_, fun e v pte he hv hp => ?_⟩, hT⟩
  · rw [hT]
    refine h.counts.congr (fun e he => ?_) (fun g => retired_eq_user_iff hd) fun _ _ => rfl
    by_cases hed : e = d
    · exact Or.inr (hed ▸ hempty)
    · exact Or.inl (retired_eq_dir_iff.2 ⟨he, hed⟩)
  · exact h.present e v pte (retired_eq_dir_iff.1 he).1 hv hp

end SystemsProjects.Cow
