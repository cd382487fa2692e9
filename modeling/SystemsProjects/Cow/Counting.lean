import SystemsProjects.Cow.Boot

/-!
# Counting frames

Every frame of the allocator is free, a user frame, a page directory, one of the 12 page tables of a
page directory, a kernel stack or lost.  So the number of free frames follows from the number of
processes and of user frames (`Inv.count`).
-/

namespace SystemsProjects.Cow

open Sharing

variable {L : Layout} {lost : Word} {leak : Set Page} {eager : Bool} {s s' : Sys} {m : Mem}
  {use use' : Page → Use} {f g d t v : Page} {p i : Slot}

noncomputable def userCount (use : Page → Use) : ℕ := {g | use g = .user}.ncard

/-- The number of processes. -/
noncomputable def liveCount (s : Sys) : ℕ := {i | Live s i}.ncard

/-- `free_pages` is the number of free frames. -/
theorem Frames.freePages_eq (h : Frames L lost m use) :
    m.freePages = BitVec.ofNat 32 (freeCount use) + lost := by
  obtain ⟨l, -, hnodup, hmem, hlen⟩ := h.free
  have hset : {g | use g = .free} = ((l.toFinset : Finset Page) : Set Page) := by
    ext g
    simp [hmem]
  unfold freeCount
  rw [hlen, hset, Set.ncard_coe_finset, List.toFinset_card_of_nodup hnodup]

theorem Inv.ncard_dir (h : Inv L lost eager leak s use) : {g | use g = .dir}.ncard = liveCount s + 1 := by
  have hset : {g | use g = .dir} = insert s.kpgdir ((fun i => (s.procs i).pgdir) '' {i | Live s i}) := by
    ext g
    rw [Set.mem_ofPred_eq, h.dirs g, Set.mem_insert_iff, Set.mem_image]
    rfl
  have hnot : s.kpgdir ∉ (fun i => (s.procs i).pgdir) '' {i | Live s i} := by
    rintro ⟨i, hi, hx⟩
    exact h.pgdir_ne i hi hx
  have hinj : Set.InjOn (fun i => (s.procs i).pgdir) {i | Live s i} := fun i hi j hj hx =>
    h.pgdir_inj i j hi hj hx
  rw [hset, Set.ncard_insert_of_notMem hnot, hinj.ncard_image]
  rfl

theorem Inv.ncard_kern (h : Inv L lost eager leak s use) :
    {g | use g = .kern}.ncard = leak.ncard + liveCount s := by
  have hset : {g | use g = .kern} = leak ∪ (fun i => (s.procs i).kstack) '' {i | Live s i} := by
    ext g
    rw [Set.mem_ofPred_eq, h.kstacks g]
    rfl
  have hdisj : Disjoint leak ((fun i => (s.procs i).kstack) '' {i | Live s i}) := by
    rw [Set.disjoint_left]
    rintro g hg ⟨i, hi, rfl⟩
    exact h.kstack_ne i hi hg
  have hinj : Set.InjOn (fun i => (s.procs i).kstack) {i | Live s i} := fun i hi j hj hx =>
    h.kstack_inj i j hi hj hx
  rw [hset, Set.ncard_union_eq hdisj, hinj.ncard_image]
  rfl

theorem Inv.ncard_table (h : Inv L lost eager leak s use) :
    {g | ∃ d i, use g = .table d i}.ncard = 12 * (liveCount s + 1) := by
  let code : Page → Page × Index := fun g =>
    match use g with
    | .table d i => (d, i)
    | _ => (0#20, 0#10)
  have hcode : ∀ {g d i}, use g = .table d i → code g = (d, i) := fun hg => by simp only [code, hg]
  have himage : code '' {g | ∃ d i, use g = .table d i} = {g | use g = .dir} ×ˢ {i | KernelIndex i} := by
    ext ⟨d, i⟩
    rw [Set.mem_image, Set.mem_prod]
    constructor
    · rintro ⟨g, ⟨d', i', hg⟩, hx⟩
      rw [hcode hg] at hx
      obtain ⟨rfl, rfl⟩ := Prod.mk.inj hx
      have hd := (h.owned.frames.table g d' i' hg).1
      exact ⟨hd, (h.complete d' hd i').1 ⟨g, hg⟩⟩
    · rintro ⟨hd, hi⟩
      obtain ⟨t, ht⟩ := (h.complete d hd i).2 hi
      exact ⟨t, ⟨d, i, ht⟩, hcode ht⟩
  have hinj : Set.InjOn code {g | ∃ d i, use g = .table d i} := by
    rintro g ⟨d, i, hg⟩ g' ⟨d', i', hg'⟩ hx
    rw [hcode hg, hcode hg'] at hx
    obtain ⟨rfl, rfl⟩ := Prod.mk.inj hx
    exact h.owned.frames.table_unique hg' hg
  rw [← hinj.ncard_image, himage, Set.ncard_prod, h.ncard_dir, ncard_kernelIndex, mul_comm]

/-- Every frame of the allocator has one use. -/
theorem Inv.count (h : Inv L lost eager leak s use) :
    freeCount use + userCount use + leak.ncard + liveCount s + 13 * (liveCount s + 1) =
      {g | use g ≠ .reserved}.ncard := by
  have hset : {g | use g ≠ .reserved} = {g | use g = .free} ∪ ({g | use g = .user} ∪
      ({g | use g = .kern} ∪ ({g | use g = .dir} ∪ {g | ∃ d i, use g = .table d i}))) := by
    ext g
    simp only [Set.mem_ofPred_eq, Set.mem_union]
    cases use g <;> simp
  have hdisj : ∀ {A B : Set Page}, (∀ g ∈ A, g ∉ B) → Disjoint A B := fun hx => Set.disjoint_left.2 hx
  rw [hset, Set.ncard_union_eq (hdisj ?_), Set.ncard_union_eq (hdisj ?_), Set.ncard_union_eq (hdisj ?_),
    Set.ncard_union_eq (hdisj ?_), h.ncard_kern, h.ncard_dir, h.ncard_table]
  · unfold freeCount userCount
    omega
  all_goals
    intro g hg
    simp only [Set.mem_ofPred_eq, Set.mem_union] at hg ⊢
    simp [hg]

theorem ncard_isUser : {v : Page | IsUser v}.ncard = 160 := by
  have hset : BitVec.toNat '' {v : Page | IsUser v} = ((Finset.range 160 : Finset ℕ) : Set ℕ) := by
    ext n
    simp only [Set.mem_image, Set.mem_ofPred_eq, IsUser, Finset.coe_range, Set.mem_Iio]
    constructor
    · rintro ⟨v, hv, rfl⟩
      exact hv
    · intro hn
      have hnat : (BitVec.ofNat 20 n).toNat = n := by
        rw [BitVec.toNat_ofNat]
        omega
      exact ⟨BitVec.ofNat 20 n, by omega, hnat⟩
  rw [← Set.ncard_image_of_injective _ (fun a b => BitVec.eq_of_toNat_eq), hset, Set.ncard_coe_finset,
    Finset.card_range]

/-- A process has at most 160 pages. -/
theorem Inv.userCount_le (h : Inv L lost eager leak s use) : userCount use ≤ liveCount s * 160 := by
  let code : Slot × Page → Page := fun k =>
    (frame (userTable s.mem use) ((s.procs k.1).pgdir, k.2)).getD 0#20
  have hsub : {g | use g = .user} ⊆ code '' ({i | Live s i} ×ˢ {v | IsUser v}) := by
    intro g hg
    obtain ⟨⟨d, v⟩, hk⟩ := h.owned.counts.used g hg
    obtain ⟨b, hb⟩ := frame_eq_some_iff.1 hk
    obtain ⟨hd, hv, -⟩ := h.owned.counts.entry d v g b hb
    cases (h.dirs d).1 hd with
    | inl hx =>
      rw [hx, h.kernel v] at hb
      cases hb
    | inr hx =>
      obtain ⟨i, hi, rfl⟩ := hx
      refine ⟨(i, v), ⟨hi, hv⟩, ?_⟩
      simp only [code, hk, Option.getD_some]
  calc userCount use ≤ (code '' ({i | Live s i} ×ˢ {v | IsUser v})).ncard := Set.ncard_le_ncard hsub
    _ ≤ ({i | Live s i} ×ˢ {v | IsUser v}).ncard := Set.ncard_image_le
    _ = liveCount s * 160 := by rw [Set.ncard_prod, ncard_isUser]; rfl

end SystemsProjects.Cow
