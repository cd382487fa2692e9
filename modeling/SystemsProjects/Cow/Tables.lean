import Mathlib.Order.Interval.Finset.Nat
import SystemsProjects.Cow.Owned

/-!
# Building page tables

What `walkpgdir`, `mappages` and `setupkvm` do to the memory.  A page directory under construction
already satisfies the invariant, so every iteration of `mappages` is a step of `Owned`; a call that
runs out of memory has used up every free frame.
-/

namespace SystemsProjects.Cow

open Sharing

variable {L : Layout} {lost : Word} {s s' s'' : Mem} {use use' use'' : Page → Use}
  {f g d t v a pa : Page} {i : Index} {w perm : Word}

/-- The page table entry of a page, 0 if there is no page table. -/
def pteWord (s : Mem) (d v : Page) : Word := (pteOf s d v).getD 0#32

theorem Frames.no_free (h : Frames L lost s use) (hzero : s.freelist = 0#32) (g : Page) : use g ≠ .free := by
  obtain ⟨l, hchain, -, hmem, -⟩ := h.free
  cases l with
  | nil =>
    intro hg
    exact absurd ((hmem g).2 hg) List.not_mem_nil
  | cons f l => exact absurd (hchain.1.symm.trans hzero) (paddr_ne_zero hchain.2.1)

theorem Owned.no_free (h : Owned L lost s use) (hzero : s.freelist = 0#32) (g : Page) : use g ≠ .free :=
  h.frames.no_free hzero g

/-- Only free frames change, and they become page tables of `d`; nothing else is written but `d` and
its tables. -/
structure Grows (d : Page) (s : Mem) (use : Page → Use) (s' : Mem) (use' : Page → Use) : Prop where
  tags : ∀ g, use' g = use g ∨ use g = .free ∧ ∃ i, use' g = .table d i
  pages : ∀ g, use g ≠ .free → g ≠ d → (∀ i, use g ≠ .table d i) → s'.page g = s.page g
  entries : userTable s' use' = userTable s use

theorem Grows.refl : Grows d s use s use := ⟨fun _ => Or.inl rfl, fun _ _ _ _ => rfl, rfl⟩

theorem Grows.trans (h : Grows d s use s' use') (h' : Grows d s' use' s'' use'') :
    Grows d s use s'' use'' := by
  refine ⟨fun g => ?_, fun g hf hd ht => ?_, h'.entries.trans h.entries⟩
  · cases h'.tags g with
    | inl hg => rw [hg]; exact h.tags g
    | inr hg =>
      cases h.tags g with
      | inl hg' => exact Or.inr ⟨hg'.symm.trans hg.1, hg.2⟩
      | inr hg' =>
        obtain ⟨-, i, hi⟩ := hg'
        rw [hi] at hg
        exact absurd hg.1 (by simp)
  · have hg : use' g = use g := by
      cases h.tags g with
      | inl hg => exact hg
      | inr hg => exact absurd hg.1 hf
    rw [h'.pages g (by rwa [hg]) hd (by rwa [hg]), h.pages g hf hd ht]

theorem Grows.of_ne_free (h : Grows d s use s' use') (hg : use g ≠ .free) : use' g = use g := by
  cases h.tags g with
  | inl hg' => exact hg'
  | inr hg' => exact absurd hg'.1 hg

/-! ## walkpgdir -/

/-- `walkpgdir` where there is no page table yet: the new one is empty. -/
theorem Owned.walkpgdir_create (h : Owned L lost s use) (hd : use d = .dir)
    (ht : ∀ t, use t ≠ .table d (pdx v)) (hne : s.freelist ≠ 0#32) :
    ∃ t s', walkpgdir d v true s = (some (t, ptx v), s') ∧ use t = .free ∧
      Owned L lost s' (Function.update use t (.table d (pdx v))) ∧
      Grows d s use s' (Function.update use t (.table d (pdx v))) ∧
      (∀ v', pteWord s' d v' = pteWord s d v') ∧ s'.oom = s.oom := by
  have hpde : s.page d (pdx v) = 0#32 := by
    cases h.frames.pde d (pdx v) hd with
    | inl h0 => exact h0
    | inr h1 => exact h1.elim fun t h1 => absurd h1 (ht t)
  obtain ⟨t, s₁, hk, htf, h₁, hT₁, hpage, -, hoom⟩ := h.kalloc_eq_some hne
  have hdt : d ≠ t := by
    rintro rfl
    simp [htf] at hd
  obtain ⟨h₂, hT₂⟩ := h₁.setPage (f := t) (Or.inl (by simp)) fun _ => 0#32
  have hdir : Function.update use t .kern d = .dir := by rw [Function.update_of_ne hdt, hd]
  have hpde₂ : (s₁.setPage t fun _ => 0#32).page d (pdx v) = 0#32 := by
    rw [Mem.setPage_page_of_ne _ _ hdt, hpage, hpde]
  obtain ⟨h₃, hT₃⟩ := h₂.addTable (i := pdx v) (t := t) hdir hpde₂ (by simp) (by simp)
  rw [Function.update_idem] at h₃ hT₃
  refine ⟨t, _, ?_, htf, h₃, ⟨fun g => ?_, fun g hg hgd hgt => ?_, ?_⟩, fun v' => ?_, hoom⟩
  · unfold walkpgdir
    simp only [hpde, has_zero, Bool.false_eq_true, if_false, Bool.true_eq_false, hk]
    rfl
  · by_cases hgt : g = t
    · exact Or.inr ⟨hgt ▸ htf, pdx v, by rw [hgt, Function.update_self]⟩
    · exact Or.inl (Function.update_of_ne hgt _ _)
  · have hgt : g ≠ t := by
      rintro rfl
      exact hg htf
    rw [Mem.write_page_of_ne _ _ _ hgd, Mem.setPage_page_of_ne _ _ hgt, hpage]
  · rw [hT₃, hT₂, hT₁]
  · unfold pteWord
    by_cases hv' : pdx v' = pdx v
    · have hnone : pteOf s d v' = none := h.frames.pteOf_eq_none hd fun t => by rw [hv']; exact ht t
      rw [hnone, h₃.frames.pteOf_eq_some (t := t) (by rw [Function.update_self, hv']),
        Mem.write_page_of_ne _ _ _ hdt.symm, Mem.setPage_page_self]
      rfl
    · congr 1
      unfold pteOf
      rw [Mem.write_page_self, Function.update_of_ne hv', Mem.setPage_page_of_ne _ _ hdt, hpage]
      cases h.frames.pde d (pdx v') hd with
      | inl h0 => rw [h0, has_zero]; rfl
      | inr h1 =>
        obtain ⟨t', ht'⟩ := h1
        have htt : t' ≠ t := by
          rintro rfl
          simp [htf] at ht'
        have htd : t' ≠ d := by
          rintro rfl
          simp [hd] at ht'
        rw [(h.frames.table t' d _ ht').2, pageOf_pdeFor, Mem.write_page_of_ne _ _ _ htd,
          Mem.setPage_page_of_ne _ _ htt, hpage]

theorem walkpgdir_create_none (hzero : s.freelist = 0#32) (hpde : s.page d (pdx v) = 0#32) :
    walkpgdir d v true s = (none, { s with oom := true }) := by
  unfold walkpgdir
  simp only [hpde, has_zero, Bool.false_eq_true, if_false, Bool.true_eq_false, kalloc_of_eq_zero hzero]

/-- The three outcomes of `walkpgdir` with `create`: the table exists or is made, or the memory is
used up. -/
theorem Owned.walkpgdir_cases (h : Owned L lost s use) (hd : use d = .dir) (v : Page) :
    (∃ t s' use', walkpgdir d v true s = (some (t, ptx v), s') ∧ use' t = .table d (pdx v) ∧
      Owned L lost s' use' ∧ Grows d s use s' use' ∧ (∀ v', pteWord s' d v' = pteWord s d v') ∧
      (∀ i, (∃ t, use' t = .table d i) ↔ (∃ t, use t = .table d i) ∨ i = pdx v) ∧ s'.oom = s.oom) ∨
    (walkpgdir d v true s = (none, { s with oom := true }) ∧ (∀ g, use g ≠ .free) ∧
      ∀ t, use t ≠ .table d (pdx v)) := by
  by_cases ht : ∃ t, use t = .table d (pdx v)
  · obtain ⟨t, ht⟩ := ht
    refine Or.inl ⟨t, s, use, h.frames.walkpgdir_eq ht true, ht, h, Grows.refl, fun _ => rfl,
      fun i => ⟨Or.inl, ?_⟩, rfl⟩
    rintro (hi | rfl)
    · exact hi
    · exact ⟨t, ht⟩
  · rw [not_exists] at ht
    by_cases hzero : s.freelist = 0#32
    · refine Or.inr ⟨walkpgdir_create_none hzero ?_, h.no_free hzero, ht⟩
      cases h.frames.pde d (pdx v) hd with
      | inl h0 => exact h0
      | inr h1 => exact h1.elim fun t h1 => absurd h1 (ht t)
    · obtain ⟨t, s', hw, htf, h', hgrow, hpte, hoom⟩ := h.walkpgdir_create hd ht hzero
      refine Or.inl ⟨t, s', _, hw, by rw [Function.update_self], h', hgrow, hpte, fun i => ?_, hoom⟩
      constructor
      · rintro ⟨g, hg⟩
        by_cases hgt : g = t
        · rw [hgt, Function.update_self] at hg
          exact Or.inr (Use.table.inj hg).2.symm
        · rw [Function.update_of_ne hgt] at hg
          exact Or.inl ⟨g, hg⟩
      · rintro (⟨g, hg⟩ | rfl)
        · refine ⟨g, ?_⟩
          rw [Function.update_of_ne, hg]
          rintro rfl
          simp [htf] at hg
        · exact ⟨t, by rw [Function.update_self]⟩

/-! ## mappages on the kernel part -/

/-- The pages that `kmap` covers. -/
def KernelPage (v : Page) : Prop := ¬ IsUser v ∧ (v.toNat < 4096 ∨ 0xFE000 ≤ v.toNat)

/-- The indices of the page tables for these pages. -/
def KernelIndex (i : Index) : Prop := i.toNat < 4 ∨ 1016 ≤ i.toNat

theorem KernelPage.index (h : KernelPage v) : KernelIndex (pdx v) := by
  unfold KernelIndex
  rw [toNat_pdx]
  obtain ⟨-, h⟩ := h
  omega

theorem KernelIndex.exists_page (h : KernelIndex i) : ∃ v, KernelPage v ∧ pdx v = i := by
  have hi := i.isLt
  have hv : (BitVec.ofNat 20 (i.toNat * 1024 + 1023)).toNat = i.toNat * 1024 + 1023 := by
    rw [BitVec.toNat_ofNat]
    omega
  refine ⟨BitVec.ofNat 20 (i.toNat * 1024 + 1023), ⟨?_, ?_⟩, ?_⟩
  · unfold IsUser
    omega
  · unfold KernelIndex at h
    omega
  · apply BitVec.eq_of_toNat_eq
    rw [toNat_pdx]
    omega

/-- The construction of the page directory `d` when the pages in `M` have been mapped. -/
structure Progress (L : Layout) (lost : Word) (d : Page) (s₀ : Mem) (use₀ : Page → Use) (M : Set Page)
    (s : Mem) (use : Page → Use) : Prop where
  owned : Owned L lost s use
  dir : use d = .dir
  grows : Grows d s₀ use₀ s use
  kernel : ∀ v ∈ M, KernelPage v
  mapped : ∀ v ∈ M, pageOf (pteWord s d v) = v ∧ has (pteWord s d v) PTE_P = true
  unmapped : ∀ v, v ∉ M → pteWord s d v = 0#32
  tables : ∀ i, (∃ t, use t = .table d i) ↔ ∃ v ∈ M, pdx v = i
  oom : s.oom = s₀.oom

/-- The construction of the page directory `d` has used up the memory. -/
structure Exhausted (L : Layout) (lost : Word) (d : Page) (s₀ : Mem) (use₀ : Page → Use) (s : Mem)
    (use : Page → Use) : Prop where
  owned : Owned L lost s use
  dir : use d = .dir
  grows : Grows d s₀ use₀ s use
  tables : ∀ i t, use t = .table d i → KernelIndex i
  oom : s.oom = true
  none : ∀ g, use g ≠ .free
  missing : ∃ i, KernelIndex i ∧ ∀ t, use t ≠ .table d i

variable {s₀ : Mem} {use₀ : Page → Use} {M : Set Page}

theorem Progress.mapPage (h : Progress L lost d s₀ use₀ M s use) (ha : KernelPage a) (haM : a ∉ M)
    (hperm : has perm PTE_U = false) (hpage : pageOf perm = 0#20) :
    (∃ s' use', mapPage d perm a a s = .ok (true, s') ∧
      Progress L lost d s₀ use₀ (insert a M) s' use') ∨
    (∃ s' use', mapPage d perm a a s = .ok (false, s') ∧ Exhausted L lost d s₀ use₀ s' use') := by
  obtain ⟨t, s₁, use₁, hw, ht, h₁, hg₁, hpte, htab, hoom⟩ | ⟨hw, hfree, hmissing⟩ :=
    h.owned.walkpgdir_cases h.dir a
  · left
    have hd₁ : use₁ d = .dir := by rw [hg₁.of_ne_free (by simp [h.dir]), h.dir]
    have hpt : s₁.page t (ptx a) = 0#32 := by
      have := hpte a
      rw [h.unmapped a haM] at this
      unfold pteWord at this
      rwa [h₁.frames.pteOf_eq_some ht, Option.getD_some] at this
    have hU : has (paddr a ||| perm ||| PTE_P) PTE_U = false := by simp [hperm]
    obtain ⟨h₂, hT₂⟩ := h₁.writeKernel (w := paddr a ||| perm ||| PTE_P) ht ha.1 hU
    have hword : ∀ v, pteWord (s₁.write t (ptx a) (paddr a ||| perm ||| PTE_P)) d v =
        if v = a then paddr a ||| perm ||| PTE_P else pteWord s d v := by
      intro v
      rw [← hpte v]
      unfold pteWord
      rw [h₁.frames.pteOf_write ht _ hd₁]
      by_cases hva : v = a
      · simp [hva]
      · simp [hva]
    have hg₂ : Grows d s₁ use₁ (s₁.write t (ptx a) (paddr a ||| perm ||| PTE_P)) use₁ :=
      ⟨fun _ => Or.inl rfl, fun g _ _ hgt => Mem.write_page_of_ne _ _ _
        (by rintro rfl; exact hgt _ ht), hT₂⟩
    refine ⟨_, use₁, ?_, h₂, hd₁, h.grows.trans (hg₁.trans hg₂), fun v hv => ?_, fun v hv => ?_,
      fun v hv => ?_, fun i => ?_, hoom.trans h.oom⟩
    · unfold Cow.mapPage
      rw [hw]
      simp only [hpt, has_zero, Bool.false_eq_true, if_false]
    · cases hv with
      | inl hv => exact hv ▸ ha
      | inr hv => exact h.kernel v hv
    · rw [hword v]
      by_cases hva : v = a
      · rw [if_pos hva, hva]
        simp [hpage]
      · rw [if_neg hva]
        exact h.mapped v (hv.resolve_left hva)
    · rw [Set.mem_insert_iff, not_or] at hv
      rw [hword v, if_neg hv.1, h.unmapped v hv.2]
    · rw [htab i, h.tables i]
      simp only [Set.mem_insert_iff, exists_eq_or_imp]
      exact ⟨fun hi => hi.elim Or.inr fun hi => Or.inl hi.symm,
        fun hi => hi.elim (fun hi => Or.inr hi.symm) Or.inl⟩
  · right
    obtain ⟨h₁, hT₁⟩ := h.owned.setOom true
    refine ⟨_, use, ?_, h₁, h.dir, h.grows.trans ⟨fun _ => Or.inl rfl, fun _ _ _ _ => rfl, hT₁⟩,
      fun i t ht => ?_, rfl, hfree, pdx a, ha.index, hmissing⟩
    · unfold Cow.mapPage
      rw [hw]
    · obtain ⟨v, hv, rfl⟩ := (h.tables i).1 ⟨t, ht⟩
      exact (h.kernel v hv).index

/-- The pages `a` to `a + n`. -/
def pageRange (a : Page) (n : ℕ) : Set Page := {v | a.toNat ≤ v.toNat ∧ v.toNat ≤ a.toNat + n}

theorem pageRange_zero (a : Page) : pageRange a 0 = {a} := by
  ext v
  simp only [pageRange, Set.mem_ofPred_eq, Set.mem_singleton_iff, Nat.add_zero]
  rw [← BitVec.toNat_inj]
  omega

theorem toNat_add_one {a : Page} {n : ℕ} (h : a.toNat + (n + 1) < 2 ^ 20) :
    (a + 1#20).toNat = a.toNat + 1 := by
  rw [BitVec.toNat_add, BitVec.toNat_ofNat]
  omega

theorem pageRange_succ {a : Page} {n : ℕ} (h : a.toNat + (n + 1) < 2 ^ 20) :
    pageRange a (n + 1) = insert a (pageRange (a + 1#20) n) := by
  ext v
  simp only [pageRange, Set.mem_ofPred_eq, Set.mem_insert_iff, toNat_add_one h]
  rw [← BitVec.toNat_inj]
  omega

theorem Progress.mapLoop (hperm : has perm PTE_U = false) (hpage : pageOf perm = 0#20) :
    ∀ {n : ℕ} {a : Page} {s : Mem} {use : Page → Use} {M : Set Page},
      Progress L lost d s₀ use₀ M s use → a.toNat + n < 2 ^ 20 →
      (∀ v ∈ pageRange a n, KernelPage v ∧ v ∉ M) →
      (∃ s' use', mapLoop d perm n a a s = .ok (true, s') ∧
        Progress L lost d s₀ use₀ (M ∪ pageRange a n) s' use') ∨
      (∃ s' use', mapLoop d perm n a a s = .ok (false, s') ∧ Exhausted L lost d s₀ use₀ s' use')
  | 0, a, s, use, M, h, _, hr => by
    rw [pageRange_zero] at hr ⊢
    rw [Set.union_singleton, Cow.mapLoop]
    exact h.mapPage (hr a rfl).1 (hr a rfl).2 hperm hpage
  | n + 1, a, s, use, M, h, hlt, hr => by
    have hnext := toNat_add_one hlt
    rw [pageRange_succ hlt] at hr ⊢
    have ha := hr a (Set.mem_insert _ _)
    rw [Cow.mapLoop]
    cases h.mapPage ha.1 ha.2 hperm hpage with
    | inl h1 =>
      obtain ⟨s₁, use₁, hs₁, h₁⟩ := h1
      rw [hs₁]
      have := Progress.mapLoop hperm hpage (n := n) (a := a + 1#20) h₁ (by omega) fun v hv => by
        refine ⟨(hr v (Set.mem_insert_of_mem _ hv)).1, ?_⟩
        rw [Set.mem_insert_iff, not_or]
        refine ⟨?_, (hr v (Set.mem_insert_of_mem _ hv)).2⟩
        rintro rfl
        have := hv.1
        omega
      rwa [show insert a M ∪ pageRange (a + 1#20) n = M ∪ insert a (pageRange (a + 1#20) n) by
        rw [Set.insert_union, Set.union_insert]] at this
    | inr h1 =>
      obtain ⟨s₁, use₁, hs₁, h₁⟩ := h1
      rw [hs₁]
      exact Or.inr ⟨s₁, use₁, rfl, h₁⟩

/-- How `mapKernel` ends. -/
def Mapped (L : Layout) (lost : Word) (d : Page) (s₀ : Mem) (use₀ : Page → Use)
    (r : Except Halt (Bool × Mem)) : Prop :=
  (∃ s' use', r = .ok (true, s') ∧ Progress L lost d s₀ use₀ {v | KernelPage v} s' use') ∨
  (∃ s' use', r = .ok (false, s') ∧ Exhausted L lost d s₀ use₀ s' use')

/-- One entry of `kmap`. -/
theorem Progress.mapKernel_cons (h : Progress L lost d s₀ use₀ M s use) {p e : Word}
    {ks : List (Word × Word × Word)} {n : ℕ} (hp : pageOf p = a)
    (he : (pageOf (e - 1#32) - a).toNat = n) (hlt : a.toNat + n < 2 ^ 20)
    (hperm : has perm PTE_U = false) (hpage : pageOf perm = 0#20)
    (hr : ∀ v ∈ pageRange a n, KernelPage v ∧ v ∉ M)
    (rest : ∀ s' use', Progress L lost d s₀ use₀ (M ∪ pageRange a n) s' use' →
      Mapped L lost d s₀ use₀ (mapKernel d ks s')) :
    Mapped L lost d s₀ use₀ (mapKernel d ((p, e, perm) :: ks) s) := by
  have hmap : mappages d p (e - p) (pageOf p) perm s = Cow.mapLoop d perm n a a s := by
    unfold mappages
    rw [show p + (e - p) - 1#32 = e - 1#32 by rw [BitVec.add_comm, BitVec.sub_add_cancel], hp, he]
  rw [mapKernel, hmap]
  cases h.mapLoop hperm hpage hlt hr with
  | inl h1 =>
    obtain ⟨s₁, use₁, hs₁, h₁⟩ := h1
    rw [hs₁]
    exact rest s₁ use₁ h₁
  | inr h1 =>
    obtain ⟨s₁, use₁, hs₁, h₁⟩ := h1
    rw [hs₁]
    exact Or.inr ⟨s₁, use₁, rfl, h₁⟩

theorem Progress.mapKernel_kmap (h : Progress L lost d s₀ use₀ ∅ s use) :
    Mapped L lost d s₀ use₀ (mapKernel d (kmap L) s) := by
  have hd₁ := L.text_lt
  have hd₂ := L.data_le
  have hd₃ := L.kend_lt
  have hlast : (pageOf (paddr L.data - 1#32)).toNat = L.data.toNat - 1 := by
    rw [toNat_pageOf, BitVec.toNat_sub_of_le, toNat_paddr, BitVec.toNat_ofNat]
    · omega
    · rw [BitVec.le_def, toNat_paddr, BitVec.toNat_ofNat]
      omega
  have hsub : ∀ {x y : Page}, x.toNat ≤ y.toNat → (y - x).toNat = y.toNat - x.toNat :=
    fun hxy => BitVec.toNat_sub_of_le hxy
  have h256 : (256#20 : Page).toNat = 256 := rfl
  have h4095 : (pageOf (PHYSTOP - 1#32)).toNat = 4095 := by decide
  unfold kmap
  -- I/O space
  refine h.mapKernel_cons (a := 160#20) (n := 95) (by decide) (by decide) (by decide) (by decide)
    (by decide) (fun v hv => ?_) fun s₁ use₁ h₁ => ?_
  · refine ⟨⟨?_, Or.inl ?_⟩, Set.notMem_empty v⟩ <;> simp only [pageRange, Set.mem_ofPred_eq,
      BitVec.toNat_ofNat, IsUser] at hv ⊢ <;> omega
  -- kernel text
  refine h₁.mapKernel_cons (a := 256#20) (n := L.data.toNat - 257) (by decide) ?_ (by rw [h256]; omega)
    (by decide) (by decide) (fun v hv => ?_) fun s₂ use₂ h₂ => ?_
  · rw [hsub (by rw [hlast, h256]; omega), hlast, h256]
    omega
  · refine ⟨⟨?_, Or.inl ?_⟩, fun hm => ?_⟩ <;> simp only [pageRange, Set.mem_ofPred_eq,
      BitVec.toNat_ofNat, IsUser, Set.empty_union] at * <;> omega
  -- kernel data and physical memory
  refine h₂.mapKernel_cons (a := L.data) (n := 4095 - L.data.toNat) (by simp) ?_ (by omega)
    (by decide) (by decide) (fun v hv => ?_) fun s₃ use₃ h₃ => ?_
  · rw [hsub (by rw [h4095]; omega), h4095]
  · refine ⟨⟨?_, Or.inl ?_⟩, fun hm => ?_⟩ <;> simp only [pageRange, Set.mem_ofPred_eq,
      BitVec.toNat_ofNat, IsUser, Set.empty_union, Set.mem_union] at * <;> omega
  -- devices
  refine h₃.mapKernel_cons (a := 0xFE000#20) (n := 0x1FFF) (by decide) (by decide) (by decide)
    (by decide) (by decide) (fun v hv => ?_) fun s₄ use₄ h₄ => ?_
  · refine ⟨⟨?_, Or.inr ?_⟩, fun hm => ?_⟩ <;> simp only [pageRange, Set.mem_ofPred_eq,
      BitVec.toNat_ofNat, IsUser, Set.empty_union, Set.mem_union] at * <;> omega
  refine Or.inl ⟨s₄, use₄, rfl, ?_⟩
  convert h₄ using 1
  ext v
  have hv := v.isLt
  simp only [pageRange, Set.mem_ofPred_eq, BitVec.toNat_ofNat, Set.empty_union, Set.mem_union,
    KernelPage, IsUser]
  omega

/-! ## setupkvm -/

/-- The memory after `setupkvm` has returned the page directory `d`. -/
structure NewDir (L : Layout) (lost : Word) (s : Mem) (use : Page → Use) (d : Page) (s' : Mem)
    (use' : Page → Use) : Prop where
  owned : Owned L lost s' use'
  fresh : use d = .free
  dir : use' d = .dir
  tags : ∀ g, g ≠ d → use' g = use g ∨ use g = .free ∧ ∃ i, use' g = .table d i
  pages : ∀ g, use g ≠ .free → s'.page g = s.page g
  entries : userTable s' use' = userTable s use
  tables : ∀ i, (∃ t, use' t = .table d i) ↔ KernelIndex i
  kernel : ∀ v, KernelPage v → pageOf (pteWord s' d v) = v
  oom : s'.oom = s.oom

/-- The memory after `setupkvm` has returned 0: the pages it had allocated are lost. -/
structure Leaked (L : Layout) (lost : Word) (s : Mem) (use : Page → Use) (s' : Mem)
    (use' : Page → Use) : Prop where
  owned : Owned L lost s' use'
  tags : ∀ g, use' g = use g ∨ use g = .free ∧ use' g = .kern
  pages : ∀ g, use g ≠ .free → s'.page g = s.page g
  entries : userTable s' use' = userTable s use
  oom : s'.oom = true
  few : {g | use g = .free}.ncard ≤ 12
  exhausted : ∀ g, use' g ≠ .free

theorem ncard_kernelIndex : {i : Index | KernelIndex i}.ncard = 12 := by
  have hset : BitVec.toNat '' {i : Index | KernelIndex i} =
      ((Finset.range 4 ∪ Finset.Ico 1016 1024 : Finset ℕ) : Set ℕ) := by
    ext n
    simp only [Set.mem_image, Set.mem_ofPred_eq, KernelIndex, Finset.coe_union, Finset.coe_range,
      Finset.coe_Ico, Set.mem_union, Set.mem_Iio, Set.mem_Ico]
    constructor
    · rintro ⟨i, hi, rfl⟩
      have := i.isLt
      omega
    · intro hn
      have hnat : (BitVec.ofNat 10 n).toNat = n := by
        rw [BitVec.toNat_ofNat]
        omega
      exact ⟨BitVec.ofNat 10 n, by omega, hnat⟩
  rw [← Set.ncard_image_of_injective _ (fun a b => BitVec.eq_of_toNat_eq), hset, Set.ncard_coe_finset]
  decide

/-- The frames of a page directory and of its page tables at the indices in `I`. -/
theorem Frames.ncard_le_of_indices (h : Frames L lost s use) {A : Set Page} {I : Set Index}
    (hA : ∀ g ∈ A, g = d ∨ ∃ i ∈ I, use g = .table d i) : A.ncard ≤ I.ncard + 1 := by
  let code : Page → Index := fun g =>
    match use g with
    | .table _ i => i
    | _ => 0#10
  have hcode : ∀ g i, use g = .table d i → code g = i := fun g i hg => by simp only [code, hg]
  have hinj : Set.InjOn code (A \ {d}) := by
    rintro g ⟨hg, hgd⟩ g' ⟨hg', hgd'⟩ hgg
    obtain ⟨i, -, hi⟩ := (hA g hg).resolve_left hgd
    obtain ⟨i', -, hi'⟩ := (hA g' hg').resolve_left hgd'
    rw [hcode g i hi, hcode g' i' hi'] at hgg
    exact h.table_unique (hgg ▸ hi') hi
  have hle : (A \ {d}).ncard ≤ I.ncard := by
    apply Set.ncard_le_ncard_of_injOn code _ hinj
    rintro g ⟨hg, hgd⟩
    obtain ⟨i, hiI, hi⟩ := (hA g hg).resolve_left hgd
    rwa [hcode g i hi]
  have := Set.ncard_le_ncard_sdiff_add_ncard A {d}
  rw [Set.ncard_singleton] at this
  omega

/-- The frames of a page directory and of its page tables for kernel pages are 13 at most. -/
theorem Frames.ncard_le (h : Frames L lost s use) {A : Set Page}
    (hA : ∀ g ∈ A, g = d ∨ ∃ i, use g = .table d i ∧ KernelIndex i) : A.ncard ≤ 13 := by
  have hle := h.ncard_le_of_indices (d := d) (A := A) (I := {i | KernelIndex i}) fun g hg =>
    (hA g hg).imp_right fun ⟨i, hi, hik⟩ => ⟨i, hik, hi⟩
  rwa [ncard_kernelIndex] at hle

/-- The page `d` has been taken for a page directory and cleared. -/
structure FreshDir (L : Layout) (lost : Word) (s : Mem) (use : Page → Use) (d : Page) (s₀ : Mem) : Prop where
  fresh : use d = .free
  progress : Progress L lost d s₀ (Function.update use d .dir) ∅ s₀ (Function.update use d .dir)
  noTable : ∀ g i, use g ≠ .table d i
  pages : ∀ g, use g ≠ .free → s₀.page g = s.page g
  entries : userTable s₀ (Function.update use d .dir) = userTable s use
  oom : s₀.oom = s.oom

theorem Owned.freshDir (h : Owned L lost s use) (hne : s.freelist ≠ 0#32) :
    ∃ d s₁, kalloc s = (some d, s₁) ∧ FreshDir L lost s use d (s₁.setPage d fun _ => 0#32) := by
  obtain ⟨d, s₁, hk, hdf, h₁, hT₁, hpage, -, hoom⟩ := h.kalloc_eq_some hne
  obtain ⟨h₂, hT₂⟩ := h₁.setPage (f := d) (Or.inl (by simp)) fun _ => 0#32
  obtain ⟨h₃, hT₃⟩ := h₂.newDir (d := d) (by simp) (by simp)
  rw [Function.update_idem] at h₃ hT₃
  have hnoTable : ∀ g i, use g ≠ .table d i := by
    intro g i hg
    have := (h.frames.table g d i hg).1
    rw [hdf] at this
    cases this
  refine ⟨d, s₁, hk, hdf, ?_, hnoTable, fun g hg => ?_, by rw [hT₃, hT₂, hT₁], hoom⟩
  · refine ⟨h₃, by simp, Grows.refl, by simp, by simp, fun v _ => ?_, fun i => ?_, rfl⟩
    · unfold pteWord pteOf
      rw [Mem.setPage_page_self, has_zero, if_neg Bool.false_ne_true, Option.getD_none]
    · simp only [Set.mem_empty_iff_false, false_and, exists_const, iff_false]
      rintro ⟨t, ht⟩
      have htd : t ≠ d := by
        rintro rfl
        simp at ht
      rw [Function.update_of_ne htd] at ht
      exact hnoTable t i ht
  · rw [Mem.setPage_page_of_ne, hpage]
    rintro rfl
    exact hg hdf

namespace FreshDir

variable {d : Page}

theorem ne (h : FreshDir L lost s use d s₀) {g : Page} (hg : use g ≠ .free) : g ≠ d := by
  rintro rfl
  exact hg h.fresh

/-- A page that was in use has kept its contents. -/
theorem page_eq (h : FreshDir L lost s use d s₀) (hgrows : Grows d s₀ (Function.update use d .dir) s' use')
    {g : Page} (hg : use g ≠ .free) : s'.page g = s.page g := by
  have htag : Function.update use d .dir g = use g := Function.update_of_ne (h.ne hg) _ _
  rw [hgrows.pages g (by rwa [htag]) (h.ne hg) (by rw [htag]; exact h.noTable g), h.pages g hg]

theorem newDir (h : FreshDir L lost s use d s₀)
    (h' : Progress L lost d s₀ (Function.update use d .dir) {v | KernelPage v} s' use') :
    NewDir L lost s use d s' use' := by
  refine ⟨h'.owned, h.fresh, h'.dir, fun g hg => ?_, fun g hg => h.page_eq h'.grows hg, ?_, fun i => ?_,
    fun v hv => (h'.mapped v hv).1, h'.oom.trans h.oom⟩
  · have := h'.grows.tags g
    rwa [Function.update_of_ne hg] at this
  · rw [h'.grows.entries, h.entries]
  · rw [h'.tables i]
    constructor
    · rintro ⟨v, hv, rfl⟩
      exact KernelPage.index hv
    · intro hi
      obtain ⟨v, hv, rfl⟩ := hi.exists_page
      exact ⟨v, hv, rfl⟩

/-- All pages that were free have gone into the directory and its tables. -/
theorem tag_of_free (h' : Exhausted L lost d s₀ (Function.update use d .dir) s' use') {g : Page}
    (hg : use g = .free) : g = d ∨ ∃ i, use' g = .table d i := by
  by_cases hgd : g = d
  · exact Or.inl hgd
  · cases h'.grows.tags g with
    | inl hx => exact absurd (hx.trans ((Function.update_of_ne hgd _ _).trans hg)) (h'.none g)
    | inr hx => exact Or.inr hx.2

theorem leaked (h : FreshDir L lost s use d s₀)
    (h' : Exhausted L lost d s₀ (Function.update use d .dir) s' use') :
    Leaked L lost s use s' (retired use' d) := by
  have hentries : userTable s' use' = userTable s use := by rw [h'.grows.entries, h.entries]
  have hnone : ∀ v, userTable s' use' (d, v) = none := fun v => by
    rw [hentries]
    unfold userTable
    rw [if_neg (by simp [h.fresh])]
  obtain ⟨howned, hT⟩ := h'.owned.retire h'.dir hnone
  refine ⟨howned, fun g => ?_, fun g hg => h.page_eq h'.grows hg, hT.trans hentries, h'.oom, ?_, fun g => ?_⟩
  · by_cases hg : use g = .free
    · refine Or.inr ⟨hg, ?_⟩
      unfold retired
      rw [if_pos (tag_of_free h' hg)]
    · have htag : Function.update use d .dir g = use g := Function.update_of_ne (h.ne hg) _ _
      have huse : use' g = use g := by rw [h'.grows.of_ne_free (by rwa [htag]), htag]
      exact Or.inl (by rw [retired_of_ne (h.ne hg) (by rw [huse]; exact h.noTable g), huse])
  · obtain ⟨i₀, hi₀, hmissing⟩ := h'.missing
    have hle := h'.owned.frames.ncard_le_of_indices (d := d) (A := {g | use g = .free})
      (I := {i | KernelIndex i} \ {i₀}) fun g hg => (tag_of_free h' hg).imp_right fun ⟨i, hi⟩ =>
        ⟨i, ⟨h'.tables i g hi, fun hx => hmissing g (by rw [hi, hx])⟩, hi⟩
    rwa [Set.ncard_sdiff_singleton_of_mem (show i₀ ∈ {i | KernelIndex i} from hi₀), ncard_kernelIndex] at hle
  · unfold retired
    split_ifs
    · simp
    · exact h'.none g

end FreshDir

theorem Owned.setupkvm_cases (h : Owned L lost s use) :
    (∃ d s' use', setupkvm L s = .ok (some d, s') ∧ NewDir L lost s use d s' use') ∨
    (∃ s' use', setupkvm L s = .ok (none, s') ∧ Leaked L lost s use s' use') := by
  by_cases hzero : s.freelist = 0#32
  · right
    obtain ⟨h₁, hT₁⟩ := h.setOom true
    refine ⟨_, use, by rw [setupkvm, kalloc_of_eq_zero hzero], h₁, fun _ => Or.inl rfl,
      fun _ _ => rfl, hT₁, rfl, ?_, h.no_free hzero⟩
    rw [show {g | use g = .free} = ∅ from Set.eq_empty_iff_forall_notMem.2 fun g hg => h.no_free hzero g hg]
    simp
  · obtain ⟨d, s₁, hk, hfresh⟩ := h.freshDir hzero
    cases hfresh.progress.mapKernel_kmap with
    | inl hmapped =>
      obtain ⟨s', use', hs', h'⟩ := hmapped
      exact Or.inl ⟨d, s', use', by rw [setupkvm, hk]; simp only [hs']; rfl, hfresh.newDir h'⟩
    | inr hexhausted =>
      obtain ⟨s', use', hs', h'⟩ := hexhausted
      exact Or.inr ⟨s', retired use' d, by rw [setupkvm, hk]; simp only [hs']; rfl, hfresh.leaked h'⟩

end SystemsProjects.Cow
