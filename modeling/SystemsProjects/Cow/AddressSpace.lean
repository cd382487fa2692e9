import SystemsProjects.Cow.Uvm

/-!
# Address spaces

What the functions of `vm.c` that `proc.c` calls do as a whole: growing and shrinking (`allocuvm`,
`deallocuvm`), giving up (`freevm`) and copying an address space (`cowuvm`, `copyuvm`).
-/

namespace SystemsProjects.Cow

open Sharing

variable {L : Layout} {lost : Word} {s s' s'' : Mem} {use use' use'' : Page → Use}
  {f g d p t tp td v a : Page} {i : Index} {b : Bool} {oldsz newsz sz : Word}

/-- The page directory `d` has the page tables that `setupkvm` makes. -/
def Complete (use : Page → Use) (d : Page) : Prop := ∀ i, (∃ t, use t = .table d i) ↔ KernelIndex i

theorem Complete.exists_table (h : Complete use d) : ∃ t, use t = .table d 0#10 :=
  (h 0#10).2 (Or.inl (by decide))

theorem Complete.keeps (h : Complete use d) (hk : Keeps use use') : Complete use' d := by
  intro i
  rw [← h i]
  exact exists_congr fun t => hk.eq_iff (by simp) (by simp)

/-- The entries of `d` for the user pages from `m` up to `n`. -/
def span (d : Page) (m n : ℕ) : Set (Page × Page) := {k | k.1 = d ∧ m ≤ k.2.toNat ∧ k.2.toNat < n}

theorem mem_span {m n : ℕ} : (d, v) ∈ span d m n ↔ m ≤ v.toNat ∧ v.toNat < n :=
  ⟨fun h => h.2, fun h => ⟨rfl, h⟩⟩

theorem toNat_USERTOP : USERTOP.toNat = 160 * 4096 := rfl

theorem pagesBelow_le (h : sz ≤ USERTOP) : pagesBelow sz ≤ 160 := by
  unfold pagesBelow PGSIZE
  have : sz.toNat ≤ USERTOP.toNat := h
  rw [toNat_USERTOP] at this
  omega

theorem toNat_pgRoundUp (h : sz ≤ USERTOP) : (pgRoundUp sz).toNat = pagesBelow sz := by
  unfold pgRoundUp pagesBelow PGSIZE
  have : sz.toNat ≤ USERTOP.toNat := h
  rw [toNat_USERTOP] at this
  rw [toNat_pageOf, BitVec.toNat_add, BitVec.toNat_ofNat]
  omega

theorem pagesBelow_mono (h : oldsz ≤ newsz) : pagesBelow oldsz ≤ pagesBelow newsz := by
  unfold pagesBelow PGSIZE
  have : oldsz.toNat ≤ newsz.toNat := h
  omega

theorem rows_eq_span (hold : oldsz ≤ USERTOP) (h : pagesBelow oldsz ≤ pagesBelow newsz) :
    rows d (pgRoundUp oldsz) (pagesBelow newsz - (pgRoundUp oldsz).toNat) =
      span d (pagesBelow oldsz) (pagesBelow newsz) := by
  unfold rows span
  rw [toNat_pgRoundUp hold, Nat.add_sub_cancel' h]

/-! ## Growing and shrinking -/

/-- `deallocuvm` unmaps the pages from `newsz` to `oldsz`. -/
theorem Owned.deallocuvm_eq_ok (h : Owned L lost s use) (ht : use t = .table d 0#10)
    (hlt : newsz < oldsz) (hle : oldsz ≤ USERTOP) :
    ∃ s' use', deallocuvm L d oldsz newsz s = .ok (newsz, s') ∧ Owned L lost s' use' ∧
      Only (span d (pagesBelow newsz) (pagesBelow oldsz)) s use s' use' ∧
      (∀ k ∈ span d (pagesBelow newsz) (pagesBelow oldsz), userTable s' use' k = none) ∧
      (∀ g, use' g = use g ∨ use g = .user ∧ use' g = .free) ∧ s'.oom = s.oom := by
  have hle' : newsz ≤ USERTOP := BitVec.le_trans (BitVec.le_of_lt hlt) hle
  have hmono := pagesBelow_mono (BitVec.le_of_lt hlt)
  have hup := pagesBelow_le hle
  obtain ⟨s', use', hs', h', honly, hnone, htags, hoom⟩ := h.freeLoop_eq_ok
    (n := pagesBelow oldsz - (pgRoundUp newsz).toNat) (a := pgRoundUp newsz) ht
    (by rw [toNat_pgRoundUp hle']; omega)
  rw [rows_eq_span hle' hmono] at honly hnone
  refine ⟨s', use', ?_, h', honly, hnone, htags, hoom⟩
  unfold deallocuvm
  rw [if_neg (BitVec.not_le.2 hlt), hs']
  rfl

/-- `allocuvm` maps zeroed pages from `oldsz` to `newsz`, or nothing if the memory runs out. -/
theorem Owned.allocuvm_cases (h : Owned L lost s use) (ht : use t = .table d 0#10)
    (hle : oldsz ≤ newsz) (hup : newsz ≤ USERTOP)
    (hempty : ∀ k ∈ span d (pagesBelow oldsz) (pagesBelow newsz), userTable s use k = none) :
    ∃ sz s' use', allocuvm L d oldsz newsz s = .ok (sz, s') ∧ Owned L lost s' use' ∧
      Only (span d (pagesBelow oldsz) (pagesBelow newsz)) s use s' use' ∧
      (sz = newsz ∧ s'.oom = s.oom ∧ (∀ k ∈ span d (pagesBelow oldsz) (pagesBelow newsz),
        (∃ f, userTable s' use' k = some (f, true)) ∧ view s' use' k = some (fun _ => 0#32)) ∨
      sz = 0#32 ∧ s'.oom = true ∧
        ∀ k ∈ span d (pagesBelow oldsz) (pagesBelow newsz), userTable s' use' k = none) := by
  have hold : oldsz ≤ USERTOP := BitVec.le_trans hle hup
  have hmono := pagesBelow_mono hle
  have h160 := pagesBelow_le hup
  have hrows := rows_eq_span (d := d) hold hmono
  obtain ⟨ok, s₁, use₁, hs₁, h₁, honly₁, htrue, hfalse⟩ := h.allocLoop_cases
    (n := pagesBelow newsz - (pgRoundUp oldsz).toNat) (a := pgRoundUp oldsz) ht
    (by rw [toNat_pgRoundUp hold]; omega) (by rwa [hrows])
  rw [hrows] at honly₁ htrue
  have hrun : allocuvm L d oldsz newsz s = (if ok then .ok (newsz, s₁)
      else (deallocuvm L d newsz oldsz s₁).map fun r => (0#32, r.2)) := by
    unfold allocuvm allocuvmWith
    rw [if_neg (BitVec.not_lt.2 hup), if_neg (BitVec.not_lt.2 hle), ← allocPage, hs₁]
    rfl
  cases ok with
  | true => exact ⟨newsz, s₁, use₁, by rw [hrun]; rfl, h₁, honly₁, Or.inl ⟨rfl, htrue rfl⟩⟩
  | false =>
    have hoom₁ := hfalse rfl
    by_cases hlt : oldsz < newsz
    · have ht₁ : use₁ t = .table d 0#10 := by
        rw [honly₁.keeps.of_ne (by simp [ht]) (by simp [ht]), ht]
      obtain ⟨s₂, use₂, hs₂, h₂, honly₂, hnone₂, -, hoom₂⟩ := h₁.deallocuvm_eq_ok ht₁ hlt hup
      refine ⟨0#32, s₂, use₂, by rw [hrun, hs₂]; rfl, h₂, ?_, Or.inr ⟨rfl, hoom₂.trans hoom₁, hnone₂⟩⟩
      exact (honly₁.trans honly₂).mono (Set.union_self _).subset
    · -- nothing was to be mapped
      have heq : oldsz = newsz := BitVec.le_antisymm hle (BitVec.not_lt.1 hlt)
      subst heq
      refine ⟨0#32, s₁, use₁, ?_, h₁, honly₁, Or.inr ⟨rfl, hoom₁, fun k hk => ?_⟩⟩
      · rw [hrun]
        unfold deallocuvm
        rw [if_pos (BitVec.le_refl _)]
        rfl
      · have := hk.2
        omega

/-! ## freevm -/

/-- The uses after the page tables from index `i` on have been freed. -/
def freedFrom (pd : PageData) (i : ℕ) (use : Page → Use) : Page → Use := fun g =>
  if ∃ j : Index, i ≤ j.toNat ∧ pd j = pdeFor g then .free else use g

/-- The loop of `freevm` over a page directory that is no longer in use. -/
theorem Owned.freeTables_eq_ok : ∀ {n i : ℕ} {s : Mem} {use : Page → Use}, Owned L lost s use →
    i + n = 1024 →
    (∀ j : Index, i ≤ j.toNat → s.page d j = 0#32 ∨ ∃ t, s.page d j = pdeFor t ∧ use t = .kern ∧ t ≠ d) →
    (∀ (j j' : Index) (t : Page), s.page d j = pdeFor t → s.page d j' = pdeFor t → j = j') →
      ∃ s', freeTables L d n (BitVec.ofNat 10 i) s = .ok s' ∧
        Owned L lost s' (freedFrom (s.page d) i use) ∧
        userTable s' (freedFrom (s.page d) i use) = userTable s use ∧
        (∀ g, use g ≠ .kern → s'.page g = s.page g) ∧ s'.oom = s.oom
  | 0, i, s, use, h, hi, _, _ => by
    have hsame : freedFrom (s.page d) i use = use := by
      funext g
      unfold freedFrom
      rw [if_neg]
      rintro ⟨j, hj, -⟩
      have := j.isLt
      omega
    rw [hsame]
    exact ⟨s, rfl, h, rfl, fun _ _ => rfl, rfl⟩
  | n + 1, i, s, use, h, hi, hpd, hinj => by
    have hnat : (BitVec.ofNat 10 i).toNat = i := by
      rw [BitVec.toNat_ofNat]
      omega
    have hnext : BitVec.ofNat 10 i + 1#10 = BitVec.ofNat 10 (i + 1) := by
      rw [BitVec.ofNat_add]
    have hsplit : ∀ j : Index, i ≤ j.toNat ↔ j = BitVec.ofNat 10 i ∨ i + 1 ≤ j.toNat := by
      intro j
      rw [← BitVec.toNat_inj, hnat]
      omega
    rw [freeTables, hnext]
    cases hpd (BitVec.ofNat 10 i) hnat.ge with
    | inl h0 =>
      have hsame : freedFrom (s.page d) i use = freedFrom (s.page d) (i + 1) use := by
        funext g
        unfold freedFrom
        congr 1
        apply propext
        constructor
        · rintro ⟨j, hj, hg⟩
          cases (hsplit j).1 hj with
          | inl hji =>
            rw [hji, h0] at hg
            exact absurd hg.symm (pdeFor_ne_zero g)
          | inr hji => exact ⟨j, hji, hg⟩
        · rintro ⟨j, hj, hg⟩
          exact ⟨j, by omega, hg⟩
      rw [h0, has_zero, if_neg Bool.false_ne_true, hsame]
      exact h.freeTables_eq_ok (n := n) (i := i + 1) (by omega) (fun j hj => hpd j (by omega)) hinj
    | inr h1 =>
      obtain ⟨t, hpt, ht, htd⟩ := h1
      obtain ⟨s₁, hs₁, h₁, hT₁, hpages₁, hoom₁⟩ := h.kfree_kern ht
      have hd₁ : s₁.page d = s.page d := hpages₁ d htd.symm
      have hne : ∀ j : Index, i + 1 ≤ j.toNat → ∀ t', s.page d j = pdeFor t' → t' ≠ t := by
        rintro j hj t' hjt rfl
        have := hinj j _ t' hjt hpt
        rw [this, hnat] at hj
        omega
      obtain ⟨s₂, hs₂, h₂, hT₂, hpages₂, hoom₂⟩ := h₁.freeTables_eq_ok (n := n) (i := i + 1)
        (by omega)
        (fun j hj => by
          rw [hd₁]
          cases hpd j (by omega) with
          | inl h0 => exact Or.inl h0
          | inr h1 =>
            obtain ⟨t', hpt', ht', htd'⟩ := h1
            exact Or.inr ⟨t', hpt', by rw [Function.update_of_ne (hne j hj t' hpt'), ht'], htd'⟩)
        (by rwa [hd₁])
      have hsame : freedFrom (s.page d) i use =
          freedFrom (s₁.page d) (i + 1) (Function.update use t .free) := by
        funext g
        unfold freedFrom
        rw [hd₁]
        by_cases hg : ∃ j : Index, i + 1 ≤ j.toNat ∧ s.page d j = pdeFor g
        · obtain ⟨j, hj, hjg⟩ := hg
          rw [if_pos ⟨j, by omega, hjg⟩, if_pos ⟨j, hj, hjg⟩]
        · rw [if_neg hg]
          by_cases hgt : g = t
          · rw [hgt, Function.update_self, if_pos ⟨_, hnat.ge, hpt⟩]
          · rw [Function.update_of_ne hgt, if_neg]
            rintro ⟨j, hj, hjg⟩
            cases (hsplit j).1 hj with
            | inl hji =>
              rw [hji, hpt] at hjg
              exact hgt (pdeFor_injective hjg).symm
            | inr hji => exact hg ⟨j, hji, hjg⟩
      rw [hpt, has_pdeFor_P, if_pos rfl, pageOf_pdeFor, hs₁, hsame]
      refine ⟨s₂, hs₂, h₂, by rw [hT₂, hT₁], fun g hg => ?_, hoom₂.trans hoom₁⟩
      have hgt : g ≠ t := by
        rintro rfl
        exact hg ht
      rw [hpages₂ g (by rwa [Function.update_of_ne hgt]), hpages₁ g hgt]

/-- The memory after an address space has been given up. -/
structure Freed (L : Layout) (lost : Word) (s : Mem) (use : Page → Use) (d : Page) (s' : Mem)
    (use' : Page → Use) : Prop where
  owned : Owned L lost s' use'
  freed : ∀ g, g = d ∨ (∃ i, use g = .table d i) → use' g = .free
  tags : ∀ g, g ≠ d → (∀ i, use g ≠ .table d i) →
    use' g = use g ∨ use g = .user ∧ use' g = .free
  entries : ∀ k, k.1 ≠ d → userTable s' use' k = userTable s use k
  views : ∀ k, k.1 ≠ d → view s' use' k = view s use k
  oom : s'.oom = s.oom

/-- The uses other than of free and user frames. -/
theorem Freed.eq_iff (h : Freed L lost s use d s' use') {u : Use} (hf : u ≠ .free) (hu : u ≠ .user) :
    use' g = u ↔ use g = u ∧ g ≠ d ∧ ∀ i, use g ≠ .table d i := by
  by_cases hg : g = d ∨ ∃ i, use g = .table d i
  · rw [h.freed g hg]
    refine iff_of_false (Ne.symm hf) ?_
    rintro ⟨-, hgd, hgt⟩
    cases hg with
    | inl hx => exact hgd hx
    | inr hx =>
      obtain ⟨i, hx⟩ := hx
      exact hgt i hx
  · rw [not_or, not_exists] at hg
    cases h.tags g hg.1 hg.2 with
    | inl hx => simp [hx, hg.1, hg.2]
    | inr hx =>
      refine iff_of_false ?_ ?_
      · rintro rfl
        exact hf hx.2
      · rintro ⟨rfl, -⟩
        exact hu hx.1

/-- The other page directories are kept. -/
theorem Freed.dir_iff (h : Freed L lost s use d s' use') : use' g = .dir ↔ use g = .dir ∧ g ≠ d := by
  rw [h.eq_iff (by simp) (by simp)]
  refine and_congr_right fun hg => and_iff_left fun i => ?_
  rw [hg]
  simp

/-- What is no part of the address space is kept. -/
theorem Freed.eq_iff_of_ne (h : Freed L lost s use d s' use') (hd : use d = .dir) {u : Use} (hf : u ≠ .free)
    (hu : u ≠ .user) (hdir : u ≠ .dir) (ht : ∀ i, u ≠ .table d i) : use' g = u ↔ use g = u := by
  rw [h.eq_iff hf hu]
  refine and_iff_left_of_imp fun hg => ⟨?_, fun i hi => ht i (hg.symm.trans hi)⟩
  rintro rfl
  exact hdir (hg.symm.trans hd)

/-- The entries of a page directory are those of its page tables. -/
theorem Owned.exists_pde_iff (h : Owned L lost s use) (hd : use d = .dir) (g : Page) :
    (∃ j : Index, 0 ≤ j.toNat ∧ s.page d j = pdeFor g) ↔ ∃ i, use g = .table d i := by
  constructor
  · rintro ⟨j, -, hj⟩
    exact ⟨j, h.frames.table_of_pde hd hj⟩
  · rintro ⟨i, hi⟩
    exact ⟨i, Nat.zero_le _, (h.frames.table g d i hi).2⟩

/-- The page tables and the page directory of an address space without pages are given back. -/
theorem Owned.freeDirectory_eq_ok (h : Owned L lost s use) (hd : use d = .dir)
    (hempty : ∀ v, userTable s use (d, v) = none) :
    ∃ s' use', ((freeTables L d 1024 0#10 s).bind fun s => kfree L d s) = .ok s' ∧ Owned L lost s' use' ∧
      (∀ g, g = d ∨ (∃ i, use g = .table d i) → use' g = .free) ∧
      (∀ g, g ≠ d → (∀ i, use g ≠ .table d i) → use' g = use g) ∧
      userTable s' use' = userTable s use ∧ (∀ g, use g = .user → s'.page g = s.page g) ∧ s'.oom = s.oom := by
  have htable := h.exists_pde_iff hd
  obtain ⟨h₁, hT₁⟩ := h.retire hd hempty
  have hkern : ∀ t i, use t = .table d i → retired use d t = .kern := by
    intro t i hti
    unfold retired
    rw [if_pos (Or.inr ⟨i, hti⟩)]
  obtain ⟨s₂, hs₂, h₂, hT₂, hpages₂, hoom₂⟩ := h₁.freeTables_eq_ok (d := d) (n := 1024) (i := 0) (by rfl)
    (fun j _ => by
      cases h.frames.pde d j hd with
      | inl h0 => exact Or.inl h0
      | inr h1 =>
        obtain ⟨t', ht'⟩ := h1
        refine Or.inr ⟨t', (h.frames.table t' d j ht').2, hkern t' j ht', ?_⟩
        rintro rfl
        simp [hd] at ht')
    (fun j j' t' hj hj' => by
      have htab := h.frames.table_of_pde hd hj
      rw [h.frames.table_of_pde hd hj'] at htab
      exact (Use.table.inj htab).2.symm)
  have hd₂ : freedFrom (s.page d) 0 (retired use d) d = .kern := by
    unfold freedFrom retired
    rw [if_neg, if_pos (Or.inl rfl)]
    intro hx
    obtain ⟨i, hi⟩ := (htable d).1 hx
    simp [hd] at hi
  obtain ⟨s₃, hs₃, h₃, hT₃, hpages₃, hoom₃⟩ := h₂.kfree_kern hd₂
  refine ⟨s₃, _, ?_, h₃, fun g hg => ?_, fun g hgd hgt => ?_, by rw [hT₃, hT₂, hT₁], fun g hu => ?_, by rw [hoom₃, hoom₂]⟩
  · show (freeTables L d 1024 (BitVec.ofNat 10 0) s).bind _ = _
    rw [hs₂]
    exact hs₃
  · by_cases hgd : g = d
    · rw [hgd, Function.update_self]
    · rw [Function.update_of_ne hgd]
      unfold freedFrom
      rw [if_pos ((htable g).2 (hg.resolve_left hgd))]
  · rw [Function.update_of_ne hgd]
    unfold freedFrom
    rw [if_neg fun hx => ((htable g).1 hx).elim hgt, retired_of_ne hgd hgt]
  · have hgd : g ≠ d := by
      rintro rfl
      simp [hd] at hu
    have hur : retired use d g = .user := by
      rw [retired_eq_iff (by simp)]
      exact ⟨hu, hgd, by simp [hu]⟩
    rw [hpages₃ _ hgd, hpages₂ _ (by simp [hur])]

/-- `freevm` gives back the user pages, the page tables and the page directory. -/
theorem Owned.freevm_eq_ok (h : Owned L lost s use) (hd : use d = .dir) (ht : use t = .table d 0#10) :
    ∃ s' use', freevm L d s = .ok s' ∧ Freed L lost s use d s' use' := by
  obtain ⟨s₁, use₁, hs₁, h₁, honly₁, hnone₁, htags₁, hoom₁⟩ :=
    h.deallocuvm_eq_ok ht (show 0#32 < USERTOP by decide) (BitVec.le_refl _)
  have hkeep : ∀ g u, u ≠ .free → u ≠ .user → (use₁ g = u ↔ use g = u) := fun g u hf hu =>
    honly₁.keeps.eq_iff hf hu
  -- the directory has no user entries left
  have hempty : ∀ v, userTable s₁ use₁ (d, v) = none := by
    intro v
    by_cases hv : IsUser v
    · refine hnone₁ (d, v) (mem_span.2 ⟨?_, ?_⟩)
      · exact Nat.zero_le _
      · exact hv
    · cases hT : userTable s₁ use₁ (d, v) with
      | none => rfl
      | some e => exact absurd (h₁.counts.entry d v e.1 e.2 hT).2.1 hv
  obtain ⟨s₂, use₂, hs₂, h₂, hfreed₂, hkept₂, hT₂, hpages₂, hoom₂⟩ :=
    h₁.freeDirectory_eq_ok ((hkeep d _ (by simp) (by simp)).2 hd) hempty
  have hentries : ∀ k, k.1 ≠ d → userTable s₂ use₂ k = userTable s use k := by
    intro k hk
    rw [hT₂, honly₁.entries k fun hx => hk hx.1]
  refine ⟨s₂, use₂, ?_, h₂, fun g hg => hfreed₂ g ?_, fun g hgd hgt => ?_, hentries, fun k hk => ?_, hoom₂.trans hoom₁⟩
  · unfold freevm
    rw [if_neg (h.frames.ne_zero (by simp [hd])), hs₁]
    exact hs₂
  · exact hg.imp_right fun ⟨i, hi⟩ => ⟨i, (hkeep g _ (by simp) (by simp)).2 hi⟩
  · rw [hkept₂ g hgd fun i hi => hgt i ((hkeep g _ (by simp) (by simp)).1 hi)]
    exact htags₁ g
  · rw [← honly₁.views k fun hx => hk hx.1]
    refine view_congr ?_ fun g b hT => ?_
    · rw [hentries k hk, honly₁.entries k fun hx => hk hx.1]
    · exact hpages₂ g (h₁.counts.entry k.1 k.2 g b hT).2.2

/-! ## Copying -/

/-- No page can be read but not written. -/
def AllWritable (T : Table (Page × Page) Page) : Prop := ∀ k f b, T k = some (f, b) → b = true

/-- The page directory `d` is a copy of the first `n` pages of `p`, and no other address space
changes. -/
structure Forked (L : Layout) (lost : Word) (s : Mem) (use : Page → Use) (p : Page) (n : ℕ) (d : Page)
    (s' : Mem) (use' : Page → Use) : Prop where
  owned : Owned L lost s' use'
  fresh : use d = .free
  dir : use' d = .dir
  complete : Complete use' d
  tags : ∀ g, g ≠ d → use' g = use g ∨ (use g = .free ∨ use g = .user) ∧
    (use' g = .free ∨ use' g = .user ∨ ∃ i, use' g = .table d i)
  full : ∀ v, v.toNat < n → view s use (p, v) ≠ none
  child : ∀ v, view s' use' (d, v) = if v.toNat < n then view s use (p, v) else none
  others : ∀ k, k.1 ≠ d → view s' use' k = view s use k
  frames : ∀ k, k.1 ≠ d → frame (userTable s' use') k = frame (userTable s use) k
  oom : s'.oom = s.oom

/-- The address space could not be copied: no address space changes, and free pages may be lost. -/
structure Failed (L : Layout) (lost : Word) (s : Mem) (use : Page → Use) (s' : Mem)
    (use' : Page → Use) : Prop where
  owned : Owned L lost s' use'
  tags : ∀ g, use' g = use g ∨ (use g = .free ∨ use g = .user) ∧
    (use' g = .free ∨ use' g = .user ∨ use' g = .kern)
  entries : ∀ k, userTable s' use' k = userTable s use k
  views : ∀ k, view s' use' k = view s use k
  oom : s'.oom = true

/-- After `cowuvm` parent and child have read-only entries for the same frames. -/
structure Shares (s : Mem) (use : Page → Use) (p : Page) (n : ℕ) (d : Page) (s' : Mem)
    (use' : Page → Use) : Prop where
  shared : ∀ v f b, v.toNat < n → userTable s use (p, v) = some (f, b) →
    userTable s' use' (p, v) = some (f, false) ∧ userTable s' use' (d, v) = some (f, false)
  rest : ∀ v, n ≤ v.toNat → userTable s' use' (d, v) = none
  others : ∀ k, k ∉ span p 0 n → k.1 ≠ d → userTable s' use' k = userTable s use k

theorem rows_zero (n : ℕ) : rows d 0#20 n = span d 0 n := by
  ext k
  simp [rows, span]

theorem NewDir.not_fresh (h : NewDir L lost s use d s' use') (hg : use g ≠ .free) : g ≠ d := by
  rintro rfl
  exact hg h.fresh

theorem NewDir.of_ne_free (h : NewDir L lost s use d s' use') (hg : use g ≠ .free) :
    use' g = use g := by
  cases h.tags g (h.not_fresh hg) with
  | inl hx => exact hx
  | inr hx => exact absurd hx.1 hg

theorem NewDir.views (h : NewDir L lost s use d s' use') (howned : Owned L lost s use)
    (k : Page × Page) : view s' use' k = view s use k := by
  refine view_congr (by rw [h.entries]) fun g b hT => h.pages g ?_
  simp [(howned.counts.entry k.1 k.2 g b hT).2.2]

theorem NewDir.empty (h : NewDir L lost s use d s' use') (v : Page) :
    userTable s' use' (d, v) = none := by
  rw [h.entries]
  unfold userTable
  rw [if_neg (by simp [h.fresh])]

/-- The uses that `setupkvm` does not change. -/
theorem NewDir.eq_iff (h : NewDir L lost s use d s' use') {u : Use} (hf : u ≠ .free) (hd : u ≠ .dir)
    (ht : ∀ i, u ≠ .table d i) : use' g = u ↔ use g = u := by
  by_cases hgd : g = d
  · rw [hgd, h.dir, h.fresh]
    exact iff_of_false (Ne.symm hd) (Ne.symm hf)
  · cases h.tags g hgd with
    | inl hx => rw [hx]
    | inr hx =>
      obtain ⟨hx, i, hi⟩ := hx
      rw [hx, hi]
      exact iff_of_false (Ne.symm (ht i)) (Ne.symm hf)

theorem NewDir.dir_iff (h : NewDir L lost s use d s' use') : use' g = .dir ↔ g = d ∨ use g = .dir := by
  by_cases hgd : g = d
  · rw [hgd]
    exact iff_of_true h.dir (Or.inl rfl)
  · cases h.tags g hgd with
    | inl hx => simp [hx, hgd]
    | inr hx =>
      obtain ⟨hx, i, hi⟩ := hx
      simp [hx, hi, hgd]

theorem NewDir.complete (h : NewDir L lost s use d s' use') {e : Page} (he : use e = .dir)
    (hc : Complete use e) : Complete use' e := by
  intro i
  rw [← hc i]
  refine exists_congr fun t => h.eq_iff (by simp) (by simp) fun j hj => ?_
  exact h.not_fresh (by simp [he]) (Use.table.inj hj).1

theorem Leaked.failed (h : Leaked L lost s use s' use') (howned : Owned L lost s use) :
    Failed L lost s use s' use' := by
  refine ⟨h.owned, fun g => (h.tags g).imp_right fun hx => ⟨Or.inl hx.1, Or.inr (Or.inr hx.2)⟩,
    fun k => by rw [h.entries], fun k => ?_, h.oom⟩
  refine view_congr (by rw [h.entries]) fun g b hT => h.pages g ?_
  simp [(howned.counts.entry k.1 k.2 g b hT).2.2]

/-- A new directory that shares every page of the parent. -/
theorem NewDir.forked_of_shared {s₁ s₂ : Mem} {use₁ : Page → Use} {n : ℕ}
    (hnew : NewDir L lost s use d s₁ use₁) (h : Owned L lost s use) (h₂ : Owned L lost s₂ use₁) (hdp : d ≠ p)
    (hoom : s₂.oom = s₁.oom) (hfull : ∀ k ∈ span p 0 n, userTable s use k ≠ none)
    (hpages : ∀ g, use₁ g = .user → s₂.page g = s₁.page g)
    (hout : ∀ k, k ∉ span p 0 n → k ∉ span d 0 n → userTable s₂ use₁ k = userTable s use k)
    (hin : ∀ v f b, (p, v) ∈ span p 0 n → userTable s use (p, v) = some (f, b) →
      userTable s₂ use₁ (p, v) = some (f, false) ∧ userTable s₂ use₁ (d, v) = some (f, false)) :
    Forked L lost s use p n d s₂ use₁ ∧ Shares s use p n d s₂ use₁ := by
  have hshare : Shares s use p n d s₂ use₁ := by
    refine ⟨fun v f b hv hT => hin v f b (mem_span.2 ⟨Nat.zero_le _, hv⟩) hT, fun v hv => ?_,
      fun k hkp hkd => hout k hkp fun hx => hkd hx.1⟩
    rw [hout (d, v) (fun hx => hdp hx.1) fun hx => absurd hx.2.2 (Nat.not_lt.2 hv), ← hnew.entries]
    exact hnew.empty v
  have huser : ∀ k e, userTable s use k = some e → s₂.page e.1 = s.page e.1 := by
    intro k e hT
    have hu := (h.counts.entry k.1 k.2 e.1 e.2 hT).2.2
    rw [hpages e.1 (by rw [hnew.of_ne_free (by simp [hu]), hu]), hnew.pages e.1 (by simp [hu])]
  -- the entry of the parent before, at a key that is shared
  have hentry : ∀ k ∈ span p 0 n, ∃ v f b, k = (p, v) ∧ v.toNat < n ∧ userTable s use (p, v) = some (f, b) := by
    rintro ⟨e, v⟩ hk
    obtain rfl : e = p := hk.1
    obtain ⟨⟨f, b⟩, hfb⟩ := Option.ne_none_iff_exists'.1 (hfull _ hk)
    exact ⟨v, f, b, rfl, hk.2.2, hfb⟩
  refine ⟨⟨h₂, hnew.fresh, hnew.dir, hnew.tables,
    fun g hg => (hnew.tags g hg).imp_right fun hx => ⟨Or.inl hx.1, Or.inr (Or.inr hx.2)⟩,
    fun v hv => ?_, fun v => ?_, fun k hk => ?_, fun k hk => ?_, hoom.trans hnew.oom⟩, hshare⟩
  · rw [Ne, view_eq_none_iff]
    exact hfull (p, v) (mem_span.2 ⟨Nat.zero_le _, hv⟩)
  · split_ifs with hv
    · obtain ⟨⟨f, b⟩, hfb⟩ := Option.ne_none_iff_exists'.1 (hfull (p, v) (mem_span.2 ⟨Nat.zero_le _, hv⟩))
      rw [view_of_eq_some hfb, view_of_eq_some (hshare.shared v f b hv hfb).2, huser _ _ hfb]
    · rw [view_eq_none_iff]
      exact hshare.rest v (Nat.not_lt.1 hv)
  · by_cases hkp : k ∈ span p 0 n
    · obtain ⟨v, f, b, rfl, hv, hfb⟩ := hentry k hkp
      rw [view_of_eq_some hfb, view_of_eq_some (hshare.shared v f b hv hfb).1, huser _ _ hfb]
    · exact view_congr (hshare.others k hkp hk) fun g b hT => huser k (g, b) hT
  · by_cases hkp : k ∈ span p 0 n
    · obtain ⟨v, f, b, rfl, hv, hfb⟩ := hentry k hkp
      rw [frame_of_eq_some hfb, frame_of_eq_some (hshare.shared v f b hv hfb).1]
    · rw [frame, frame, hshare.others k hkp hk]

/-- `cowuvm` shares the address space, panics if a page of the parent is missing, or finds no memory
for the page tables. -/
theorem Owned.cowuvm_cases (h : Owned L lost s use) (htp : use tp = .table p 0#10)
    (hsz : sz ≤ USERTOP) :
    (cowuvm L p sz s = .error (.panic "cowuvm: page not present") ∧
      ∃ v, v.toNat < pagesBelow sz ∧ view s use (p, v) = none) ∨
    (∃ d s' use', cowuvm L p sz s = .ok (some d, s') ∧
      Forked L lost s use p (pagesBelow sz) d s' use' ∧ Shares s use p (pagesBelow sz) d s' use') ∨
    (∃ s' use', cowuvm L p sz s = .ok (none, s') ∧ Leaked L lost s use s' use') := by
  have hp : use p = .dir := (h.frames.table tp p _ htp).1
  unfold cowuvm uvmWith
  obtain ⟨d, s₁, use₁, hs₁, hnew⟩ | ⟨s', use', hs', hleak⟩ := h.setupkvm_cases
  · rw [hs₁]
    have hdp : d ≠ p := (hnew.not_fresh (by simp [hp])).symm
    have htp₁ : use₁ tp = .table p 0#10 := by rw [hnew.of_ne_free (by simp [htp]), htp]
    obtain ⟨td, htd⟩ := (show Complete use₁ d from hnew.tables).exists_table
    have hloop := hnew.owned.cowLoop_cases (n := pagesBelow sz) (a := 0#20) htp₁ htd hdp
      (by have := pagesBelow_le hsz; simpa using this) fun k hk => by
        rw [show k = (d, k.2) from Prod.ext hk.1 rfl]
        exact hnew.empty k.2
    rw [rows_zero, hnew.entries] at hloop
    obtain ⟨⟨k, hk, hnone⟩, herr⟩ | ⟨s₂, hs₂, h₂, hfull, hout, hin, hpages, hoom⟩ := hloop
    · refine Or.inl ⟨?_, k.2, hk.2.2, ?_⟩
      · show (uvmLoop (cowPage p d) (pagesBelow sz) 0#20 s₁).bind _ = _
        rw [herr]
        rfl
      · rw [view_eq_none_iff, ← hnone, show (p, k.2) = k from Prod.ext hk.1.symm rfl]
    · simp only [rows_zero, hnew.entries] at hfull hout hin
      obtain ⟨hforked, hshares⟩ := hnew.forked_of_shared h h₂ hdp hoom hfull hpages hout hin
      refine Or.inr (Or.inl ⟨d, s₂, use₁, ?_, hforked, hshares⟩)
      show (uvmLoop (cowPage p d) (pagesBelow sz) 0#20 s₁).bind _ = _
      rw [hs₂]
      rfl
  · rw [hs']
    exact Or.inr (Or.inr ⟨s', use', rfl, hleak⟩)

/-- A new directory with a copy of every page of the parent. -/
theorem NewDir.forked_of_copied {s₁ s₂ : Mem} {use₁ use₂ : Page → Use} {n : ℕ}
    (hnew : NewDir L lost s use d s₁ use₁) (h : Owned L lost s use) (h₂ : Owned L lost s₂ use₂)
    (honly : Only (span d 0 n) s₁ use₁ s₂ use₂) (hoom : s₂.oom = s₁.oom)
    (hfull : ∀ k ∈ span p 0 n, userTable s use k ≠ none)
    (hin : ∀ v f b, (p, v) ∈ span p 0 n → userTable s use (p, v) = some (f, b) →
      (∃ g, userTable s₂ use₂ (d, v) = some (g, b)) ∧ view s₂ use₂ (d, v) = view s₁ use₁ (p, v)) :
    Forked L lost s use p n d s₂ use₂ ∧ (AllWritable (userTable s use) → AllWritable (userTable s₂ use₂)) := by
  have hentry : ∀ v : Page, v.toNat < n → ∃ f b, userTable s use (p, v) = some (f, b) := by
    intro v hv
    obtain ⟨⟨f, b⟩, hfb⟩ := Option.ne_none_iff_exists'.1 (hfull (p, v) (mem_span.2 ⟨Nat.zero_le _, hv⟩))
    exact ⟨f, b, hfb⟩
  refine ⟨⟨h₂, hnew.fresh, ?_, Complete.keeps hnew.tables honly.keeps, fun g hg => ?_, fun v hv => ?_,
    fun v => ?_, fun k hk => ?_, fun k hk => ?_, hoom.trans hnew.oom⟩, fun hall k f b hT => ?_⟩
  · rw [honly.keeps.of_ne (by simp [hnew.dir]) (by simp [hnew.dir]), hnew.dir]
  · cases hnew.tags g hg with
    | inl hx =>
      rw [← hx]
      exact (honly.keeps g).imp_right fun hy => ⟨hy.1, hy.2.imp_right Or.inl⟩
    | inr hx =>
      obtain ⟨hfree, i, hi⟩ := hx
      refine Or.inr ⟨Or.inl hfree, Or.inr (Or.inr ⟨i, ?_⟩)⟩
      rw [honly.keeps.of_ne (by simp [hi]) (by simp [hi]), hi]
  · rw [Ne, view_eq_none_iff]
    exact hfull (p, v) (mem_span.2 ⟨Nat.zero_le _, hv⟩)
  · split_ifs with hv
    · obtain ⟨f, b, hfb⟩ := hentry v hv
      rw [(hin v f b (mem_span.2 ⟨Nat.zero_le _, hv⟩) hfb).2, hnew.views h]
    · rw [honly.views _ fun hx => hv hx.2.2, view_eq_none_iff]
      exact hnew.empty v
  · rw [honly.views k fun hx => hk hx.1, hnew.views h]
  · rw [frame, frame, honly.entries k fun hx => hk hx.1, hnew.entries]
  · by_cases hk : k ∈ span d 0 n
    · obtain ⟨e, v⟩ := k
      obtain rfl : e = d := hk.1
      obtain ⟨f', b', hfb⟩ := hentry v hk.2.2
      obtain ⟨⟨g, hg⟩, -⟩ := hin v f' b' (mem_span.2 ⟨Nat.zero_le _, hk.2.2⟩) hfb
      rw [hg] at hT
      rw [← (Prod.mk.inj (Option.some.inj hT)).2]
      exact hall _ _ _ hfb
    · rw [honly.entries k hk, hnew.entries] at hT
      exact hall k f b hT

/-- A new directory that is given up again, with the pages that were copied. -/
theorem NewDir.failed_of_freed {s₁ s₂ : Mem} {use₁ use₂ : Page → Use} {n : ℕ}
    (hnew : NewDir L lost s use d s₁ use₁) (h : Owned L lost s use) (honly : Only (span d 0 n) s₁ use₁ s₂ use₂)
    (hfreed : Freed L lost s₂ use₂ d s' use') (hoom : s₂.oom = true) : Failed L lost s use s' use' := by
  have hviews : ∀ k, k.1 ≠ d → userTable s' use' k = userTable s use k ∧ view s' use' k = view s use k := by
    intro k hk
    rw [hfreed.entries k hk, hfreed.views k hk, honly.entries k fun hx => hk hx.1,
      honly.views k fun hx => hk hx.1, hnew.entries, hnew.views h]
    exact ⟨rfl, rfl⟩
  have hnone : ∀ v, userTable s' use' (d, v) = none ∧ userTable s use (d, v) = none := by
    intro v
    unfold userTable
    rw [if_neg (by simp [hfreed.freed d (Or.inl rfl)]), if_neg (by simp [hnew.fresh])]
    exact ⟨rfl, rfl⟩
  refine ⟨hfreed.owned, fun g => ?_, fun k => ?_, fun k => ?_, hfreed.oom.trans hoom⟩
  · by_cases hg : g = d ∨ ∃ i, use₂ g = .table d i
    · -- the pages of the new directory were free before
      have hfree : use g = .free := by
        by_contra hne
        have hne' : use₁ g = use g := hnew.of_ne_free hne
        cases hg with
        | inl hg => exact hnew.not_fresh hne hg
        | inr hg =>
          obtain ⟨i, hi⟩ := hg
          rw [honly.keeps.eq_iff (by simp) (by simp), hne'] at hi
          have := (h.frames.table g d i hi).1
          rw [hnew.fresh] at this
          cases this
      exact Or.inl (by rw [hfreed.freed g hg, hfree])
    · rw [not_or, not_exists] at hg
      have hg₁ : use₁ g = use g := by
        cases hnew.tags g hg.1 with
        | inl hx => exact hx
        | inr hx =>
          obtain ⟨-, i, hi⟩ := hx
          exact absurd ((honly.keeps.eq_iff (by simp) (by simp)).2 hi) (hg.2 i)
      have hg₂ := honly.keeps g
      rw [hg₁] at hg₂
      cases hfreed.tags g hg.1 hg.2 with
      | inl hx =>
        rw [hx]
        exact hg₂.imp_right fun hy => ⟨hy.1, hy.2.imp_right Or.inl⟩
      | inr hx =>
        refine Or.inr ⟨?_, Or.inl hx.2⟩
        cases hg₂ with
        | inl hy => exact Or.inr (hy.symm.trans hx.1)
        | inr hy => exact hy.1
  · by_cases hk : k.1 = d
    · rw [show k = (d, k.2) from Prod.ext hk rfl, (hnone k.2).1, (hnone k.2).2]
    · exact (hviews k hk).1
  · by_cases hk : k.1 = d
    · rw [show k = (d, k.2) from Prod.ext hk rfl, view_eq_none_iff.2 (hnone k.2).1,
        view_eq_none_iff.2 (hnone k.2).2]
    · exact (hviews k hk).2

/-- `copyuvm` copies the address space, panics if a page of the parent is missing, or runs out of
memory. -/
theorem Owned.copyuvm_cases (h : Owned L lost s use) (htp : use tp = .table p 0#10)
    (hsz : sz ≤ USERTOP) :
    (copyuvm L p sz s = .error (.panic "copyuvm: page not present") ∧
      ∃ v, v.toNat < pagesBelow sz ∧ view s use (p, v) = none) ∨
    (∃ d s' use', copyuvm L p sz s = .ok (some d, s') ∧
      Forked L lost s use p (pagesBelow sz) d s' use' ∧
      (AllWritable (userTable s use) → AllWritable (userTable s' use'))) ∨
    (∃ s' use', copyuvm L p sz s = .ok (none, s') ∧ Failed L lost s use s' use') := by
  have hp : use p = .dir := (h.frames.table tp p _ htp).1
  unfold copyuvm uvmWith
  obtain ⟨d, s₁, use₁, hs₁, hnew⟩ | ⟨s', use', hs', hleak⟩ := h.setupkvm_cases
  · rw [hs₁]
    have hdp : d ≠ p := (hnew.not_fresh (by simp [hp])).symm
    have htp₁ : use₁ tp = .table p 0#10 := by rw [hnew.of_ne_free (by simp [htp]), htp]
    obtain ⟨td, htd⟩ := (show Complete use₁ d from hnew.tables).exists_table
    have hloop := hnew.owned.copyLoop_cases (n := pagesBelow sz) (a := 0#20) htp₁ htd hdp
      (by have := pagesBelow_le hsz; simpa using this) fun k hk => by
        rw [show k = (d, k.2) from Prod.ext hk.1 rfl]
        exact hnew.empty k.2
    rw [rows_zero, rows_zero, hnew.entries] at hloop
    obtain ⟨⟨k, hk, hnone⟩, herr⟩ | ⟨ok, s₂, use₂, hs₂, h₂, honly, htrue, hfalse⟩ := hloop
    · refine Or.inl ⟨?_, k.2, hk.2.2, ?_⟩
      · show (uvmLoop (copyPage p d) (pagesBelow sz) 0#20 s₁).bind _ = _
        rw [herr]
        rfl
      · rw [view_eq_none_iff, ← hnone, show (p, k.2) = k from Prod.ext hk.1.symm rfl]
    · cases ok with
      | true =>
        obtain ⟨hfull, hoom, hin⟩ := htrue rfl
        simp only [rows_zero, hnew.entries] at hfull hin
        obtain ⟨hforked, hall⟩ := hnew.forked_of_copied h h₂ honly hoom hfull hin
        refine Or.inr (Or.inl ⟨d, s₂, use₂, ?_, hforked, hall⟩)
        show (uvmLoop (copyPage p d) (pagesBelow sz) 0#20 s₁).bind _ = _
        rw [hs₂]
        rfl
      | false =>
        have hdir₂ : use₂ d = .dir := by
          rw [honly.keeps.of_ne (by simp [hnew.dir]) (by simp [hnew.dir]), hnew.dir]
        have htd₂ : use₂ td = .table d 0#10 := by
          rw [honly.keeps.of_ne (by simp [htd]) (by simp [htd]), htd]
        obtain ⟨s₃, use₃, hs₃, hfreed⟩ := h₂.freevm_eq_ok hdir₂ htd₂
        refine Or.inr (Or.inr ⟨s₃, use₃, ?_, hnew.failed_of_freed h honly hfreed (hfalse rfl)⟩)
        show (uvmLoop (copyPage p d) (pagesBelow sz) 0#20 s₁).bind _ = _
        rw [hs₂]
        show (freevm L d s₂).map _ = _
        rw [hs₃]
        rfl
  · rw [hs']
    exact Or.inr (Or.inr ⟨s', use', rfl, hleak.failed h⟩)

end SystemsProjects.Cow
