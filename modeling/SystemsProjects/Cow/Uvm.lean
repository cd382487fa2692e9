import SystemsProjects.Cow.Tables

/-!
# User memory

What `allocuvm`, `deallocuvm`, `freevm`, `cowuvm` and `copyuvm` do to the table of user entries and to
the pages behind it (`view`).  Each loop is treated by its iteration: `Only K` says that the entries
outside `K`, and what is seen through them, stay as they are.
-/

namespace SystemsProjects.Cow

open Sharing

variable {L : Layout} {lost : Word} {s s' s'' : Mem} {use use' use'' : Page → Use}
  {f g d p t tp td v a pa : Page} {i : Index} {w perm : Word} {b : Bool} {K K' : Set (Page × Page)}

/-- The contents of the page that a directory maps at a user page. -/
def view (s : Mem) (use : Page → Use) (k : Page × Page) : Option PageData :=
  (userTable s use k).map fun e => s.page e.1

theorem view_of_eq_some (h : userTable s use (d, v) = some (f, b)) :
    view s use (d, v) = some (s.page f) := by
  rw [view, h, Option.map_some]

/-- The same entry, with the same page behind it. -/
theorem view_congr {k : Page × Page} (hT : userTable s' use' k = userTable s use k)
    (hpage : ∀ g b, userTable s use k = some (g, b) → s'.page g = s.page g) : view s' use' k = view s use k := by
  unfold view
  rw [hT]
  cases he : userTable s use k with
  | none => rfl
  | some e => rw [Option.map_some, Option.map_some, hpage e.1 e.2 he]

theorem view_eq_none_iff {k : Page × Page} : view s use k = none ↔ userTable s use k = none := by
  simp [view]

/-- Free frames and user frames may change places, all other uses stay. -/
def Keeps (use use' : Page → Use) : Prop :=
  ∀ g, use' g = use g ∨
    (use g = .free ∨ use g = .user) ∧ (use' g = .free ∨ use' g = .user)

theorem Keeps.refl : Keeps use use := fun _ => Or.inl rfl

theorem Keeps.trans (h : Keeps use use') (h' : Keeps use' use'') : Keeps use use'' := by
  intro g
  cases h g with
  | inl hg =>
    cases h' g with
    | inl hg' => exact Or.inl (hg'.trans hg)
    | inr hg' => exact Or.inr (hg ▸ hg')
  | inr hg =>
    cases h' g with
    | inl hg' => exact Or.inr ⟨hg.1, hg' ▸ hg.2⟩
    | inr hg' => exact Or.inr ⟨hg.1, hg'.2⟩

theorem Keeps.of_ne (h : Keeps use use') (hf : use g ≠ .free) (hu : use g ≠ .user) :
    use' g = use g := by
  cases h g with
  | inl hg => exact hg
  | inr hg => exact hg.1.elim (fun hx => absurd hx hf) fun hx => absurd hx hu

theorem Keeps.eq_iff (h : Keeps use use') {u : Use} (hf : u ≠ .free) (hu : u ≠ .user) :
    use' g = u ↔ use g = u := by
  constructor
  · rintro rfl
    cases h g with
    | inl hg => exact hg.symm
    | inr hg => exact hg.2.elim (fun hx => absurd hx hf) fun hx => absurd hx hu
  · rintro rfl
    exact h.of_ne hf hu

theorem Keeps.update (hold : use f = .free ∨ use f = .user) {x : Use} (hnew : x = .free ∨ x = .user) :
    Keeps use (Function.update use f x) := by
  intro g
  by_cases hgf : g = f
  · subst hgf
    exact Or.inr ⟨hold, by rwa [Function.update_self]⟩
  · exact Or.inl (Function.update_of_ne hgf _ _)

/-- Only the entries in `K` change. -/
structure Only (K : Set (Page × Page)) (s : Mem) (use : Page → Use) (s' : Mem) (use' : Page → Use) :
    Prop where
  keeps : Keeps use use'
  entries : ∀ k ∉ K, userTable s' use' k = userTable s use k
  views : ∀ k ∉ K, view s' use' k = view s use k

theorem Only.refl : Only K s use s use := ⟨Keeps.refl, fun _ _ => rfl, fun _ _ => rfl⟩

theorem Only.trans (h : Only K s use s' use') (h' : Only K' s' use' s'' use'') :
    Only (K ∪ K') s use s'' use'' := by
  refine ⟨h.keeps.trans h'.keeps, fun k hk => ?_, fun k hk => ?_⟩
  · rw [Set.mem_union, not_or] at hk
    rw [h'.entries k hk.2, h.entries k hk.1]
  · rw [Set.mem_union, not_or] at hk
    rw [h'.views k hk.2, h.views k hk.1]

theorem Only.mono (h : Only K s use s' use') (hK : K ⊆ K') : Only K' s use s' use' :=
  ⟨h.keeps, fun k hk => h.entries k fun hx => hk (hK hx), fun k hk => h.views k fun hx => hk (hK hx)⟩

/-- One entry is updated, and the pages behind the others stay. -/
theorem Only.of_update {k : Page × Page} {e : Option (Page × Bool)} (hkeeps : Keeps use use')
    (hT : userTable s' use' = Function.update (userTable s use) k e)
    (hpages : ∀ k' g b, k' ≠ k → userTable s use k' = some (g, b) → s'.page g = s.page g) :
    Only {k} s use s' use' := by
  have hentries : ∀ k', k' ≠ k → userTable s' use' k' = userTable s use k' := fun k' hk' => by
    rw [hT, Function.update_of_ne hk']
  exact ⟨hkeeps, hentries, fun k' hk' => view_congr (hentries k' hk') fun g b hg => hpages k' g b hk' hg⟩

/-! ## One page -/

theorem pageOf_add_pgsize (v : Page) : pageOf (paddr v + 4096#32 - 1#32) = v := by
  apply BitVec.eq_of_toNat_eq
  have hv := v.isLt
  have hadd : paddr v + 4096#32 - 1#32 = paddr v + 4095#32 := by
    rw [BitVec.sub_eq_add_neg, BitVec.add_assoc]
    rfl
  rw [hadd, toNat_pageOf, BitVec.toNat_add, toNat_paddr, BitVec.toNat_ofNat]
  omega

/-- `mappages` for a single page. -/
theorem mappages_page (d v pa : Page) (perm : Word) (s : Mem) :
    mappages d (paddr v) 4096#32 pa perm s = mapPage d perm v pa s := by
  unfold mappages
  rw [pageOf_add_pgsize, pageOf_paddr, BitVec.sub_self]
  rfl

/-- `mappages` at a user page that is not mapped. -/
theorem Owned.mappages_eq (h : Owned L lost s use) (ht : use t = .table d (pdx v)) (hv : IsUser v)
    (hempty : userTable s use (d, v) = none) (pa : Page) (perm : Word) :
    mappages d (paddr v) 4096#32 pa perm s =
      .ok (true, s.write t (ptx v) (paddr pa ||| perm ||| PTE_P)) := by
  rw [mappages_page]
  unfold mapPage
  rw [h.frames.walkpgdir_eq ht]
  simp only [h.present_of_entry ht hempty hv, Bool.false_eq_true, if_false]

/-- A zeroed page is mapped, as `allocuvm` and `inituvm` do it. -/
theorem Owned.mapZeroed (h : Owned L lost s use) (ht : use t = .table d (pdx a)) (ha : IsUser a)
    (hempty : userTable s use (d, a) = none) (hne : s.freelist ≠ 0#32) :
    ∃ f s₁ s' use', kalloc s = (some f, s₁) ∧
      mappages d (paddr a) 4096#32 f PTE_WU (s₁.setPage f fun _ => 0#32) = .ok (true, s') ∧
      Owned L lost s' use' ∧ Only {(d, a)} s use s' use' ∧ use f = .free ∧ use' = Function.update use f .user ∧
      userTable s' use' = Function.update (userTable s use) (d, a) (some (f, true)) ∧
      s'.page f = (fun _ => 0#32) ∧ s'.oom = s.oom := by
  obtain ⟨f, s₁, hk, hf, h₁, hT₁, hpage, -, hoom⟩ := h.kalloc_eq_some hne
  obtain ⟨h₂, hT₂⟩ := h₁.setPage (f := f) (Or.inl (by simp)) fun _ => 0#32
  have htf : t ≠ f := by
    rintro rfl
    simp [hf] at ht
  have ht₂ : Function.update use f .kern t = .table d (pdx a) := by
    rw [Function.update_of_ne htf, ht]
  have hempty₂ : userTable (s₁.setPage f fun _ => 0#32) (Function.update use f .kern) (d, a) = none := by
    rw [hT₂, hT₁, hempty]
  have hw : decode (paddr f ||| PTE_WU ||| PTE_P) = some (f, true) := by
    unfold PTE_WU
    rw [decode_eq_some (by simp) (by simp)]
    simp
  obtain ⟨h₃, hT₃⟩ := h₂.map ht₂ ha hempty₂ (by simp) hw
  rw [Function.update_idem] at h₃ hT₃
  rw [hT₂, hT₁] at hT₃
  refine ⟨f, s₁, _, _, hk, h₂.mappages_eq ht₂ ha hempty₂ f PTE_WU, h₃, ?_, hf, rfl, hT₃, ?_, hoom⟩
  · refine Only.of_update (Keeps.update (Or.inl hf) (Or.inr rfl)) hT₃ fun k' g b hk' hg => ?_
    have hgu := (h.counts.entry k'.1 k'.2 g b hg).2.2
    rw [Mem.write_page_of_ne, Mem.setPage_page_of_ne, hpage]
    · rintro rfl
      simp [hf] at hgu
    · rintro rfl
      simp [ht] at hgu
  · rw [Mem.write_page_of_ne _ _ _ htf.symm, Mem.setPage_page_self]

/-- One iteration of `allocuvm`: a zeroed page is mapped, or the memory is used up. -/
theorem Owned.allocPage_cases (h : Owned L lost s use) (ht : use t = .table d (pdx a)) (ha : IsUser a)
    (hempty : userTable s use (d, a) = none) :
    (∃ f s' use', allocPage d a s = .ok (true, s') ∧ Owned L lost s' use' ∧ Only {(d, a)} s use s' use' ∧
      use f = .free ∧ userTable s' use' (d, a) = some (f, true) ∧
      view s' use' (d, a) = some (fun _ => 0#32) ∧ s'.oom = s.oom) ∨
    (allocPage d a s = .ok (false, { s with oom := true }) ∧ s.freelist = 0#32) := by
  by_cases hzero : s.freelist = 0#32
  · exact Or.inr ⟨by rw [allocPage, allocPageWith, kalloc_of_eq_zero hzero], hzero⟩
  · left
    obtain ⟨f, s₁, s', use', hk, hmap, h', honly, hf, -, hT, hpage, hoom⟩ := h.mapZeroed ht ha hempty hzero
    have hentry : userTable s' use' (d, a) = some (f, true) := by rw [hT, Function.update_self]
    refine ⟨f, s', use', ?_, h', honly, hf, hentry, by rw [view_of_eq_some hentry, hpage], hoom⟩
    rw [allocPage, allocPageWith, hk]
    simp only
    rw [hmap]
    rfl

/-- One iteration of `deallocuvm`: the entry is empty afterwards. -/
theorem Owned.freePage_eq_ok (h : Owned L lost s use) (ht : use t = .table d (pdx a)) (ha : IsUser a) :
    ∃ s' use', freePage L d a s = .ok s' ∧ Owned L lost s' use' ∧ Only {(d, a)} s use s' use' ∧
      userTable s' use' (d, a) = none ∧
      (∀ g, use' g = use g ∨ use g = .user ∧ use' g = .free) ∧ s'.oom = s.oom := by
  unfold freePage
  rw [h.frames.walkpgdir_eq ht]
  simp only
  by_cases hP : has (s.page t (ptx a)) PTE_P = true
  · have hentry := h.entry_of_present ht ha hP
    have hfu := (h.counts.entry d a _ _ hentry).2.2
    obtain ⟨s', use', hs', h', hT', htags, hpages, hoom⟩ := h.unmap ht (frame_of_eq_some hentry)
    rw [if_pos hP, if_neg (h.frames.ne_zero (by simp [hfu]))]
    refine ⟨s', use', hs', h', Only.of_update (fun g => ?_) hT' fun k' g b hk' hg => ?_, ?_, htags, hoom⟩
    · exact (htags g).imp_right fun hx => ⟨Or.inr hx.1, Or.inl hx.2⟩
    · apply hpages
      have : userTable s' use' k' = some (g, b) := by rw [hT', Function.update_of_ne hk', hg]
      exact (h'.counts.entry k'.1 k'.2 g b this).2.2
    · rw [hT', Function.update_self]
  · rw [if_neg hP]
    refine ⟨s, use, rfl, h, Only.refl, ?_, fun _ => Or.inl rfl, rfl⟩
    rw [h.entry_eq ht]
    exact decode_eq_none (Or.inl (by simpa using hP))

/-- One iteration of `cowuvm`: parent and child share the frame, read-only. -/
theorem Owned.cowPage_eq_ok (h : Owned L lost s use) (htp : use tp = .table p (pdx v))
    (htd : use td = .table d (pdx v)) (hpd : d ≠ p) (hv : IsUser v)
    (hempty : userTable s use (d, v) = none) (hk : userTable s use (p, v) = some (f, b)) :
    ∃ s', cowPage p d v s = .ok (true, s') ∧ Owned L lost s' use ∧
      userTable s' use = Function.update (Function.update (userTable s use) (p, v) (some (f, false)))
        (d, v) (some (f, false)) ∧
      (∀ g, use g = .user → s'.page g = s.page g) ∧ s'.oom = s.oom := by
  have hdec := h.entry_eq htp
  rw [hk] at hdec
  obtain ⟨hP, hU, he⟩ := decode_eq_some_iff.1 hdec.symm
  obtain ⟨rfl, -⟩ := Prod.mk.inj he
  -- the parent loses its permission
  have hclear : decode (clearW (s.page tp (ptx v))) = some (pageOf (s.page tp (ptx v)), false) := by
    rw [decode_eq_some (by simpa using hP) (by simpa using hU)]
    simp
  obtain ⟨h₁, hT₁⟩ := h.setW htp (frame_of_eq_some hk) hclear (by simp)
  have hne : ((d, v) : Page × Page) ≠ (p, v) := fun hx => hpd (Prod.mk.inj hx).1
  have hempty₁ : userTable (s.write tp (ptx v) (clearW (s.page tp (ptx v)))) use (d, v) = none := by
    rw [hT₁, Function.update_of_ne hne, hempty]
  have hk₁ : userTable (s.write tp (ptx v) (clearW (s.page tp (ptx v)))) use (p, v) =
      some (pageOf (s.page tp (ptx v)), false) := by
    rw [hT₁, Function.update_self]
  -- and the child gets an entry of its own
  have hw : decode (paddr (pageOf (s.page tp (ptx v))) |||
      pteFlags (clearW (s.page tp (ptx v))) ||| PTE_P) = some (pageOf (s.page tp (ptx v)), false) := by
    rw [decode_eq_some (by simp) (by simp [hU])]
    simp
  obtain ⟨h₂, hT₂⟩ := h₁.share hk₁ htd hempty₁ hw
  refine ⟨_, ?_, h₂, by rw [hT₂, hT₁], fun g hg => ?_, rfl⟩
  · unfold cowPage cowPageWith
    rw [h.frames.walkpgdir_eq htp]
    simp only [hP, Bool.true_eq_false, if_false]
    rw [h₁.mappages_eq htd hv hempty₁]
    rfl
  · rw [incPageRef, Mem.write_page_of_ne, Mem.write_page_of_ne]
    · rintro rfl
      simp [htp] at hg
    · rintro rfl
      simp [htd] at hg

/-- One iteration of `copyuvm`: the child gets a copy, or the memory is used up. -/
theorem Owned.copyPage_cases (h : Owned L lost s use) (htd : use td = .table d (pdx v))
    (hp : use p = .dir) (hv : IsUser v) (hempty : userTable s use (d, v) = none)
    (hk : userTable s use (p, v) = some (f, b)) :
    (∃ g s' use', copyPage p d v s = .ok (true, s') ∧ Owned L lost s' use' ∧
      Only {(d, v)} s use s' use' ∧ use g = .free ∧ userTable s' use' (d, v) = some (g, b) ∧
      view s' use' (d, v) = some (s.page f) ∧ s'.oom = s.oom) ∨
    (copyPage p d v s = .ok (false, { s with oom := true }) ∧ s.freelist = 0#32) := by
  have hdec := hk
  unfold userTable at hdec
  rw [if_pos hp] at hdec
  obtain ⟨pte, hpte, hdec⟩ := Option.bind_eq_some_iff.1 hdec
  obtain ⟨hP, hU, he⟩ := decode_eq_some_iff.1 hdec
  obtain ⟨rfl, rfl⟩ := Prod.mk.inj he
  have hpte' : pteOf s p v = some pte := hpte
  unfold copyPage copyPageWith
  rw [hpte']
  simp only [hP, Bool.true_eq_false, if_false]
  by_cases hzero : s.freelist = 0#32
  · exact Or.inr ⟨by rw [kalloc_of_eq_zero hzero], hzero⟩
  · left
    obtain ⟨g, s₁, hkal, hg, h₁, hT₁, hpage, -, hoom⟩ := h.kalloc_eq_some hzero
    obtain ⟨h₂, hT₂⟩ := h₁.setPage (f := g) (Or.inl (by simp)) (s.page (pageOf pte))
    have htg : td ≠ g := by
      rintro rfl
      simp [hg] at htd
    have ht₂ : Function.update use g .kern td = .table d (pdx v) := by
      rw [Function.update_of_ne htg, htd]
    have hempty₂ : userTable (s₁.setPage g (s.page (pageOf pte))) (Function.update use g .kern) (d, v) =
        none := by
      rw [hT₂, hT₁, hempty]
    have hw : decode (paddr g ||| pteFlags pte ||| PTE_P) = some (g, has pte PTE_W) := by
      rw [decode_eq_some (by simp) (by simp [hU])]
      simp
    obtain ⟨h₃, hT₃⟩ := h₂.map ht₂ hv hempty₂ (by simp) hw
    rw [Function.update_idem] at h₃ hT₃
    rw [hT₂, hT₁] at hT₃
    have hentry : userTable ((s₁.setPage g (s.page (pageOf pte))).write td (ptx v)
        (paddr g ||| pteFlags pte ||| PTE_P)) (Function.update use g .user) (d, v) =
          some (g, has pte PTE_W) := by
      rw [hT₃, Function.update_self]
    refine ⟨g, _, _, ?_, h₃, ?_, hg, hentry, ?_, hoom⟩
    · rw [hkal]
      simp only [hpage]
      rw [h₂.mappages_eq ht₂ hv hempty₂]
    · refine Only.of_update (Keeps.update (Or.inl hg) (Or.inr rfl)) hT₃ fun k' g' b hk' hg' => ?_
      have hgu := (h.counts.entry k'.1 k'.2 g' b hg').2.2
      rw [Mem.write_page_of_ne, Mem.setPage_page_of_ne, hpage]
      · rintro rfl
        simp [hg] at hgu
      · rintro rfl
        simp [htd] at hgu
    · rw [view_of_eq_some hentry, Mem.write_page_of_ne _ _ _ htg.symm, Mem.setPage_page_self]

/-! ## Loops -/

/-- The entries of `d` for the `n` pages from `a` on. -/
def rows (d a : Page) (n : ℕ) : Set (Page × Page) :=
  {k | k.1 = d ∧ a.toNat ≤ k.2.toNat ∧ k.2.toNat < a.toNat + n}

theorem mem_rows {n : ℕ} : (d, v) ∈ rows d a n ↔ a.toNat ≤ v.toNat ∧ v.toNat < a.toNat + n :=
  ⟨fun h => h.2, fun h => ⟨rfl, h⟩⟩

theorem toNat_succ_page {n : ℕ} (h : a.toNat + (n + 1) ≤ 160) : (a + 1#20).toNat = a.toNat + 1 := by
  rw [BitVec.toNat_add, BitVec.toNat_ofNat]
  omega

theorem rows_succ {n : ℕ} (h : a.toNat + (n + 1) ≤ 160) :
    rows d a (n + 1) = {(d, a)} ∪ rows d (a + 1#20) n := by
  ext ⟨e, v⟩
  simp only [rows, Set.mem_ofPred_eq, Set.mem_union, Set.mem_singleton_iff, Prod.mk.injEq,
    toNat_succ_page h, ← BitVec.toNat_inj]
  omega

theorem notMem_rows_succ {n : ℕ} (h : a.toNat + (n + 1) ≤ 160) : (d, a) ∉ rows d (a + 1#20) n := by
  rw [mem_rows, toNat_succ_page h]
  omega

theorem isUser_of_lt {n : ℕ} (h : a.toNat + (n + 1) ≤ 160) : IsUser a := by
  unfold IsUser
  omega

/-- The loop of `deallocuvm` empties its range. -/
theorem Owned.freeLoop_eq_ok : ∀ {n : ℕ} {a : Page} {s : Mem} {use : Page → Use},
    Owned L lost s use → use t = .table d 0#10 → a.toNat + n ≤ 160 →
      ∃ s' use', freeLoop L d n a s = .ok s' ∧ Owned L lost s' use' ∧ Only (rows d a n) s use s' use' ∧
        (∀ k ∈ rows d a n, userTable s' use' k = none) ∧
        (∀ g, use' g = use g ∨ use g = .user ∧ use' g = .free) ∧ s'.oom = s.oom
  | 0, a, s, use, h, _, _ => by
    refine ⟨s, use, rfl, h, Only.refl, fun k hk => ?_, fun _ => Or.inl rfl, rfl⟩
    have := hk.2
    omega
  | n + 1, a, s, use, h, ht, hn => by
    have ha := isUser_of_lt hn
    obtain ⟨s₁, use₁, hs₁, h₁, honly₁, hnone₁, htags₁, hoom₁⟩ :=
      h.freePage_eq_ok (by rw [ha.pdx_eq]; exact ht) ha
    have ht₁ : use₁ t = .table d 0#10 := by rw [honly₁.keeps.of_ne (by simp [ht]) (by simp [ht]), ht]
    obtain ⟨s₂, use₂, hs₂, h₂, honly₂, hnone₂, htags₂, hoom₂⟩ :=
      h₁.freeLoop_eq_ok (n := n) (a := a + 1#20) ht₁ (by rw [toNat_succ_page hn]; omega)
    refine ⟨s₂, use₂, ?_, h₂, ?_, fun k hk => ?_, fun g => ?_, hoom₂.trans hoom₁⟩
    · rw [freeLoop, hs₁]
      exact hs₂
    · rw [rows_succ hn]
      exact honly₁.trans honly₂
    · by_cases hk₂ : k ∈ rows d (a + 1#20) n
      · exact hnone₂ k hk₂
      · rw [rows_succ hn] at hk
        obtain rfl := hk.resolve_right hk₂
        rw [honly₂.entries _ hk₂, hnone₁]
    · cases htags₁ g with
      | inl hg => rw [← hg]; exact htags₂ g
      | inr hg =>
        cases htags₂ g with
        | inl hg' => exact Or.inr ⟨hg.1, hg'.trans hg.2⟩
        | inr hg' => rw [hg.2] at hg'; cases hg'.1

/-- The loop of `allocuvm` maps zeroed pages, or uses up the memory. -/
theorem Owned.allocLoop_cases : ∀ {n : ℕ} {a : Page} {s : Mem} {use : Page → Use},
    Owned L lost s use → use t = .table d 0#10 → a.toNat + n ≤ 160 →
      (∀ k ∈ rows d a n, userTable s use k = none) →
      ∃ ok s' use', uvmLoop (allocPage d) n a s = .ok (ok, s') ∧ Owned L lost s' use' ∧
        Only (rows d a n) s use s' use' ∧
        (ok = true → s'.oom = s.oom ∧ ∀ k ∈ rows d a n,
          (∃ f, userTable s' use' k = some (f, true)) ∧ view s' use' k = some (fun _ => 0#32)) ∧
        (ok = false → s'.oom = true)
  | 0, a, s, use, h, _, _, _ => by
    refine ⟨true, s, use, rfl, h, Only.refl, fun _ => ⟨rfl, fun k hk => ?_⟩, by simp⟩
    have := hk.2
    omega
  | n + 1, a, s, use, h, ht, hn, hempty => by
    have ha := isUser_of_lt hn
    have hrows := rows_succ (d := d) hn
    have hemptya : userTable s use (d, a) = none := hempty _ (by rw [hrows]; exact Or.inl rfl)
    cases h.allocPage_cases (by rw [ha.pdx_eq]; exact ht) ha hemptya with
    | inl h1 =>
      obtain ⟨f, s₁, use₁, hs₁, h₁, honly₁, -, hentry₁, hview₁, hoom₁⟩ := h1
      have ht₁ : use₁ t = .table d 0#10 := by
        rw [honly₁.keeps.of_ne (by simp [ht]) (by simp [ht]), ht]
      have hempty₁ : ∀ k ∈ rows d (a + 1#20) n, userTable s₁ use₁ k = none := by
        intro k hk
        rw [honly₁.entries k ?_, hempty k (by rw [hrows]; exact Or.inr hk)]
        rintro rfl
        exact notMem_rows_succ hn hk
      obtain ⟨ok, s₂, use₂, hs₂, h₂, honly₂, htrue, hfalse⟩ :=
        h₁.allocLoop_cases (n := n) (a := a + 1#20) ht₁ (by rw [toNat_succ_page hn]; omega) hempty₁
      refine ⟨ok, s₂, use₂, ?_, h₂, ?_, fun hok => ⟨(htrue hok).1.trans hoom₁, fun k hk => ?_⟩, hfalse⟩
      · rw [uvmLoop, hs₁]
        exact hs₂
      · rw [hrows]
        exact honly₁.trans honly₂
      · by_cases hk₂ : k ∈ rows d (a + 1#20) n
        · exact (htrue hok).2 k hk₂
        · rw [hrows] at hk
          obtain rfl := hk.resolve_right hk₂
          rw [honly₂.entries _ hk₂, honly₂.views _ hk₂]
          exact ⟨⟨f, hentry₁⟩, hview₁⟩
    | inr h1 =>
      obtain ⟨h₁, hT₁⟩ := h.setOom true
      refine ⟨false, _, use, ?_, h₁, ⟨Keeps.refl, fun k _ => by rw [hT₁], fun k _ => ?_⟩, by simp,
        fun _ => rfl⟩
      · rw [uvmLoop, h1.1]
        rfl
      · unfold view
        rw [hT₁]

/-- The `n` pages of the parent from page `a` on are shared with the child. -/
structure PagesShared (p d a : Page) (n : ℕ) (use : Page → Use) (s s' : Mem) : Prop where
  full : ∀ k ∈ rows p a n, userTable s use k ≠ none
  others : ∀ k, k ∉ rows p a n → k ∉ rows d a n → userTable s' use k = userTable s use k
  entries : ∀ v f b, (p, v) ∈ rows p a n → userTable s use (p, v) = some (f, b) →
    userTable s' use (p, v) = some (f, false) ∧ userTable s' use (d, v) = some (f, false)
  pages : ∀ g, use g = .user → s'.page g = s.page g
  oom : s'.oom = s.oom

theorem PagesShared.zero : PagesShared p d a 0 use s s := by
  refine ⟨fun k hk => ?_, fun _ _ _ => rfl, fun v f b hv _ => ?_, fun _ _ => rfl, rfl⟩
  · have := hk.2
    omega
  · have := hv.2
    omega

theorem ne_of_mem_rows_succ {n : ℕ} (hn : a.toNat + (n + 1) ≤ 160) {e e' : Page} {k : Page × Page}
    (hk : k ∈ rows e (a + 1#20) n) : k ≠ (e', a) := by
  rintro rfl
  have := hk.2.1
  rw [toNat_succ_page hn] at this
  simp only at this
  omega

/-- After the first page has been shared, the other ones follow. -/
theorem PagesShared.succ {n : ℕ} (hn : a.toNat + (n + 1) ≤ 160) (hdp : d ≠ p)
    (hfb : userTable s use (p, a) = some (f, b))
    (hT : userTable s' use = Function.update (Function.update (userTable s use) (p, a) (some (f, false)))
      (d, a) (some (f, false)))
    (hpages : ∀ g, use g = .user → s'.page g = s.page g) (hoom : s'.oom = s.oom)
    (h : PagesShared p d (a + 1#20) n use s' s'') : PagesShared p d a (n + 1) use s s'' := by
  have hrowsp := rows_succ (d := p) hn
  have hrowsd := rows_succ (d := d) hn
  have hT' : ∀ k, k ≠ (p, a) → k ≠ (d, a) → userTable s' use k = userTable s use k := by
    intro k hkp hkd
    rw [hT, Function.update_of_ne hkd, Function.update_of_ne hkp]
  refine ⟨fun k hk => ?_, fun k hkp hkd => ?_, fun v g c hv hg => ?_, fun g hg => ?_, h.oom.trans hoom⟩
  · rw [hrowsp] at hk
    cases hk with
    | inl hk => rw [hk, hfb]; simp
    | inr hk =>
      rw [← hT' k (ne_of_mem_rows_succ hn hk) (ne_of_mem_rows_succ hn hk)]
      exact h.full k hk
  · rw [hrowsp, Set.mem_union, not_or] at hkp
    rw [hrowsd, Set.mem_union, not_or] at hkd
    rw [h.others k hkp.2 hkd.2, hT' k hkp.1 hkd.1]
  · by_cases hv₂ : (p, v) ∈ rows p (a + 1#20) n
    · refine h.entries v g c hv₂ ?_
      rw [hT' _ (ne_of_mem_rows_succ hn hv₂) fun hx => hdp (Prod.mk.inj hx).1.symm, hg]
    · rw [hrowsp] at hv
      obtain ⟨-, rfl⟩ := Prod.mk.inj (hv.resolve_right hv₂)
      obtain ⟨rfl, rfl⟩ : f = g ∧ b = c := by
        rw [hfb] at hg
        simpa using hg
      have hpn : (p, v) ∉ rows d (v + 1#20) n := fun hx => hdp hx.1.symm
      have hdn : (d, v) ∉ rows p (v + 1#20) n := fun hx => hdp hx.1
      rw [h.others _ hv₂ hpn, h.others _ hdn (notMem_rows_succ hn), hT, Function.update_self,
        Function.update_of_ne (fun hx => hdp (Prod.mk.inj hx).1.symm), Function.update_self]
      exact ⟨rfl, rfl⟩
  · rw [h.pages g hg, hpages g hg]

/-- The loop of `cowuvm` shares the pages of the parent with the child, if they are all there. -/
theorem Owned.cowLoop_cases : ∀ {n : ℕ} {a : Page} {s : Mem}, Owned L lost s use →
    use tp = .table p 0#10 → use td = .table d 0#10 → d ≠ p → a.toNat + n ≤ 160 →
    (∀ k ∈ rows d a n, userTable s use k = none) →
      ((∃ k ∈ rows p a n, userTable s use k = none) ∧
        uvmLoop (cowPage p d) n a s = .error (.panic "cowuvm: page not present")) ∨
      ∃ s', uvmLoop (cowPage p d) n a s = .ok (true, s') ∧ Owned L lost s' use ∧
        PagesShared p d a n use s s'
  | 0, a, s, h, _, _, _, _, _ => Or.inr ⟨s, rfl, h, PagesShared.zero⟩
  | n + 1, a, s, h, htp, htd, hdp, hn, hempty => by
    have ha := isUser_of_lt hn
    have hrowsp := rows_succ (d := p) hn
    have hrowsd := rows_succ (d := d) hn
    have htpa : use tp = .table p (pdx a) := by rw [ha.pdx_eq]; exact htp
    cases hfb : userTable s use (p, a) with
    | none =>
      refine Or.inl ⟨⟨(p, a), by rw [hrowsp]; exact Or.inl rfl, hfb⟩, ?_⟩
      rw [uvmLoop, cowPage, cowPageWith, h.frames.walkpgdir_eq htpa]
      simp only [h.present_of_entry htpa hfb ha, if_true]
      rfl
    | some e =>
      obtain ⟨f, b⟩ := e
      obtain ⟨s₁, hs₁, h₁, hT₁, hpages₁, hoom₁⟩ := h.cowPage_eq_ok htpa
        (by rw [ha.pdx_eq]; exact htd) hdp ha (hempty _ (by rw [hrowsd]; exact Or.inl rfl)) hfb
      have hT₁' : ∀ {e : Page} {k}, k ∈ rows e (a + 1#20) n → userTable s₁ use k = userTable s use k := by
        intro e k hk
        rw [hT₁, Function.update_of_ne (ne_of_mem_rows_succ hn hk),
          Function.update_of_ne (ne_of_mem_rows_succ hn hk)]
      have hloop : uvmLoop (cowPage p d) (n + 1) a s = uvmLoop (cowPage p d) n (a + 1#20) s₁ := by
        rw [uvmLoop, hs₁]
        rfl
      rw [hloop]
      obtain ⟨⟨k, hk, hnone⟩, herr⟩ | ⟨s₂, hs₂, h₂, hshared⟩ :=
        h₁.cowLoop_cases (n := n) (a := a + 1#20) htp htd hdp (by rw [toNat_succ_page hn]; omega)
          fun k hk => by rw [hT₁' hk, hempty k (by rw [hrowsd]; exact Or.inr hk)]
      · exact Or.inl ⟨⟨k, by rw [hrowsp]; exact Or.inr hk, by rw [← hT₁' hk, hnone]⟩, herr⟩
      · exact Or.inr ⟨s₂, hs₂, h₂, hshared.succ hn hdp hfb hT₁ hpages₁ hoom₁⟩

/-- The child has copies of the `n` pages of the parent from page `a` on. -/
structure PagesCopied (p d a : Page) (n : ℕ) (s : Mem) (use : Page → Use) (s' : Mem) (use' : Page → Use) :
    Prop where
  full : ∀ k ∈ rows p a n, userTable s use k ≠ none
  oom : s'.oom = s.oom
  entries : ∀ v f b, (p, v) ∈ rows p a n → userTable s use (p, v) = some (f, b) →
    (∃ g, userTable s' use' (d, v) = some (g, b)) ∧ view s' use' (d, v) = view s use (p, v)

theorem PagesCopied.zero : PagesCopied p d a 0 s use s use := by
  refine ⟨fun k hk => ?_, rfl, fun v f b hv _ => ?_⟩
  · have := hk.2
    omega
  · have := hv.2
    omega

/-- After the first page has been copied, the other ones follow. -/
theorem PagesCopied.succ {n : ℕ} (hn : a.toNat + (n + 1) ≤ 160) (hdp : d ≠ p)
    (hfb : userTable s use (p, a) = some (f, b)) (honly : Only {(d, a)} s use s' use')
    (hentry : userTable s' use' (d, a) = some (g, b)) (hview : view s' use' (d, a) = some (s.page f))
    (hoom : s'.oom = s.oom) (honly' : Only (rows d (a + 1#20) n) s' use' s'' use'')
    (h : PagesCopied p d (a + 1#20) n s' use' s'' use'') : PagesCopied p d a (n + 1) s use s'' use'' := by
  have hrowsp := rows_succ (d := p) hn
  have hpn : ∀ v, (p, v) ∉ ({(d, a)} : Set (Page × Page)) := fun v hx => hdp (Prod.mk.inj hx).1.symm
  refine ⟨fun k hk => ?_, h.oom.trans hoom, fun v f' b' hv hg => ?_⟩
  · rw [hrowsp] at hk
    cases hk with
    | inl hk => rw [hk, hfb]; simp
    | inr hk =>
      obtain ⟨e, v⟩ := k
      obtain rfl : e = p := hk.1
      rw [← honly.entries _ (hpn v)]
      exact h.full _ hk
  · by_cases hv₂ : (p, v) ∈ rows p (a + 1#20) n
    · obtain ⟨he, hv'⟩ := h.entries v f' b' hv₂ (by rw [honly.entries _ (hpn v), hg])
      exact ⟨he, by rw [hv', honly.views _ (hpn v)]⟩
    · rw [hrowsp] at hv
      obtain ⟨-, rfl⟩ := Prod.mk.inj (hv.resolve_right hv₂)
      obtain ⟨rfl, rfl⟩ : f = f' ∧ b = b' := by
        rw [hfb] at hg
        simpa using hg
      have hdn : (d, v) ∉ rows d (v + 1#20) n := notMem_rows_succ hn
      rw [honly'.entries _ hdn, honly'.views _ hdn, view_of_eq_some hg]
      exact ⟨⟨g, hentry⟩, hview⟩

/-- The loop of `copyuvm` gives the child copies of the pages of the parent, if they are all there,
or uses up the memory. -/
theorem Owned.copyLoop_cases : ∀ {n : ℕ} {a : Page} {s : Mem} {use : Page → Use}, Owned L lost s use →
    use tp = .table p 0#10 → use td = .table d 0#10 → d ≠ p → a.toNat + n ≤ 160 →
    (∀ k ∈ rows d a n, userTable s use k = none) →
      ((∃ k ∈ rows p a n, userTable s use k = none) ∧
        uvmLoop (copyPage p d) n a s = .error (.panic "copyuvm: page not present")) ∨
      ∃ ok s' use', uvmLoop (copyPage p d) n a s = .ok (ok, s') ∧ Owned L lost s' use' ∧
        Only (rows d a n) s use s' use' ∧
        (ok = true → PagesCopied p d a n s use s' use') ∧ (ok = false → s'.oom = true)
  | 0, a, s, use, h, _, _, _, _, _ =>
    Or.inr ⟨true, s, use, rfl, h, Only.refl, fun _ => PagesCopied.zero, fun hok => absurd hok.symm (by decide)⟩
  | n + 1, a, s, use, h, htp, htd, hdp, hn, hempty => by
    have ha := isUser_of_lt hn
    have hrowsp := rows_succ (d := p) hn
    have hrowsd := rows_succ (d := d) hn
    have htpa : use tp = .table p (pdx a) := by rw [ha.pdx_eq]; exact htp
    have hp : use p = .dir := (h.frames.table tp p _ htp).1
    cases hfb : userTable s use (p, a) with
    | none =>
      refine Or.inl ⟨⟨(p, a), by rw [hrowsp]; exact Or.inl rfl, hfb⟩, ?_⟩
      rw [uvmLoop, copyPage, copyPageWith, h.frames.pteOf_eq_some htpa]
      simp only [h.present_of_entry htpa hfb ha, if_true]
      rfl
    | some e =>
      obtain ⟨f, b⟩ := e
      cases h.copyPage_cases (by rw [ha.pdx_eq]; exact htd) hp ha
        (hempty _ (by rw [hrowsd]; exact Or.inl rfl)) hfb with
      | inr h1 =>
        obtain ⟨h₁, hT₁⟩ := h.setOom true
        refine Or.inr ⟨false, _, use, ?_, h₁, ⟨Keeps.refl, fun k _ => by rw [hT₁], fun k _ => ?_⟩,
          by simp, fun _ => rfl⟩
        · rw [uvmLoop, h1.1]
          rfl
        · unfold view
          rw [hT₁]
      | inl h1 =>
        obtain ⟨g, s₁, use₁, hs₁, h₁, honly₁, -, hentry₁, hview₁, hoom₁⟩ := h1
        have hkeep : ∀ {x : Page} {u : Use}, use x = u → u ≠ .free → u ≠ .user → use₁ x = u := by
          rintro x u rfl hf hu
          exact honly₁.keeps.of_ne hf hu
        have hempty₁ : ∀ k ∈ rows d (a + 1#20) n, userTable s₁ use₁ k = none := by
          intro k hk
          rw [honly₁.entries k (ne_of_mem_rows_succ hn hk), hempty k (by rw [hrowsd]; exact Or.inr hk)]
        have hloop : uvmLoop (copyPage p d) (n + 1) a s = uvmLoop (copyPage p d) n (a + 1#20) s₁ := by
          rw [uvmLoop, hs₁]
          rfl
        rw [hloop]
        obtain ⟨⟨k, hk, hnone⟩, herr⟩ | ⟨ok, s₂, use₂, hs₂, h₂, honly₂, htrue, hfalse⟩ :=
          h₁.copyLoop_cases (n := n) (a := a + 1#20) (hkeep htp (by simp) (by simp))
            (hkeep htd (by simp) (by simp)) hdp (by rw [toNat_succ_page hn]; omega) hempty₁
        · refine Or.inl ⟨⟨k, by rw [hrowsp]; exact Or.inr hk, ?_⟩, herr⟩
          have hkd : k ∉ ({(d, a)} : Set (Page × Page)) := ne_of_mem_rows_succ hn hk
          rw [← honly₁.entries k hkd, hnone]
        · refine Or.inr ⟨ok, s₂, use₂, hs₂, h₂, ?_, fun hok => ?_, hfalse⟩
          · rw [hrowsd]
            exact honly₁.trans honly₂
          · exact (htrue hok).succ hn hdp hfb honly₁ hentry₁ hview₁ hoom₁ honly₂

end SystemsProjects.Cow
