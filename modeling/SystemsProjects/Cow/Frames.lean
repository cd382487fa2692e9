import SystemsProjects.Cow.Vm

/-!
# What each frame is used for

A ghost map `use` says what every frame of physical memory is used for.  `Frames` ties it to the
memory: the free list runs through exactly the free frames, the entries of a page directory are its
page tables, and a frame that the kernel uses has one reference.  The lemmas say how `kalloc`, `kfree`
and the writes of `vm.c` change the map.
-/

namespace SystemsProjects.Cow

inductive Use where
  /-- Not handed out by the allocator. -/
  | reserved
  | free
  /-- Mapped by user page table entries. -/
  | user
  | dir
  /-- The page table at index `i` of the page directory `d`. -/
  | table (d : Page) (i : Index)
  /-- In use by the kernel: a kernel stack, or a page on its way to another use. -/
  | kern
  deriving DecidableEq

/-- A page directory or a page table. -/
def Use.Structural : Use → Prop
  | .dir | .table _ _ => True
  | _ => False

/-- The entry of a page directory for the page table `t`. -/
def pdeFor (t : Page) : Word := paddr t ||| PTE_P ||| PTE_W ||| PTE_U

@[simp] theorem pageOf_pdeFor (t : Page) : pageOf (pdeFor t) = t := by simp [pdeFor]
@[simp] theorem has_pdeFor_P (t : Page) : has (pdeFor t) PTE_P = true := by simp [pdeFor]
@[simp] theorem has_pdeFor_W (t : Page) : has (pdeFor t) PTE_W = true := by simp [pdeFor]
@[simp] theorem has_pdeFor_U (t : Page) : has (pdeFor t) PTE_U = true := by simp [pdeFor]

theorem pdeFor_injective : Function.Injective pdeFor := fun t t' h => by
  rw [← pageOf_pdeFor t, h, pageOf_pdeFor]

/-! ## The free list -/

/-- The free list from the address `p` on. -/
def FreeChain (page : Page → PageData) : Word → List Page → Prop
  | p, [] => p = 0#32
  | p, f :: l => p = paddr f ∧ f ≠ 0#20 ∧ FreeChain page (page f 0#10) l

theorem FreeChain.congr {page page' : Page → PageData} : ∀ {p : Word} {l : List Page},
    FreeChain page p l → (∀ f ∈ l, page' f = page f) → FreeChain page' p l
  | _, [], h, _ => h
  | _, f :: l, ⟨hp, hf, h⟩, hpage => by
    refine ⟨hp, hf, ?_⟩
    rw [hpage f List.mem_cons_self]
    exact h.congr fun g hg => hpage g (List.mem_cons_of_mem f hg)

theorem FreeChain.unique {page : Page → PageData} : ∀ {p : Word} {l l' : List Page},
    FreeChain page p l → FreeChain page p l' → l = l'
  | _, [], [], _, _ => rfl
  | _, [], _ :: _, h, ⟨hp, hf, _⟩ => absurd (hp.symm.trans h) (paddr_ne_zero hf)
  | _, _ :: _, [], ⟨hp, hf, _⟩, h => absurd (hp.symm.trans h) (paddr_ne_zero hf)
  | _, f :: l, f' :: l', ⟨hp, _, h⟩, ⟨hp', _, h'⟩ => by
    obtain rfl : f = f' := paddr_injective (hp.symm.trans hp')
    rw [h.unique h']

/-! ## The invariant -/

/-- The memory `s` uses its frames as `use` says; `lost` is the number of pages that `free_pages`
counts and that are not on the free list. -/
structure Frames (L : Layout) (lost : Word) (s : Mem) (use : Page → Use) : Prop where
  range : ∀ f, use f ≠ .reserved → L.kend.toNat ≤ f.toNat ∧ f.toNat < 4096
  free : ∃ l, FreeChain s.page s.freelist l ∧ l.Nodup ∧ (∀ f, f ∈ l ↔ use f = .free) ∧
    s.freePages = BitVec.ofNat 32 l.length + lost
  pde : ∀ d i, use d = .dir → s.page d i = 0#32 ∨ ∃ t, use t = .table d i
  table : ∀ t d i, use t = .table d i → use d = .dir ∧ s.page d i = pdeFor t
  ref : ∀ f, use f = .dir ∨ (∃ d i, use f = .table d i) ∨ use f = .kern → s.refCnt f = 1#32

variable {L : Layout} {lost : Word} {s : Mem} {use : Page → Use} {f d t v : Page} {i : Index}

theorem Frames.ne_zero (h : Frames L lost s use) (hf : use f ≠ .reserved) : f ≠ 0#20 := by
  intro h0
  have := (h.range f hf).1
  have := L.text_lt
  have := L.data_le
  rw [h0, BitVec.toNat_ofNat] at *
  omega

/-- Frames of the allocator are above the user part of the address space. -/
theorem Frames.not_isUser (h : Frames L lost s use) (hf : use f ≠ .reserved) : ¬ IsUser f := by
  unfold IsUser
  have := (h.range f hf).1
  have := L.text_lt
  have := L.data_le
  omega

theorem Frames.table_unique (h : Frames L lost s use) {t' : Page} (ht : use t = .table d i)
    (ht' : use t' = .table d i) : t' = t :=
  pdeFor_injective ((h.table t' d i ht').2.symm.trans (h.table t d i ht).2)

/-- The entry of a page whose page table exists. -/
theorem Frames.pteOf_eq_some (h : Frames L lost s use) (ht : use t = .table d (pdx v)) :
    pteOf s d v = some (s.page t (ptx v)) := by
  unfold pteOf
  rw [(h.table t d _ ht).2, has_pdeFor_P, if_pos rfl, pageOf_pdeFor]

theorem Frames.pteOf_eq_none (h : Frames L lost s use) (hd : use d = .dir)
    (ht : ∀ t, use t ≠ .table d (pdx v)) : pteOf s d v = none := by
  unfold pteOf
  cases h.pde d (pdx v) hd with
  | inl h0 => rw [h0, has_zero, if_neg Bool.false_ne_true]
  | inr h1 =>
    obtain ⟨t, h1⟩ := h1
    exact absurd h1 (ht t)

/-- Only page directories and page tables decide how pages are mapped. -/
theorem Frames.pteOf_congr (h : Frames L lost s use) (hd : use d = .dir) {s' : Mem}
    (hdir : s'.page d = s.page d) (htab : ∀ t i, use t = .table d i → s'.page t = s.page t) :
    pteOf s' d v = pteOf s d v := by
  unfold pteOf
  rw [hdir]
  cases h.pde d (pdx v) hd with
  | inl h0 => rw [h0, has_zero]; rfl
  | inr h1 =>
    obtain ⟨t, ht⟩ := h1
    rw [(h.table t d _ ht).2, pageOf_pdeFor, htab t _ ht]

theorem Frames.walkpgdir_eq (h : Frames L lost s use) (ht : use t = .table d (pdx v))
    (create : Bool) : walkpgdir d v create s = (some (t, ptx v), s) := by
  unfold walkpgdir
  simp only
  rw [(h.table t d _ ht).2, has_pdeFor_P, if_pos rfl, pageOf_pdeFor]

/-- The page directories and page tables stay what they are, and the rest is given. -/
theorem Frames.rebuild (h : Frames L lost s use) {lost' : Word} {s' : Mem} {use' : Page → Use}
    (tags : ∀ f, (use f).Structural ∨ (use' f).Structural → use' f = use f)
    (dirs : ∀ d, use d = .dir → s'.page d = s.page d)
    (range : ∀ f, use' f ≠ .reserved → L.kend.toNat ≤ f.toNat ∧ f.toNat < 4096)
    (free : ∃ l, FreeChain s'.page s'.freelist l ∧ l.Nodup ∧ (∀ f, f ∈ l ↔ use' f = .free) ∧
      s'.freePages = BitVec.ofNat 32 l.length + lost')
    (ref : ∀ f, (use' f).Structural ∨ use' f = .kern → s'.refCnt f = 1#32) :
    Frames L lost' s' use' := by
  refine ⟨range, free, fun d i hd => ?_, fun t d i ht => ?_, fun f hf => ref f ?_⟩
  · have hd' : use d = .dir := by rw [← tags d (by simp [hd, Use.Structural]), hd]
    rw [dirs d hd']
    cases h.pde d i hd' with
    | inl h0 => exact Or.inl h0
    | inr h1 =>
      obtain ⟨t, ht⟩ := h1
      exact Or.inr ⟨t, by rw [tags t (by simp [ht, Use.Structural]), ht]⟩
  · have ht' : use t = .table d i := by rw [← tags t (by simp [ht, Use.Structural]), ht]
    obtain ⟨hd, hpde⟩ := h.table t d i ht'
    exact ⟨by rw [tags d (by simp [hd, Use.Structural]), hd], by rw [dirs d hd, hpde]⟩
  · obtain hf | ⟨d, i, hf⟩ | hf := hf
    · simp [hf, Use.Structural]
    · simp [hf, Use.Structural]
    · exact Or.inr hf

theorem Frames.ref_of (h : Frames L lost s use) (hf : (use f).Structural ∨ use f = .kern) :
    s.refCnt f = 1#32 := by
  apply h.ref f
  cases hf with
  | inl hf =>
    cases hu : use f <;> simp [hu, Use.Structural] at hf ⊢
  | inr hf => exact Or.inr (Or.inr hf)

/-- The state of the memory changes, but neither the free list nor the tables. -/
theorem Frames.congr (h : Frames L lost s use) {s' : Mem} (hlist : s'.freelist = s.freelist)
    (hcount : s'.freePages = s.freePages)
    (hpage : ∀ f, use f = .free ∨ use f = .dir → s'.page f = s.page f)
    (href : ∀ f, use f ≠ .user → s'.refCnt f = s.refCnt f) : Frames L lost s' use := by
  obtain ⟨l, hchain, hnodup, hmem, hlen⟩ := h.free
  refine h.rebuild (fun _ _ => rfl) (fun d hd => hpage d (Or.inr hd)) h.range
    ⟨l, ?_, hnodup, hmem, hcount.trans hlen⟩ fun f hf => ?_
  · rw [hlist]
    exact hchain.congr fun f hf => hpage f (Or.inl ((hmem f).1 hf))
  · rw [href f ?_, h.ref_of hf]
    intro hu
    simp [hu, Use.Structural] at hf

theorem Frames.setOom (h : Frames L lost s use) (b : Bool) : Frames L lost { s with oom := b } use :=
  h.congr rfl rfl (fun _ _ => rfl) fun _ _ => rfl

/-- The contents of a page that is not free and no page directory may change. -/
theorem Frames.setPage (h : Frames L lost s use) (hfree : use f ≠ .free) (hdir : use f ≠ .dir)
    (x : PageData) : Frames L lost (s.setPage f x) use := by
  refine h.congr rfl rfl (fun g hg => ?_) fun _ _ => rfl
  apply Mem.setPage_page_of_ne
  rintro rfl
  cases hg with
  | inl hg => exact hfree hg
  | inr hg => exact hdir hg

theorem Frames.write (h : Frames L lost s use) (hfree : use f ≠ .free) (hdir : use f ≠ .dir)
    (i : Index) (w : Word) : Frames L lost (s.write f i w) use :=
  h.setPage hfree hdir _

theorem Frames.setRef (h : Frames L lost s use) (hf : use f = .user) (x : Word) :
    Frames L lost { s with refCnt := Function.update s.refCnt f x } use := by
  refine h.congr rfl rfl (fun _ _ => rfl) fun g hg => ?_
  apply Function.update_of_ne
  rintro rfl
  exact hg hf

/-- The frames with a use that `f` neither has had nor gets. -/
theorem update_eq_iff {x u : Use} (hold : use f ≠ u) (hnew : x ≠ u) (g : Page) :
    Function.update use f x g = u ↔ use g = u := by
  by_cases hg : g = f
  · rw [hg, Function.update_self]
    exact iff_of_false hnew hold
  · rw [Function.update_of_ne hg]

/-- A frame that is no page directory or table gets another such use. -/
theorem update_of_structural {x : Use} (hold : ¬ (use f).Structural) (hnew : ¬ x.Structural)
    (g : Page) (hg : (use g).Structural ∨ (Function.update use f x g).Structural) :
    Function.update use f x g = use g := by
  apply Function.update_of_ne
  rintro rfl
  rw [Function.update_self] at hg
  cases hg with
  | inl hg => exact hold hg
  | inr hg => exact hnew hg

/-- A frame changes between the uses that do not concern the allocator. -/
theorem Frames.retag (h : Frames L lost s use) (hold : use f = .kern ∨ use f = .user) {x : Use}
    (hnew : x = .kern ∨ x = .user) (href : s.refCnt f = 1#32) :
    Frames L lost s (Function.update use f x) := by
  have hold' : ¬ (use f).Structural ∧ use f ≠ .free ∧ use f ≠ .reserved := by
    cases hold with
    | inl ho => simp [ho, Use.Structural]
    | inr ho => simp [ho, Use.Structural]
  have hnew' : ¬ x.Structural ∧ x ≠ .free := by
    cases hnew with
    | inl hn => simp [hn, Use.Structural]
    | inr hn => simp [hn, Use.Structural]
  obtain ⟨l, hchain, hnodup, hmem, hlen⟩ := h.free
  refine h.rebuild (update_of_structural hold'.1 hnew'.1) (fun _ _ => rfl) (fun g hg => ?_)
    ⟨l, hchain, hnodup, fun g => ?_, hlen⟩ fun g hg => ?_
  · by_cases hgf : g = f
    · exact h.range g (hgf ▸ hold'.2.2)
    · rw [Function.update_of_ne hgf] at hg
      exact h.range g hg
  · rw [hmem g, update_eq_iff hold'.2.1 hnew'.2]
  · by_cases hgf : g = f
    · rw [hgf, href]
    · rw [Function.update_of_ne hgf] at hg
      exact h.ref_of hg

/-! ## `kalloc` and `kfree` -/

theorem kalloc_of_eq_zero (h : s.freelist = 0#32) : kalloc s = (none, { s with oom := true }) := by
  rw [kalloc, if_pos h]

/-- `kalloc` takes a free frame, whose contents it leaves alone. -/
theorem Frames.kalloc_eq_some (h : Frames L lost s use) (hne : s.freelist ≠ 0#32) :
    ∃ f s', kalloc s = (some f, s') ∧ use f = .free ∧
      Frames L lost s' (Function.update use f .kern) ∧ s'.page = s.page ∧
      s'.refCnt = Function.update s.refCnt f 1#32 ∧ s'.oom = s.oom := by
  obtain ⟨l, hchain, hnodup, hmem, hlen⟩ := h.free
  cases l with
  | nil => exact absurd hchain hne
  | cons f l =>
    obtain ⟨hp, hf0, hrest⟩ := hchain
    have hff : use f = .free := (hmem f).1 List.mem_cons_self
    obtain ⟨hfl, hnodup⟩ := List.nodup_cons.1 hnodup
    have hk : kalloc s = (some f, { s with
        freelist := s.page f 0, freePages := s.freePages - 1#32
        refCnt := Function.update s.refCnt f 1#32 }) := by
      rw [kalloc, if_neg hne]
      simp only [hp, pageOf_paddr]
    refine ⟨f, _, hk, hff, h.rebuild (update_of_structural (by simp [hff, Use.Structural])
      (by simp [Use.Structural])) (fun _ _ => rfl) (fun g hg => ?_)
      ⟨l, hrest, hnodup, fun g => ?_, ?_⟩ fun g hg => ?_, rfl, rfl, rfl⟩
    · by_cases hgf : g = f
      · exact h.range g (by simp [hgf, hff])
      · rw [Function.update_of_ne hgf] at hg
        exact h.range g hg
    · by_cases hgf : g = f
      · simp [hgf, hfl]
      · rw [Function.update_of_ne hgf, ← hmem g, List.mem_cons]
        simp [hgf]
    · simp only [hlen, List.length_cons, BitVec.ofNat_add]
      rw [BitVec.add_assoc, BitVec.add_comm 1#32 lost, ← BitVec.add_assoc, BitVec.add_sub_cancel]
    · by_cases hgf : g = f
      · simp [hgf]
      · rw [Function.update_of_ne hgf] at hg
        simp only [Function.update_of_ne hgf]
        exact h.ref_of hg

/-- `kfree` of a frame that is not in use any more puts it on the free list. -/
theorem Frames.kfree_of_range (h : Frames L lost s use) (hlo : L.kend.toNat ≤ f.toNat)
    (hhi : f.toNat < 4096) (hstruct : ¬ (use f).Structural) (hfree : use f ≠ .free)
    (href : (s.refCnt f).toNat ≤ 1) :
    ∃ s', kfree L f s = .ok s' ∧ Frames L lost s' (Function.update use f .free) ∧
      (∀ g, g ≠ f → s'.page g = s.page g) ∧ s'.refCnt = s.refCnt ∧ s'.oom = s.oom := by
  have hne : f ≠ 0#20 := by
    rintro rfl
    have := L.text_lt
    have := L.data_le
    rw [BitVec.toNat_ofNat] at hlo
    omega
  obtain ⟨l, hchain, hnodup, hmem, hlen⟩ := h.free
  have hfl : f ∉ l := fun hfl => hfree ((hmem f).1 hfl)
  have hk : kfree L f s = .ok { s.setPage f (Function.update junk 0 s.freelist) with
      freelist := paddr f, freePages := s.freePages + 1#32 } := by
    rw [kfree, if_neg (by omega), if_pos href]
  have hpage : ∀ g, g ≠ f →
      (s.setPage f (Function.update junk 0 s.freelist)).page g = s.page g := fun g hg =>
    Mem.setPage_page_of_ne s _ hg
  refine ⟨_, hk, h.rebuild (update_of_structural hstruct (by simp [Use.Structural]))
    (fun d hd => hpage d ?_) (fun g hg => ?_)
    ⟨f :: l, ⟨rfl, hne, ?_⟩, List.nodup_cons.2 ⟨hfl, hnodup⟩, fun g => ?_, ?_⟩
    fun g hg => ?_, hpage, rfl, rfl⟩
  · rintro rfl
    simp [hd, Use.Structural] at hstruct
  · by_cases hgf : g = f
    · rw [hgf]
      exact ⟨hlo, hhi⟩
    · rw [Function.update_of_ne hgf] at hg
      exact h.range g hg
  · simp only [Mem.setPage_page_self]
    refine hchain.congr fun g hg => hpage g ?_
    rintro rfl
    exact hfl hg
  · by_cases hgf : g = f
    · simp [hgf]
    · rw [Function.update_of_ne hgf, ← hmem g, List.mem_cons]
      simp [hgf]
  · simp only [hlen, List.length_cons, BitVec.ofNat_add]
    rw [BitVec.add_assoc, BitVec.add_comm lost, ← BitVec.add_assoc]
  · by_cases hgf : g = f
    · subst hgf
      simp [Use.Structural] at hg
    · rw [Function.update_of_ne hgf] at hg
      exact h.ref_of hg

/-- `kfree` of a frame of the kernel. -/
theorem Frames.kfree_eq_ok (h : Frames L lost s use) (hf : use f = .kern) :
    ∃ s', kfree L f s = .ok s' ∧ Frames L lost s' (Function.update use f .free) ∧
      (∀ g, g ≠ f → s'.page g = s.page g) ∧ s'.refCnt = s.refCnt ∧ s'.oom = s.oom := by
  obtain ⟨hlo, hhi⟩ := h.range f (by simp [hf])
  refine h.kfree_of_range hlo hhi (by simp [hf, Use.Structural]) (by simp [hf]) ?_
  rw [h.ref_of (Or.inr hf)]
  decide

/-! ## Page directories -/

theorem pdeFor_ne_zero (t : Page) : pdeFor t ≠ 0#32 := fun h => by
  have := has_pdeFor_P t
  rw [h, has_zero] at this
  cases this

/-- A zeroed page becomes a page directory. -/
theorem Frames.newDir (h : Frames L lost s use) (hd : use d = .kern)
    (hzero : s.page d = fun _ => 0#32) : Frames L lost s (Function.update use d .dir) := by
  obtain ⟨l, hchain, hnodup, hmem, hlen⟩ := h.free
  have htab : ∀ g e i, Function.update use d .dir g = .table e i ↔ use g = .table e i := fun g e i =>
    update_eq_iff (by simp [hd]) (by simp) g
  refine ⟨fun g hg => ?_, ⟨l, hchain, hnodup, fun g => ?_, hlen⟩, fun e i he => ?_,
    fun t e i ht => ?_, fun g hg => ?_⟩
  · exact h.range g fun hx => hg ((update_eq_iff (by simp [hd]) (by simp) g).2 hx)
  · rw [hmem g, update_eq_iff (u := .free) (by simp [hd]) (by simp)]
  · by_cases hed : e = d
    · rw [hed, hzero]
      exact Or.inl rfl
    · rw [Function.update_of_ne hed] at he
      simp only [htab]
      exact h.pde e i he
  · obtain ⟨he, hpde⟩ := h.table t e i ((htab t e i).1 ht)
    refine ⟨?_, hpde⟩
    by_cases hed : e = d
    · rw [hed, Function.update_self]
    · rw [Function.update_of_ne hed, he]
  · by_cases hgd : g = d
    · exact h.ref_of (by simp [hgd, hd])
    · rw [Function.update_of_ne hgd] at hg
      exact h.ref g hg

/-- A page table is entered into a page directory. -/
theorem Frames.addTable (h : Frames L lost s use) (hd : use d = .dir) (hzero : s.page d i = 0#32)
    (ht : use t = .kern) :
    Frames L lost (s.write d i (pdeFor t)) (Function.update use t (.table d i)) := by
  obtain ⟨l, hchain, hnodup, hmem, hlen⟩ := h.free
  have htd : t ≠ d := by
    rintro rfl
    simp [hd] at ht
  have hdir : ∀ g, Function.update use t (.table d i) g = .dir ↔ use g = .dir :=
    update_eq_iff (by simp [ht]) (by simp)
  have hpde : ∀ e j, (e = d → j ≠ i) → (s.write d i (pdeFor t)).page e j = s.page e j := by
    intro e j hej
    by_cases hed : e = d
    · subst hed
      rw [Mem.write_page_self, Function.update_of_ne (hej rfl)]
    · rw [Mem.write_page_of_ne s i _ hed]
  refine ⟨fun g hg => ?_, ⟨l, ?_, hnodup, fun g => ?_, hlen⟩, fun e j he => ?_, fun g e j hg => ?_,
    fun g hg => ?_⟩
  · exact h.range g fun hx => hg ((update_eq_iff (by simp [ht]) (by simp) g).2 hx)
  · refine hchain.congr fun g hg => Mem.write_page_of_ne s i _ ?_
    rintro rfl
    simp [(hmem g).1 hg] at hd
  · rw [hmem g, update_eq_iff (u := .free) (by simp [ht]) (by simp)]
  · rw [hdir] at he
    by_cases hej : e = d ∧ j = i
    · obtain ⟨rfl, rfl⟩ := hej
      exact Or.inr ⟨t, by rw [Function.update_self]⟩
    · rw [hpde e j (fun he hj => hej ⟨he, hj⟩)]
      cases h.pde e j he with
      | inl h0 => exact Or.inl h0
      | inr h1 =>
        obtain ⟨g, hg⟩ := h1
        refine Or.inr ⟨g, ?_⟩
        rw [Function.update_of_ne, hg]
        rintro rfl
        simp [ht] at hg
  · rw [hdir]
    by_cases hgt : g = t
    · subst hgt
      rw [Function.update_self] at hg
      obtain ⟨rfl, rfl⟩ : d = e ∧ i = j := by simpa using hg
      exact ⟨hd, by rw [Mem.write_page_self, Function.update_self]⟩
    · rw [Function.update_of_ne hgt] at hg
      obtain ⟨he, hold⟩ := h.table g e j hg
      refine ⟨he, ?_⟩
      rw [hpde e j ?_, hold]
      rintro rfl rfl
      exact pdeFor_ne_zero g (hold.symm.trans hzero)
  · by_cases hgt : g = t
    · exact h.ref_of (by simp [hgt, ht])
    · rw [Function.update_of_ne hgt] at hg
      exact h.ref g hg

/-- An entry of a page directory is for one of its page tables. -/
theorem Frames.table_of_pde (h : Frames L lost s use) (hd : use d = .dir) (ht : s.page d i = pdeFor t) :
    use t = .table d i := by
  cases h.pde d i hd with
  | inl h0 => exact absurd (ht.symm.trans h0) (pdeFor_ne_zero t)
  | inr h1 =>
    obtain ⟨t', ht'⟩ := h1
    rw [pdeFor_injective (ht.symm.trans (h.table t' d i ht').2)]
    exact ht'

/-- The uses after the page directory `d` has been given up: it and its page tables are ordinary
pages of the kernel. -/
def retired (use : Page → Use) (d : Page) : Page → Use := fun f =>
  if f = d ∨ ∃ i, use f = .table d i then .kern else use f

theorem retired_of_ne (hf : f ≠ d) (ht : ∀ i, use f ≠ .table d i) : retired use d f = use f := by
  unfold retired
  rw [if_neg]
  rintro (h | ⟨i, h⟩)
  · exact hf h
  · exact ht i h

theorem retired_eq_iff {u : Use} (hu : u ≠ .kern) :
    retired use d f = u ↔ use f = u ∧ f ≠ d ∧ ∀ i, use f ≠ .table d i := by
  by_cases hf : f = d ∨ ∃ i, use f = .table d i
  · have : retired use d f = .kern := if_pos hf
    rw [this]
    refine iff_of_false (Ne.symm hu) ?_
    rintro ⟨-, h1, h2⟩
    cases hf with
    | inl hf => exact h1 hf
    | inr hf => exact hf.elim h2
  · rw [not_or, not_exists] at hf
    rw [retired_of_ne hf.1 hf.2]
    exact ⟨fun h => ⟨h, hf.1, hf.2⟩, fun h => h.1⟩

theorem retired_self (use : Page → Use) (d : Page) : retired use d d = .kern := if_pos (Or.inl rfl)

theorem retired_eq_dir_iff : retired use d f = .dir ↔ use f = .dir ∧ f ≠ d := by
  rw [retired_eq_iff (by simp)]
  exact ⟨fun h => ⟨h.1, h.2.1⟩, fun h => ⟨h.1, h.2, by simp [h.1]⟩⟩

/-- Pages that are neither directories nor tables stay what they are. -/
theorem retired_of_apart (hd : use d = .dir) (hf : use f = .user ∨ use f = .free ∨ use f = .reserved) :
    retired use d f = use f := by
  apply retired_of_ne
  · rintro rfl
    simp [hd] at hf
  · intro i hi
    simp [hi] at hf

theorem retired_eq_user_iff (hd : use d = .dir) : retired use d f = .user ↔ use f = .user :=
  ⟨fun h => ((retired_eq_iff (by simp)).1 h).1, fun h => (retired_of_apart hd (Or.inl h)).trans h⟩

theorem Frames.retire (h : Frames L lost s use) (hd : use d = .dir) :
    Frames L lost s (retired use d) := by
  obtain ⟨l, hchain, hnodup, hmem, hlen⟩ := h.free
  refine ⟨fun g hg => h.range g fun hr => hg ?_, ⟨l, hchain, hnodup, fun g => ?_, hlen⟩,
    fun e i he => ?_, fun t e i ht => ?_, fun g hg => ?_⟩
  · exact (retired_eq_iff (by simp)).2 ⟨hr, by rintro rfl; simp [hd] at hr, by simp [hr]⟩
  · rw [hmem g, retired_eq_iff (by simp)]
    exact ⟨fun hg => ⟨hg, by rintro rfl; simp [hd] at hg, by simp [hg]⟩, fun hg => hg.1⟩
  · obtain ⟨he, hne, -⟩ := (retired_eq_iff (by simp)).1 he
    cases h.pde e i he with
    | inl h0 => exact Or.inl h0
    | inr h1 =>
      obtain ⟨t, ht⟩ := h1
      refine Or.inr ⟨t, (retired_eq_iff (by simp)).2 ⟨ht, ?_, fun j hj => ?_⟩⟩
      · rintro rfl
        simp [hd] at ht
      · rw [ht] at hj
        simp only [Use.table.injEq] at hj
        exact hne hj.1
  · obtain ⟨ht', -, hnt⟩ := (retired_eq_iff (by simp)).1 ht
    obtain ⟨he, hpde⟩ := h.table t e i ht'
    refine ⟨(retired_eq_iff (by simp)).2 ⟨he, ?_, by simp [he]⟩, hpde⟩
    rintro rfl
    exact hnt i ht'
  · by_cases hf : g = d ∨ ∃ i, use g = .table d i
    · cases hf with
      | inl hf => exact h.ref_of (by simp [hf, hd, Use.Structural])
      | inr hf =>
        obtain ⟨i, hf⟩ := hf
        exact h.ref_of (by simp [hf, Use.Structural])
    · rw [not_or, not_exists] at hf
      rw [retired_of_ne hf.1 hf.2] at hg
      exact h.ref g hg

end SystemsProjects.Cow
