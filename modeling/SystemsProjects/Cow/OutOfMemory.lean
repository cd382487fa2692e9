import SystemsProjects.Cow.Conservation

/-!
# When `kalloc` returns 0

`fork` gives back its kernel stack when the address space cannot be copied, but `setupkvm` does not give
back the pages it has allocated: a `fork` that fails leaves the kernel as it was if and only if it fails
before the second page (`forkClean_iff`).  `cowHandler` goes on with the null pointer: it never leaves
the memory as it was (`not_cleanFault`).
-/

namespace SystemsProjects.Cow

open Sharing

variable {L : Layout} {lost : Word} {leak : Set Page} {eager : Bool} {s s' : Sys} {m m' : Mem}
  {use use' : Page → Use} {f g d k v : Page} {p i np : Slot} {va : Word}

/-! ## fork -/

def OnFreeList (s : Sys) (f : Page) : Prop := ∃ l, FreeChain s.mem.page s.mem.freelist l ∧ f ∈ l

/-- No process has been made: `fork` has returned -1. -/
def ForkFailed (s s' : Sys) : Prop := ∀ i, Live s' i → Live s i

/-- The kernel is as before a `fork` of `p`. -/
structure Undone (p : Slot) (s s' : Sys) : Prop where
  freelist : ∀ f, OnFreeList s' f ↔ OnFreeList s f
  freePages : s'.mem.freePages = s.mem.freePages
  refCnt : ∀ f, ¬ OnFreeList s f → s'.mem.refCnt f = s.mem.refCnt f
  ptes : ∀ v, pteOf s'.mem (s.procs p).pgdir v = pteOf s.mem (s.procs p).pgdir v
  unused : ∀ i, Live s' i ↔ Live s i

/-- A `fork` of `p` that fails leaves the kernel as it was. -/
def ForkClean (L : Layout) (p : Slot) (s : Sys) : Prop :=
  ∀ s', fork L cowuvm p s = .ok s' → ForkFailed s s' → Undone p s s'

theorem Owned.onFreeList_iff (h : Owned L lost s.mem use) : OnFreeList s f ↔ use f = .free := by
  obtain ⟨l, hchain, -, hmem, -⟩ := h.frames.free
  rw [← hmem f]
  constructor
  · rintro ⟨l', hchain', hf⟩
    rwa [hchain.unique hchain']
  · exact fun hf => ⟨l, hchain, hf⟩

/-- A page directory takes 13 pages. -/
theorem NewDir.le_freeCount (h : NewDir L lost m use d m' use') (howned : Owned L lost m use) :
    13 ≤ freeCount use := by
  let table : Index → Page := fun i => if hi : ∃ t, use' t = .table d i then hi.choose else d
  have htable : ∀ i, KernelIndex i → use' (table i) = .table d i := by
    intro i hi
    have hx := (h.tables i).2 hi
    simp only [table, dif_pos hx]
    exact hx.choose_spec
  have hinj : Set.InjOn table {i | KernelIndex i} := by
    intro i hi j hj hij
    have hx := htable i hi
    rw [hij, htable j hj] at hx
    exact (Use.table.inj hx).2.symm
  have hfree : table '' {i | KernelIndex i} ⊆ {g | use g = .free} \ {d} := by
    rintro g ⟨i, hi, rfl⟩
    have hx := htable i hi
    have hgd : table i ≠ d := by
      intro hgd
      rw [hgd, h.dir] at hx
      cases hx
    refine ⟨?_, hgd⟩
    cases h.tags (table i) hgd with
    | inl hsame =>
      rw [hsame] at hx
      have := (howned.frames.table _ d i hx).1
      rw [h.fresh] at this
      cases this
    | inr hx => exact hx.1
  have hle := Set.ncard_le_ncard hfree
  rw [hinj.ncard_image, ncard_kernelIndex] at hle
  have hd := Set.ncard_sdiff_singleton_add_one (show d ∈ {g | use g = .free} from h.fresh)
  unfold freeCount
  omega

/-- The number of pages on the free list. -/
theorem Inv.toNat_freePages (h : Inv L 0#32 eager leak s use) : s.mem.freePages.toNat = freeCount use := by
  obtain ⟨l, -, hnodup, hmem, hlen⟩ := h.owned.frames.free
  have hle := h.owned.frames.length_le hnodup fun f hf => (hmem f).1 hf
  have hcount : l.length = freeCount use := by
    unfold freeCount
    rw [show {g | use g = .free} = ((l.toFinset : Finset Page) : Set Page) by ext g; simp [hmem],
      Set.ncard_coe_finset, List.toFinset_card_of_nodup hnodup]
  rw [hlen, BitVec.add_zero, BitVec.toNat_ofNat, ← hcount]
  omega

/-- How `fork` goes on when it has a slot and a kernel stack. -/
theorem fork_of_setupkvm_none (hp : Live s p)
    (hfind : (List.finRange NPROC).find? (fun i => (s.procs i).state = .unused) = some np)
    (hk : kalloc s.mem = (some k, m)) (hsetup : setupkvm L m = .ok (none, m')) :
    fork L cowuvm p s = (kfree L k m').map fun m' => withoutChild s np
      { s.procs np with pgdir := 0#20, kstack := 0#20, state := .unused, pid := s.nextpid } m' := by
  rw [fork_eq hfind hp hk]
  unfold cowuvm uvmWith
  rw [hsetup]
  rfl

/-- The frames are used as before, and only free pages have changed. -/
theorem Inv.undone (h : Inv L lost eager leak s use) (hp : Live s p) (h' : Owned L lost s'.mem use)
    (hpages : ∀ g, use g ≠ .free → s'.mem.page g = s.mem.page g)
    (href : ∀ g, use g ≠ .free → s'.mem.refCnt g = s.mem.refCnt g) (hlive : ∀ i, Live s' i ↔ Live s i) :
    Undone p s s' := by
  refine ⟨fun f => ?_, ?_, fun f hf => ?_, fun v => ?_, hlive⟩
  · rw [h'.onFreeList_iff, h.owned.onFreeList_iff]
  · rw [h'.frames.freePages_eq, h.owned.frames.freePages_eq]
  · apply href
    rwa [h.owned.onFreeList_iff] at hf
  · apply h.owned.frames.pteOf_congr (h.dir hp)
    · exact hpages _ (by simp [h.dir hp])
    · intro t i ht
      exact hpages t (by simp [ht])

theorem exists_find_unused (h : ¬ ∀ i, Live s i) :
    ∃ np, (List.finRange NPROC).find? (fun i => (s.procs i).state = .unused) = some np := by
  rw [← Option.isSome_iff_exists, List.find?_isSome]
  rw [not_forall] at h
  obtain ⟨i, hi⟩ := h
  exact ⟨i, List.mem_finRange i, by simpa [Live] using hi⟩

/-- With two to thirteen free pages, `fork` fails and all of them but one are lost. -/
theorem Inv.not_forkClean (h : Inv L 0#32 false leak s use) (hp : Live s p) (hslot : ¬ ∀ i, Live s i)
    (hlo : 2 ≤ freeCount use) (hhi : freeCount use ≤ 13) :
    ∃ s', fork L cowuvm p s = .ok s' ∧ ForkFailed s s' ∧ s'.mem.freePages = 1#32 := by
  obtain ⟨np, hfind⟩ := exists_find_unused hslot
  have hnp : ¬ Live s np := fun hx => hx (find_unused hfind)
  obtain ⟨k, m, hk, hkf, h₁, -, -, -, -⟩ := h.owned.kalloc_eq_some fun hz => by
    have := h.owned.freeCount_eq_zero hz
    omega
  have hcount := freeCount_update (x := .kern) hkf (by simp)
  obtain ⟨d, m', use', -, hnew⟩ | ⟨m', use', hsetup, hleak⟩ := h₁.setupkvm_cases
  · have := hnew.le_freeCount h₁
    omega
  · have hk' : use' k = .kern := by
      cases hleak.tags k with
      | inl hx => rw [hx, Function.update_self]
      | inr hx => exact hx.2
    obtain ⟨m'', hm'', h₂, -⟩ := hleak.owned.kfree_kern hk'
    refine ⟨_, by rw [fork_of_setupkvm_none hp hfind hk hsetup, hm'']; rfl, fun i hi => ?_, ?_⟩
    · exact (live_withoutChild hnp (by rfl)).1 hi
    · have hone : {g | Function.update use' k .free g = .free} = {k} := by
        ext g
        rw [Set.mem_singleton_iff, Set.mem_ofPred_eq]
        by_cases hg : g = k
        · simp [hg]
        · rw [Function.update_of_ne hg]
          exact iff_of_false (hleak.exhausted g) hg
      show m''.freePages = 1#32
      rw [h₂.frames.freePages_eq, freeCount, hone, Set.ncard_singleton]
      rfl

/-- Without an unused slot, `fork` does nothing. -/
theorem Inv.forkClean_of_full (h : Inv L lost false leak s use) (hp : Live s p) (hall : ∀ i, Live s i) :
    ForkClean L p s := by
  intro s' hs' _
  have hfind : (List.finRange NPROC).find? (fun i => (s.procs i).state = .unused) = none := by
    rw [List.find?_eq_none]
    intro i _
    simpa [Live] using hall i
  rw [fork_of_no_slot hfind] at hs'
  obtain rfl := Except.ok.inj hs'
  exact h.undone hp h.owned (fun _ _ => rfl) (fun _ _ => rfl) fun _ => Iff.rfl

/-- With at most one free page, a `fork` that fails leaves everything as it was. -/
theorem Inv.forkClean_of_le_one (h : Inv L lost false leak s use) (hp : Live s p) (hle : freeCount use ≤ 1) :
    ForkClean L p s := by
  by_cases hslot : ∀ i, Live s i
  · exact h.forkClean_of_full hp hslot
  intro s' hs' _
  obtain ⟨np, hfind⟩ := exists_find_unused hslot
  have hnp : ¬ Live s np := fun hx => hx (find_unused hfind)
  by_cases hzero : s.mem.freelist = 0#32
  · rw [fork_of_no_page hfind (kalloc_of_eq_zero hzero)] at hs'
    obtain rfl := Except.ok.inj hs'
    exact h.undone hp (h.owned.setOom true).1 (fun _ _ => rfl) (fun _ _ => rfl)
      fun i => live_withoutChild hnp (by rfl)
  · obtain ⟨k, m, hk, hkf, h₁, -, hpage, href, -⟩ := h.owned.kalloc_eq_some hzero
    have hcount := freeCount_update (x := .kern) hkf (by simp)
    have hempty : m.freelist = 0#32 := by
      by_contra hne
      obtain ⟨g, m', -, hg, -⟩ := h₁.kalloc_eq_some hne
      have := freeCount_update (x := .kern) hg (by simp)
      omega
    have hsetup : setupkvm L m = .ok (none, { m with oom := true }) := by
      rw [setupkvm, kalloc_of_eq_zero hempty]
    obtain ⟨m'', hm'', hframes, hpage₂, href₂, -⟩ := ((h₁.setOom true).1).frames.kfree_eq_ok
      (f := k) (by simp)
    obtain ⟨m₃, hm₃, h₃, -⟩ := ((h₁.setOom true).1).kfree_kern (f := k) (by simp)
    obtain rfl := Except.ok.inj (hm''.symm.trans hm₃)
    rw [Function.update_idem, show Function.update use k .free = use by
      rw [← hkf, Function.update_eq_self]] at h₃
    rw [fork_of_setupkvm_none hp hfind hk hsetup, hm''] at hs'
    obtain rfl := Except.ok.inj hs'
    have hne : ∀ g, use g ≠ .free → g ≠ k := by
      rintro g hg rfl
      exact hg hkf
    refine h.undone hp h₃ (fun g hg => ?_) (fun g hg => ?_) fun i => live_withoutChild hnp (by rfl)
    · show m''.page g = _
      rw [hpage₂ g (hne g hg)]
      exact congrFun hpage g
    · show m''.refCnt g = _
      rw [href₂]
      exact href g (hne g hg)

/-- With fourteen free pages and a slot, `fork` does not return -1. -/
theorem Inv.fork_live (h : Inv L lost false leak s use) (hp : Live s p) (hlo : 14 ≤ freeCount use)
    (hfind : (List.finRange NPROC).find? (fun i => (s.procs i).state = .unused) = some np)
    (hs' : fork L cowuvm p s = .ok s') : Live s' np := by
  obtain ⟨k, m, hk, hkf, h₁, -, -, -, -⟩ := h.owned.kalloc_eq_some fun hz => by
    have := h.owned.freeCount_eq_zero hz
    omega
  have hcount := freeCount_update (x := .kern) hkf (by simp)
  obtain ⟨t, ht⟩ := h.exists_table hp
  have htk : t ≠ k := by
    rintro rfl
    simp [hkf] at ht
  rw [fork_eq hfind hp hk] at hs'
  obtain ⟨herr, -⟩ | ⟨d, m', use', hrun, -, -⟩ | ⟨m', use', -, hleak⟩ :=
    h₁.cowuvm_cases (p := (s.procs p).pgdir) (by rw [Function.update_of_ne htk, ht]) (h.size p hp)
  · rw [herr] at hs'
    cases hs'
  · rw [hrun] at hs'
    rw [← Except.ok.inj hs']
    exact live_withChild.2 (Or.inl rfl)
  · have hfew : freeCount (Function.update use k .kern) ≤ 12 := hleak.few
    omega

theorem Inv.forkClean_iff (h : Inv L 0#32 false leak s use) (hp : Live s p) :
    ForkClean L p s ↔ (∀ i, Live s i) ∨ freeCount use ≤ 1 ∨ 14 ≤ freeCount use := by
  constructor
  · intro hclean
    by_contra hx
    rw [not_or, not_or] at hx
    obtain ⟨s', hs', hfailed, hone⟩ := h.not_forkClean hp hx.1 (by omega) (by omega)
    have hsame := congrArg BitVec.toNat (hclean s' hs' hfailed).freePages
    rw [hone, h.toNat_freePages, show (1#32 : Word).toNat = 1 from rfl] at hsame
    omega
  · intro hcond
    by_cases hslot : ∀ i, Live s i
    · exact h.forkClean_of_full hp hslot
    · cases hcond.resolve_left hslot with
      | inl hle => exact h.forkClean_of_le_one hp hle
      | inr hge =>
        intro s' hs' hfailed
        obtain ⟨np, hfind⟩ := exists_find_unused hslot
        exact absurd (hfailed np (h.fork_live hp hge hfind hs')) fun hx => hx (find_unused hfind)

/-- A `fork` that fails leaves the kernel as it was if and only if there is no unused slot, or at most one
free page, or enough free pages for it not to fail. -/
theorem fork_undone_iff {ram : Page → PageData} {init : List Byte} {es : List Event} {s₀ : Sys}
    (hboot : boot L ram init = .ok s₀)
    (hes : Trace.Along (next L) (fun s e => ¬ e.Fails s ∧ e.Fits) s₀ es)
    (hrun : Trace.run (next L) s₀ es = some s) (hp : Live s p) :
    ForkClean L p s ↔
      (∀ i, Live s i) ∨ s.mem.freePages.toNat ≤ 1 ∨ 14 ≤ s.mem.freePages.toNat := by
  obtain ⟨leak, use, h⟩ := exists_inv_of_run hboot hes hrun
  rw [h.toNat_freePages]
  exact h.forkClean_iff hp

/-- The first process, with plenty of memory. -/
theorem fork_undone_iff_boot : ∃ s₀, boot smallLayout blankRam [] = .ok s₀ ∧
    (ForkClean smallLayout initSlot s₀ ↔
      (∀ i, Live s₀ i) ∨ s₀.mem.freePages.toNat ≤ 1 ∨ 14 ≤ s₀.mem.freePages.toNat) := by
  obtain ⟨s₀, use₀, f₀, hboot, -, h₀⟩ := exists_boot_running
  exact ⟨s₀, hboot, fork_undone_iff hboot (show Trace.Along _ _ s₀ [] from trivial) rfl
    (h₀.live_iff.2 (by decide))⟩

/-- A kernel that ends at page `kend`. -/
def layoutAt (kend : Page) (h : 257 ≤ kend.toNat ∧ kend.toNat < 4096) : Layout :=
  { data := 257#20, kend := kend, text_lt := smallLayout.text_lt, data_le := h.1, kend_lt := h.2 }

theorem Booted.live_iff {init : List Byte} {f₀ : Page} (h : Booted L init s use f₀) :
    Live s i ↔ i = initSlot := by
  unfold Live
  by_cases hi : i = initSlot
  · rw [hi, h.first]
    simp
  · rw [h.procs i hi]
    simp [hi, Proc.zero]

/-- The number of pages that `kinit` has made free. -/
theorem Inv.ncard_le (h : Inv L lost eager leak s use) :
    {g | use g ≠ .reserved}.ncard ≤ 4096 - L.kend.toNat := by
  have hsub : BitVec.toNat '' {g : Page | use g ≠ .reserved} ⊆
      ((Finset.Ico L.kend.toNat 4096 : Finset ℕ) : Set ℕ) := by
    rintro n ⟨g, hg, rfl⟩
    rw [Finset.coe_Ico, Set.mem_Ico]
    exact h.owned.frames.range g hg
  have hle := Set.ncard_le_ncard hsub
  rwa [Set.ncard_image_of_injective _ (fun a b => BitVec.eq_of_toNat_eq), Set.ncard_coe_finset,
    Nat.card_Ico] at hle

/-- The start of the kernel takes 29 pages. -/
theorem Booted.freeCount_eq {init : List Byte} {f₀ : Page} (h : Booted L init s use f₀) :
    freeCount use + 29 = 4096 - L.kend.toNat := by
  have hcount := h.inv.count
  have hlive : liveCount s = 1 := by
    unfold liveCount
    rw [show {i | Live s i} = {initSlot} by ext i; exact h.live_iff, Set.ncard_singleton]
  have huser : 1 ≤ userCount use := by
    obtain ⟨f, hf, -⟩ := h.page
    exact (Set.ncard_pos (Set.toFinite _)).2 ⟨f, (h.inv.owned.counts.entry _ _ f true hf).2.2⟩
  have hle := h.inv.ncard_le
  have hroom := h.room
  rw [hlive, Set.ncard_singleton] at hcount
  omega

/-- With five free pages the first `fork` fails, and four of them are lost. -/
theorem not_undone_tight : ∃ s₀ s',
    boot (layoutAt 4062#20 (by decide)) blankRam [] = .ok s₀ ∧
    fork (layoutAt 4062#20 (by decide)) cowuvm initSlot s₀ = .ok s' ∧ ForkFailed s₀ s' ∧
    s₀.mem.freePages = 5#32 ∧ s'.mem.freePages = 1#32 ∧ ¬ Undone initSlot s₀ s' := by
  obtain ⟨e, -, hx | hx⟩ | ⟨s₀, use, f₀, hboot, hb⟩ := boot_cases (layoutAt 4062#20 (by decide)) blankRam []
  · exact absurd hx (by decide)
  · exact absurd hx (by decide)
  · have hfree := hb.freeCount_eq
    rw [show (layoutAt 4062#20 (by decide)).kend.toNat = 4062 by decide] at hfree
    have hinit : Live s₀ initSlot := hb.live_iff.2 rfl
    have hslot : ¬ ∀ i, Live s₀ i := fun hall => absurd (hb.live_iff.1 (hall slotA)) (by decide)
    obtain ⟨s', hs', hfailed, hone⟩ := (hb.inv.of_eager false).not_forkClean hinit hslot (by omega) (by omega)
    have hfive : s₀.mem.freePages = 5#32 := by
      apply BitVec.eq_of_toNat_eq
      rw [hb.inv.toNat_freePages, show (5#32 : Word).toNat = 5 from rfl]
      omega
    refine ⟨s₀, s', hboot, hs', hfailed, hfive, hone, fun hx => ?_⟩
    have hsame := hx.freePages
    rw [hfive, hone] at hsame
    exact absurd hsame (by decide)

/-! ## cowHandler -/

/-- The kernel has marked the process and changed nothing else that user code or `freevm` depends on, and
the address space of the process can be freed. -/
structure CleanFault (L : Layout) (p : Slot) (s s' : Sys) : Prop where
  killed : (s'.procs p).killed = true
  ptes : ∀ i v, Live s i → pteOf s'.mem (s.procs i).pgdir v = pteOf s.mem (s.procs i).pgdir v
  refCnt : ∀ f, s'.mem.refCnt f = s.mem.refCnt f
  bytes : ∀ i v f, Live s i → userFrame s i v = some f → s'.mem.page f = s.mem.page f
  freed : ∃ m, freevm L (s.procs p).pgdir s'.mem = .ok m

/-- What `cowHandler` does when `kalloc` returns 0; `t` is the page table of the page. -/
theorem cowHandler_of_fails {t : Page} (hva : va ≤ USERTOP)
    (ht : pageOf (s.mem.page (s.procs p).pgdir (pdx (pageOf va))) = t)
    (hf : access s.mem (s.procs p).pgdir va false = some f) (hshared : 1 < refCount f s.mem)
    (hzero : s.mem.freelist = 0#32) :
    cowHandler p va s =
      match kernelFrame s.mem (s.procs p).pgdir 0#20 with
      | some f₀ => .ok { Cow.kill (s.procs p).pid s with
          mem := ((decPageRef f { s.mem with oom := true }).setPage f₀ (s.mem.page f)).write t
            (ptx (pageOf va))
            (0#32 ||| pteFlags (s.mem.page t (ptx (pageOf va))) ||| PTE_W ||| PTE_P ||| PTE_U) }
      | none => .error .outOfMemory := by
  unfold access at hf
  simp only [ht] at hf
  split_ifs at hf with hflags
  simp only [Bool.and_eq_true] at hflags
  obtain ⟨⟨⟨⟨⟨hpde, -⟩, -⟩, hP⟩, hU⟩, -⟩ := hflags
  obtain rfl := Option.some.inj hf
  have hwalk : firstDeref s p va = some (t, ptx (pageOf va)) := by
    unfold firstDeref walkpgdir
    simp only [hpde, if_true, ht]
  unfold cowHandler
  simp only [hwalk]
  rw [if_neg (by simp [hP, hU, hva]), if_neg (by omega), kalloc_of_eq_zero hzero]
  rfl

/-- When `kalloc` returns 0 in a write fault on a shared page, `cowHandler` is never clean. -/
theorem not_cleanFault (hva : va ≤ USERTOP) (hfails : HandlerFails s p va) :
    ¬ ∃ s', cowHandler p va s = .ok s' ∧ CleanFault L p s s' := by
  obtain ⟨-, ⟨f, hf, hshared⟩, hzero⟩ := hfails
  rintro ⟨s', hs', hclean⟩
  rw [cowHandler_of_fails hva rfl hf hshared hzero] at hs'
  cases hnull : kernelFrame s.mem (s.procs p).pgdir 0#20 with
  | none =>
    rw [hnull] at hs'
    cases hs'
  | some f₀ =>
    rw [hnull] at hs'
    have hcount := hclean.refCnt f
    rw [← Except.ok.inj hs'] at hcount
    simp only [decPageRef, Mem.write_refCnt, Mem.setPage_refCnt, Function.update_self] at hcount
    have := congrArg BitVec.toNat hcount
    rw [BitVec.toNat_sub, show (1#32 : Word).toNat = 1 from rfl] at this
    have := (s.mem.refCnt f).isLt
    omega

/-- With 14 free pages, the first process forks and no page is free. -/
theorem exists_full_fork : ∃ s₀ s,
    boot (layoutAt 4053#20 (by decide)) blankRam [] = .ok s₀ ∧
    next (layoutAt 4053#20 (by decide)) s₀ (.mem (.fork initSlot)) = some s ∧ Live s initSlot ∧
    HandlerFails s initSlot 0#32 := by
  obtain ⟨e, -, hx | hx⟩ | ⟨s₀, use, f₀, hboot, hb⟩ := boot_cases (layoutAt 4053#20 (by decide)) blankRam []
  · exact absurd hx (by decide)
  · exact absurd hx (by decide)
  have hfree := hb.freeCount_eq
  rw [show (layoutAt 4053#20 (by decide)).kend.toNat = 4053 by decide] at hfree
  have h := hb.inv.of_eager false
  have hinit : Live s₀ initSlot := hb.live_iff.2 rfl
  have hslot : ¬ ∀ i, Live s₀ i := fun hall => absurd (hb.live_iff.1 (hall slotA)) (by decide)
  obtain ⟨np, hfind⟩ := exists_find_unused hslot
  have hnp : ¬ Live s₀ np := fun hx => hx (find_unused hfind)
  have hpn : initSlot ≠ np := by
    rintro rfl
    exact hnp hinit
  have hsz : (s₀.procs initSlot).sz = 4096#32 := by rw [hb.first]
  obtain ⟨k, m, hk, hkf, h₁, hT₁, hpage, -, -⟩ := h.owned.kalloc_eq_some fun hz => by
    have := h.owned.freeCount_eq_zero hz
    omega
  have hcount := freeCount_update (x := .kern) hkf (by simp)
  obtain ⟨t, ht⟩ := h.exists_table hinit
  have htk : t ≠ k := by
    rintro rfl
    simp [hkf] at ht
  obtain ⟨f, hf, -⟩ := hb.page
  have hfork : fork (layoutAt 4053#20 (by decide)) cowuvm initSlot s₀ = _ := fork_eq hfind hinit hk
  obtain ⟨-, v, hv, hnone⟩ | ⟨d, m', use', hrun, hforked, hshares⟩ | ⟨m', use', -, hleak⟩ :=
    h₁.cowuvm_cases (p := (s₀.procs initSlot).pgdir) (by rw [Function.update_of_ne htk, ht])
      (h.size initSlot hinit)
  · -- the first process has its page
    rw [hsz, show pagesBelow 4096#32 = 1 by decide, Nat.lt_one_iff] at hv
    rw [show v = 0#20 from BitVec.eq_of_toNat_eq hv, view_eq_none_iff, hT₁, hf] at hnone
    cases hnone
  swap
  · have hfew : freeCount (Function.update use k .kern) ≤ 12 := hleak.few
    omega
  rw [hrun] at hfork
  have hinv : Inv _ _ _ _ (withChild s₀ np initSlot k d m') _ :=
    h.withChild hinit hnp hkf hT₁ hforked (by simp)
  have hlive : ∀ i, Live (withChild s₀ np initSlot k d m') i ↔ i = np ∨ i = initSlot := fun i => by
    rw [live_withChild, hb.live_iff]
  have hnext : next (layoutAt 4053#20 (by decide)) s₀ (.mem (.fork initSlot)) =
      some (withChild s₀ np initSlot k d m') := by
    have hstate : (s₀.procs initSlot).state = .runnable := by rw [hb.first]
    have hkilled : (s₀.procs initSlot).killed = false := by rw [hb.first]
    rw [next_eq_some_iff]
    show memStep _ cowuvm s₀ (.fork initSlot) = _
    unfold memStep
    rw [if_neg (by rw [show (MemEvent.fork initSlot).proc = initSlot from rfl, hstate]; simp)]
    exact syscall_eq_ok hkilled hfork (by rw [withChild_procs_of_ne hpn, hkilled])
  -- parent and child share the page, and nothing is free
  obtain ⟨hTp, hTd⟩ := hshares.shared 0#20 f true (by rw [hsz]; decide) (by rw [hT₁, hf])
  have hdir := (hforked.owned.counts.entry _ _ _ _ hTp).1
  have hfu := (hforked.owned.counts.entry _ _ _ _ hTp).2.2
  have hne : d ≠ (s₀.procs initSlot).pgdir := by
    intro hx
    have hfresh := (free_of_update hforked.fresh).1
    rw [hx, h.dir hinit] at hfresh
    cases hfresh
  have hshared : 1 < refCount f m' := by
    rw [hforked.owned.refCount_eq hfu]
    have hmany := one_lt_refs (frame_of_eq_some hTp) (frame_of_eq_some hTd) fun hx => hne (Prod.mk.inj hx).1
    omega
  have hzero : m'.freelist = 0#32 := by
    by_contra hx
    obtain ⟨g, -, -, hg, -⟩ := hforked.owned.kalloc_eq_some hx
    have htotal := hinv.count
    have hle := hinv.ncard_le
    have hlives : liveCount (withChild s₀ np initSlot k d m') = 2 := by
      unfold liveCount
      rw [show {i | Live (withChild s₀ np initSlot k d m') i} = {np, initSlot} by ext i; exact hlive i,
        Set.ncard_pair hpn.symm]
    have hfree' : 1 ≤ freeCount use' := (Set.ncard_pos (Set.toFinite _)).2 ⟨g, hg⟩
    have huser' : 1 ≤ userCount use' := (Set.ncard_pos (Set.toFinite _)).2 ⟨f, hfu⟩
    rw [hlives, Set.ncard_singleton] at htotal
    rw [show (layoutAt 4053#20 (by decide)).kend.toNat = 4053 by decide] at hle
    omega
  have haccess : ∀ write, access m' (s₀.procs initSlot).pgdir 0#32 write = if write then none else some f := by
    intro write
    rw [hforked.owned.access_eq hdir, show pageOf 0#32 = 0#20 by decide, hTp]
    cases write with
    | false => rfl
    | true => rfl
  refine ⟨s₀, withChild s₀ np initSlot k d m', hboot, hnext, (hlive initSlot).2 (Or.inr rfl), ?_, ⟨f, ?_, hshared⟩,
    hzero⟩
  · rw [withChild_procs_of_ne hpn]
    exact haccess true
  · rw [withChild_procs_of_ne hpn]
    exact haccess false

theorem not_cleanFault_full_fork : ∃ s₀ s,
    boot (layoutAt 4053#20 (by decide)) blankRam [] = .ok s₀ ∧
    next (layoutAt 4053#20 (by decide)) s₀ (.mem (.fork initSlot)) = some s ∧
    HandlerFails s initSlot 0#32 ∧
    ¬ ∃ s', cowHandler initSlot 0#32 s = .ok s' ∧ CleanFault (layoutAt 4053#20 (by decide)) initSlot s s' := by
  obtain ⟨s₀, s, hboot, hnext, -, hfails⟩ := exists_full_fork
  exact ⟨s₀, s, hboot, hnext, hfails, not_cleanFault (by decide) hfails⟩

/-- The fault maps frame 0 into the process, and its address space cannot be freed. -/
theorem freevm_panics_full_fork : ∃ s₀ s s',
    boot (layoutAt 4053#20 (by decide)) blankRam [] = .ok s₀ ∧
    next (layoutAt 4053#20 (by decide)) s₀ (.mem (.fork initSlot)) = some s ∧
    HandlerFails s initSlot 0#32 ∧ cowHandler initSlot 0#32 s = .ok s' ∧
    freevm (layoutAt 4053#20 (by decide)) (s.procs initSlot).pgdir s'.mem = .error (.panic "kfree") ∧
    ¬ CleanFault (layoutAt 4053#20 (by decide)) initSlot s s' := by
  obtain ⟨s₀, s, hboot, hnext, hlive, hfails⟩ := exists_full_fork
  have halong : Trace.Along (next (layoutAt 4053#20 (by decide))) (fun s e => ¬ e.Fails s ∧ e.Fits) s₀
      [.mem (.fork initSlot)] := Trace.along_cons_of_eq ⟨id, trivial⟩ hnext trivial
  obtain ⟨leak, use, h⟩ := exists_inv_of_run hboot halong (Trace.run_singleton hnext)
  obtain ⟨f, haccess, hshared⟩ := hfails.2.1
  obtain ⟨t, ht⟩ := h.exists_table hlive
  have htable : pageOf (s.mem.page (s.procs initSlot).pgdir (pdx (pageOf 0#32))) = t := by
    rw [show pdx (pageOf 0#32) = 0#10 by decide, (h.owned.frames.table t _ _ ht).2, pageOf_pdeFor]
  have hhandler := cowHandler_of_fails (by decide) htable haccess hshared hfails.2.2
  rw [show pageOf 0#32 = 0#20 by decide] at hhandler
  have hf : frame (userTable s.mem use) ((s.procs initSlot).pgdir, 0#20) = some f := by
    rw [h.owned.access_eq (h.dir hlive)] at haccess
    obtain ⟨e, he, hef⟩ := Option.bind_eq_some_iff.1 haccess
    exact Option.map_eq_some_iff.2 ⟨e, he, by simpa using hef⟩
  rw [h.owned.kernelFrame_eq (v := 0#20) ht (by decide), hf] at hhandler
  obtain ⟨b, hb⟩ := frame_eq_some_iff.1 hf
  have hfu := (h.owned.counts.entry _ _ _ _ hb).2.2
  have hframes := ((h.owned.frames.setOom true).setRef hfu (s.mem.refCnt f - 1#32)).setPage (f := f)
    (by simp [hfu]) (by simp [hfu]) (s.mem.page f)
  have hpanic : ∀ w, has w PTE_P = true → pageOf w = 0#20 →
      freevm (layoutAt 4053#20 (by decide)) (s.procs initSlot).pgdir
        (((decPageRef f { s.mem with oom := true }).setPage f (s.mem.page f)).write t (ptx 0#20) w) =
        .error (.panic "kfree") := by
    intro w hP hw
    have hwrite := hframes.write (f := t) (by simp [ht]) (by simp [ht]) (ptx 0#20) w
    have hd0 : (s.procs initSlot).pgdir ≠ 0#20 := h.owned.frames.ne_zero (by simp [h.dir hlive])
    unfold freevm
    rw [if_neg hd0, deallocuvm, if_neg (by decide),
      show pagesBelow USERTOP - (pgRoundUp 0#32).toNat = 159 + 1 by decide,
      show pgRoundUp 0#32 = 0#20 by decide, freeLoop, freePage]
    rw [show walkpgdir (s.procs initSlot).pgdir 0#20 false (((decPageRef f { s.mem with oom := true }).setPage f
      (s.mem.page f)).write t (ptx 0#20) w) = (some (t, ptx 0#20), _) from
        hwrite.walkpgdir_eq (v := 0#20) ht false]
    simp only [Mem.write_page_self, Function.update_self, hP, if_true, hw]
    rfl
  refine ⟨s₀, s, _, hboot, hnext, hfails, hhandler, hpanic _ (by simp) (by simp), fun hclean => ?_⟩
  obtain ⟨m, hm⟩ := hclean.freed
  rw [hpanic _ (by simp) (by simp)] at hm
  cases hm

end SystemsProjects.Cow
