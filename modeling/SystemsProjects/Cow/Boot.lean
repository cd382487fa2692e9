import Mathlib.Order.Interval.Finset.Nat
import SystemsProjects.Cow.Step

/-!
# The start of the kernel

`kinit` puts every page from the end of the kernel to the end of physical memory on the free list;
`kvmalloc` and `userinit` build the page directory of the kernel and the first process.  From there the
invariant holds (`boot_cases`).
-/

namespace SystemsProjects.Cow

open Sharing Holding

variable {L : Layout} {lost : Word} {s s' : Sys} {m m' : Mem} {use use' : Page → Use}
  {f g d t v : Page} {p i : Slot}

/-! ## kinit -/

/-- The uses after `kinit`. -/
def freshUse (L : Layout) (f : Page) : Use :=
  if L.kend.toNat ≤ f.toNat ∧ f.toNat < 4096 then .free else .reserved

/-- The loop of `kinit` from page `a` on. -/
theorem kinitLoop_eq_ok : ∀ {n : ℕ} {a : Page} {m : Mem} {use : Page → Use},
    Frames L 0#32 m use → a.toNat + n = 4096 → L.kend.toNat ≤ a.toNat →
    (∀ g, a.toNat ≤ g.toNat → use g = .reserved) → (∀ g, m.refCnt g = 0#32) →
      ∃ m', kinitLoop L n a m = .ok m' ∧
        Frames L 0#32 m' (fun g => if a.toNat ≤ g.toNat ∧ g.toNat < 4096 then .free else use g) ∧
        m'.oom = m.oom
  | 0, a, m, use, h, hn, _, _, _ => by
    refine ⟨m, rfl, ?_, rfl⟩
    convert h using 2 with g
    rw [if_neg (by omega)]
  | n + 1, a, m, use, h, hn, hlo, hres, href => by
    have hnext : (a + 1#20).toNat = a.toNat + 1 := by
      rw [BitVec.toNat_add, BitVec.toNat_ofNat]
      omega
    have ha := hres a le_rfl
    obtain ⟨m₁, hm₁, h₁, -, href₁, hoom₁⟩ := h.kfree_of_range (f := a) hlo (by omega)
      (by simp [ha, Use.Structural]) (by simp [ha]) (by rw [href]; decide)
    obtain ⟨m₂, hm₂, h₂, hoom₂⟩ := kinitLoop_eq_ok (n := n) (a := a + 1#20) h₁ (by omega) (by omega)
      (fun g hg => by
        rw [Function.update_of_ne, hres g (by omega)]
        rintro rfl
        omega)
      (fun g => by rw [href₁, href])
    refine ⟨m₂, ?_, ?_, hoom₂.trans hoom₁⟩
    · rw [kinitLoop, hm₁]
      exact hm₂
    · convert h₂ using 2 with g
      rw [Function.update_apply, hnext]
      by_cases hga : g = a
      · rw [hga, if_pos ⟨le_rfl, by omega⟩, if_neg (by omega), if_pos rfl]
      · have : g.toNat ≠ a.toNat := fun hx => hga (BitVec.eq_of_toNat_eq hx)
        rw [if_neg hga]
        congr 1
        apply propext
        omega

/-- A memory without page directories has no user entries. -/
theorem Frames.owned (h : Frames L lost m use) (hdir : ∀ g, use g ≠ .dir) (huser : ∀ g, use g ≠ .user) :
    Owned L lost m use ∧ userTable m use = fun _ => none := by
  have hT : userTable m use = fun _ => none := by
    funext k
    unfold userTable
    rw [if_neg (hdir k.1)]
  refine ⟨⟨h, ⟨fun d v f w hx => ?_, fun f hf => absurd hf (huser f), fun f hf => absurd hf (huser f),
    fun k f hx => ?_, fun k k' f hx => ?_⟩, fun d v pte hd => absurd hd (hdir d)⟩, hT⟩
  · rw [hT] at hx
    cases hx
  · rw [hT] at hx
    cases hx
  · rw [hT] at hx
    cases hx

theorem kinit_eq_ok (L : Layout) (ram : Page → PageData) :
    ∃ m, kinit L ram = .ok m ∧ Owned L 0#32 m (freshUse L) ∧
      (userTable m (freshUse L) = fun _ => none) ∧ m.oom = false := by
  have hlt := L.kend_lt
  have hstart : Frames L 0#32 { page := ram, freelist := 0#32, freePages := 0#32
                                refCnt := fun _ => 0#32, oom := false } fun _ => .reserved := by
    refine ⟨fun _ h => absurd rfl h, ⟨[], rfl, List.nodup_nil, by simp, rfl⟩, by simp, by simp, by simp⟩
  obtain ⟨m, hm, h, hoom⟩ := kinitLoop_eq_ok (n := 4096 - L.kend.toNat) (a := L.kend) hstart (by omega)
    le_rfl (fun _ _ => rfl) fun _ => rfl
  have howned := (show Frames L 0#32 m (freshUse L) from h).owned
    (fun g => by unfold freshUse; split_ifs <;> simp) (fun g => by unfold freshUse; split_ifs <;> simp)
  exact ⟨m, hm, howned.1, howned.2, hoom⟩

/-! ## Counting free frames -/

/-- The number of free frames. -/
noncomputable def freeCount (use : Page → Use) : ℕ := {g | use g = .free}.ncard

theorem freeCount_freshUse (L : Layout) : freeCount (freshUse L) = 4096 - L.kend.toNat := by
  have hset : BitVec.toNat '' {g : Page | freshUse L g = .free} =
      ((Finset.Ico L.kend.toNat 4096 : Finset ℕ) : Set ℕ) := by
    ext n
    simp only [Set.mem_image, Set.mem_ofPred_eq, freshUse, Finset.coe_Ico, Set.mem_Ico]
    constructor
    · rintro ⟨g, hg, rfl⟩
      split_ifs at hg with hx
      exact hx
    · intro hn
      have hnat : (BitVec.ofNat 20 n).toNat = n := by
        rw [BitVec.toNat_ofNat]
        omega
      exact ⟨BitVec.ofNat 20 n, by rw [hnat, if_pos hn], hnat⟩
  unfold freeCount
  rw [← Set.ncard_image_of_injective _ (fun a b => BitVec.eq_of_toNat_eq), hset, Set.ncard_coe_finset,
    Nat.card_Ico]

theorem freeCount_update {x : Use} (hf : use f = .free) (hx : x ≠ .free) :
    freeCount (Function.update use f x) + 1 = freeCount use := by
  have hset : {g | Function.update use f x g = .free} = {g | use g = .free} \ {f} := by
    ext g
    by_cases hg : g = f
    · simp [hg, hx]
    · simp [hg]
  unfold freeCount
  rw [hset]
  exact Set.ncard_sdiff_singleton_add_one hf

theorem NewDir.freeCount_le (h : NewDir L lost m use d m' use') : freeCount use ≤ freeCount use' + 13 := by
  have hle : ({g | use g = .free} \ {g | use' g = .free}).ncard ≤ 13 := by
    apply h.owned.frames.ncard_le (d := d)
    rintro g ⟨hg, hg'⟩
    by_cases hgd : g = d
    · exact Or.inl hgd
    · cases h.tags g hgd with
      | inl hx => exact absurd (hx.trans hg) hg'
      | inr hx =>
        obtain ⟨-, i, hi⟩ := hx
        exact Or.inr ⟨i, hi, (h.tables i).1 ⟨g, hi⟩⟩
  have := Set.ncard_le_ncard_sdiff_add_ncard {g | use g = .free} {g | use' g = .free}
  unfold freeCount
  omega

theorem Owned.freeCount_eq_zero (h : Owned L lost m use) (hzero : m.freelist = 0#32) :
    freeCount use = 0 := by
  unfold freeCount
  rw [Set.ncard_eq_zero, Set.eq_empty_iff_forall_notMem]
  exact h.no_free hzero

/-! ## main -/

/-- The slot of the first process. -/
def initSlot : Slot := ⟨0, nproc_pos⟩

/-- The memory after `kvmalloc`, with the page directory `d` of the kernel. -/
structure Started (L : Layout) (m : Mem) (use : Page → Use) (f₀ d : Page) : Prop where
  owned : Owned L 0#32 m use
  entries : userTable m use = fun _ => none
  dirs : ∀ g, use g = .dir ↔ g = d
  kern : ∀ g, use g = .kern ↔ g = f₀
  complete : Complete use d
  oom : m.oom = false
  room : 4096 ≤ L.kend.toNat + freeCount use + 14

/-- The state in which the scheduler starts; `f₀` is the stack of `jmpkstack`. -/
structure Booted (L : Layout) (init : List Byte) (s : Sys) (use : Page → Use) (f₀ : Page) : Prop where
  inv : Inv L 0#32 true {f₀} s use
  oom : s.mem.oom = false
  loads : s.loads = []
  nextpid : s.nextpid = 2#32
  initproc : s.initproc = initSlot
  procs : ∀ i, i ≠ initSlot → s.procs i = Proc.zero
  first : s.procs initSlot =
    { sz := 4096#32, pgdir := (s.procs initSlot).pgdir, kstack := (s.procs initSlot).kstack
      state := .runnable, pid := 1#32, parent := none, killed := false }
  page : ∃ f, userTable s.mem use ((s.procs initSlot).pgdir, 0#20) = some (f, true) ∧
    s.mem.page f = writeBytes 0#12 init fun _ => 0#32
  room : 4096 ≤ L.kend.toNat + freeCount use + 29

theorem kvmalloc_cases (L : Layout) (ram : Page → PageData) :
    ∃ m f₀ m₁, kinit L ram = .ok m ∧ kalloc m = (some f₀, m₁) ∧
      ((∃ m₂, setupkvm L m₁ = .ok (none, m₂) ∧ 4096 < L.kend.toNat + 29) ∨
        ∃ d m₂ use, setupkvm L m₁ = .ok (some d, m₂) ∧ Started L m₂ use f₀ d) := by
  obtain ⟨m, hm, h, hT, hoom⟩ := kinit_eq_ok L ram
  have hcount := freeCount_freshUse L
  have hlt := L.kend_lt
  have hne : m.freelist ≠ 0#32 := fun hz => by
    have := h.freeCount_eq_zero hz
    omega
  obtain ⟨f₀, m₁, hk₁, hf₀, h₁, hT₁, -, -, hoom₁⟩ := h.kalloc_eq_some hne
  have hcount₁ := freeCount_update (x := .kern) hf₀ (by simp)
  refine ⟨m, f₀, m₁, hm, hk₁, ?_⟩
  obtain ⟨d, m₂, use, hm₂, hnew⟩ | ⟨m₂, use, hm₂, hleak⟩ := h₁.setupkvm_cases
  · have hcount₂ := hnew.freeCount_le
    refine Or.inr ⟨d, m₂, use, hm₂, hnew.owned, ?_, fun g => ?_, fun g => ?_, hnew.tables, ?_, by omega⟩
    · rw [hnew.entries, hT₁, hT]
    · rw [hnew.dir_iff]
      refine or_iff_left ?_
      by_cases hg : g = f₀
      · simp [hg]
      · rw [Function.update_of_ne hg]
        unfold freshUse
        split_ifs <;> simp
    · rw [hnew.eq_iff (by simp) (by simp) (by simp)]
      by_cases hg : g = f₀
      · simp [hg]
      · rw [Function.update_of_ne hg]
        refine iff_of_false ?_ hg
        unfold freshUse
        split_ifs <;> simp
    · rw [hnew.oom, hoom₁, hoom]
  · have hfew : freeCount (Function.update (freshUse L) f₀ .kern) ≤ 12 := hleak.few
    exact Or.inl ⟨m₂, hm₂, by omega⟩

theorem find_init : (List.finRange NPROC).find?
    (fun i => ((fun _ => Proc.zero : Slot → Proc) i).state = .unused) = some initSlot := by
  rfl

/-- The state after `userinit`. -/
def firstSys (m : Mem) (kpgdir pgdir kstack : Page) : Sys :=
  { mem := m
    procs := Function.update (fun _ => Proc.zero) initSlot
      { sz := 4096#32, pgdir := pgdir, kstack := kstack, state := .runnable, pid := 1#32, parent := none
        killed := false }
    nextpid := 2#32
    initproc := initSlot
    kpgdir := kpgdir
    loads := [] }

theorem firstSys_procs_self (m : Mem) (kpgdir pgdir kstack : Page) :
    (firstSys m kpgdir pgdir kstack).procs initSlot =
      { sz := 4096#32, pgdir := pgdir, kstack := kstack, state := .runnable, pid := 1#32, parent := none
        killed := false } := by
  unfold firstSys
  simp only [Function.update_self]

theorem firstSys_procs_of_ne (m : Mem) (kpgdir pgdir kstack : Page) (hi : i ≠ initSlot) :
    (firstSys m kpgdir pgdir kstack).procs i = Proc.zero := by
  unfold firstSys
  simp only [Function.update_of_ne hi]

theorem inv_firstSys {f₀ d₁ k : Page} (h : Owned L 0#32 m use)
    (hdir : ∀ g, use g = .dir ↔ g = d₁ ∨ g = d) (hkern : ∀ g, use g = .kern ↔ g = f₀ ∨ g = k)
    (hcomplete : Complete use d₁ ∧ Complete use d) (hne : d ≠ d₁ ∧ k ≠ f₀)
    (hT : userTable m use = Function.update (fun _ => none) (d, 0#20) (some (f, true))) :
    Inv L 0#32 true {f₀} (firstSys m d₁ d k) use := by
  have hself := firstSys_procs_self m d₁ d k
  have hlive : ∀ i, Live (firstSys m d₁ d k) i ↔ i = initSlot := by
    intro i
    unfold Live
    by_cases hi : i = initSlot
    · simp [hi, hself]
    · rw [firstSys_procs_of_ne _ _ _ _ hi]
      simp [hi, Proc.zero]
  have hentry : ∀ e v, (e, v) ≠ (d, 0#20) → userTable m use (e, v) = none := fun e v hev => by
    rw [hT, Function.update_of_ne hev]
  have hpgdirs : Held {i | Live (firstSys m d₁ d k) i} (fun i => ((firstSys m d₁ d k).procs i).pgdir) {d₁}
      {g | use g = .dir} := by
    refine Held.single hlive (fun e => ?_) ?_
    · rw [hself]
      exact hdir e
    · rw [hself]
      exact hne.1
  have hstacks : Held {i | Live (firstSys m d₁ d k) i} (fun i => ((firstSys m d₁ d k).procs i).kstack) {f₀}
      {g | use g = .kern} := by
    refine Held.single hlive (fun g => ?_) ?_
    · rw [hself]
      exact hkern g
    · rw [hself]
      exact hne.2
  refine Inv.of_held h (fun _ k' g b hk' => ?_) (fun i => ?_) hpgdirs (fun e he => ?_) hstacks (fun i hi => ?_)
    (fun i v hi hv => ?_) fun v => ?_
  · have hk'' : userTable m use k' = some (g, b) := hk'
    by_cases hx : k' = (d, 0#20)
    · rw [hx, hT, Function.update_self] at hk''
      exact (Prod.mk.inj (Option.some.inj hk'')).2.symm
    · rw [show k' = (k'.1, k'.2) from rfl, hentry _ _ hx] at hk''
      cases hk''
  · by_cases hi : i = initSlot
    · rw [hi, hself]
      simp
    · rw [firstSys_procs_of_ne _ _ _ _ hi]
      simp [Proc.zero]
  · cases (hdir e).1 he with
    | inl he => rw [he]; exact hcomplete.1
    | inr he => rw [he]; exact hcomplete.2
  · rw [(hlive i).1 hi, hself]
    show 4096#32 ≤ USERTOP
    decide
  · rw [(hlive i).1 hi, hself] at hv ⊢
    refine hentry d v fun hx => ?_
    rw [(Prod.mk.inj hx).2] at hv
    exact absurd hv (show ¬ pagesBelow 4096#32 ≤ (0#20 : Page).toNat by decide)
  · exact hentry _ v fun hx => hne.1 (Prod.mk.inj hx).1.symm

/-- The memory after `inituvm` has put `init` into the first page of the page directory `d`. -/
structure FirstPage (L : Layout) (d : Page) (init : List Byte) (m : Mem) (use : Page → Use) (f : Page)
    (m' : Mem) (use' : Page → Use) : Prop where
  owned : Owned L 0#32 m' use'
  keeps : Keeps use use'
  count : freeCount use' + 1 = freeCount use
  entries : userTable m' use' = Function.update (userTable m use) (d, 0#20) (some (f, true))
  page : m'.page f = writeBytes 0#12 init fun _ => 0#32
  oom : m'.oom = m.oom

theorem inituvm_cases (h : Owned L 0#32 m use) (hcomplete : Complete use d)
    (hempty : userTable m use (d, 0#20) = none) (init : List Byte) :
    (∃ e, inituvm d init m = .error e ∧ (freeCount use = 0 ∨ PGSIZE ≤ init.length)) ∨
    ∃ f m' use', inituvm d init m = .ok m' ∧ FirstPage L d init m use f m' use' := by
  by_cases hlen : PGSIZE ≤ init.length
  · exact Or.inl ⟨_, by rw [inituvm, inituvmWith, if_pos hlen], Or.inr hlen⟩
  by_cases hne : m.freelist = 0#32
  · refine Or.inl ⟨.outOfMemory, ?_, Or.inl (h.freeCount_eq_zero hne)⟩
    simp only [inituvm, inituvmWith, if_neg hlen, kalloc_of_eq_zero hne]
  obtain ⟨t, ht⟩ := hcomplete.exists_table
  obtain ⟨f, m₁, m₂, use₂, hk, hmap, h₂, honly, hf, huse₂, hT₂, hpage, hoom⟩ :=
    h.mapZeroed (a := 0#20) ht (by decide) hempty hne
  have hfu : use₂ f = .user := by rw [huse₂, Function.update_self]
  obtain ⟨h₃, hT₃⟩ := h₂.setPage (Or.inr hfu) (writeBytes 0#12 init (m₂.page f))
  refine Or.inr ⟨f, m₂.setPage f (writeBytes 0#12 init (m₂.page f)), use₂, ?_, h₃, honly.keeps, ?_,
    hT₃.trans hT₂, ?_, hoom⟩
  · rw [inituvm, inituvmWith, if_neg hlen, hk]
    simp only
    rw [show paddr 0#20 = (0#32 : Word) by decide] at hmap
    rw [hmap]
    rfl
  · rw [huse₂]
    exact freeCount_update hf (by simp)
  · rw [Mem.setPage_page_self, hpage]

/-- The first process, with the kernel stack `k`, the page directory `d` and its page. -/
theorem Started.booted {f₀ d₁ k : Page} {m₁ m₂ m₃ : Mem} {use₂ use₃ : Page → Use}
    (h : Started L m use f₀ d₁) (init : List Byte) (hkf : use k = .free) (hoom₁ : m₁.oom = m.oom)
    (hT₁ : userTable m₁ (Function.update use k .kern) = userTable m use)
    (hnew : NewDir L 0#32 m₁ (Function.update use k .kern) d m₂ use₂)
    (hpage : FirstPage L d init m₂ use₂ f m₃ use₃) : Booted L init (firstSys m₃ d₁ d k) use₃ f₀ := by
  have hroom := h.room
  have hcount₁ := freeCount_update (x := .kern) hkf (by simp)
  have hcount₂ := hnew.freeCount_le
  have hcount₃ := hpage.count
  have hkeep : ∀ {g : Page} {u : Use}, u ≠ .free → u ≠ .user → (use₃ g = u ↔ use₂ g = u) :=
    fun hf hu => hpage.keeps.eq_iff hf hu
  have hk₁ : ∀ g, Function.update use k .kern g = .dir ↔ g = d₁ := fun g => by
    rw [update_eq_iff (u := .dir) (by simp [hkf]) (by simp), h.dirs]
  have hdir : ∀ g, use₃ g = .dir ↔ g = d₁ ∨ g = d := fun g => by
    rw [hkeep (by simp) (by simp), hnew.dir_iff, hk₁, or_comm]
  have hkern : ∀ g, use₃ g = .kern ↔ g = f₀ ∨ g = k := fun g => by
    rw [hkeep (by simp) (by simp), hnew.eq_iff (by simp) (by simp) (by simp)]
    by_cases hgk : g = k
    · simp [hgk]
    · rw [Function.update_of_ne hgk, h.kern]
      simp [hgk]
  have hdd : d ≠ d₁ := by
    rintro rfl
    have := hnew.fresh
    rw [(hk₁ d).2 rfl] at this
    cases this
  have hkf₀ : k ≠ f₀ := by
    rintro rfl
    rw [(h.kern k).2 rfl] at hkf
    cases hkf
  have hcomplete : Complete use₃ d₁ := by
    refine (hnew.complete ((hk₁ d₁).2 rfl) fun i => ?_).keeps hpage.keeps
    rw [← h.complete i]
    refine exists_congr fun t => ?_
    by_cases htk : t = k
    · simp [htk, hkf]
    · rw [Function.update_of_ne htk]
  have hT : userTable m₃ use₃ = Function.update (fun _ => none) (d, 0#20) (some (f, true)) := by
    rw [hpage.entries, hnew.entries, hT₁, h.entries]
  refine ⟨inv_firstSys hpage.owned hdir hkern ⟨hcomplete, Complete.keeps hnew.tables hpage.keeps⟩
    ⟨hdd, hkf₀⟩ hT, ?_, rfl, rfl, rfl, fun i hi => firstSys_procs_of_ne _ _ _ _ hi, ?_, ⟨f, ?_, hpage.page⟩,
    by omega⟩
  · show m₃.oom = false
    rw [hpage.oom, hnew.oom, hoom₁, h.oom]
  · rw [firstSys_procs_self]
  · rw [firstSys_procs_self]
    show userTable m₃ use₃ (d, 0#20) = _
    rw [hT, Function.update_self]

/-- `userinit`. -/
theorem userinit_cases {f₀ d₁ : Page} (h : Started L m use f₀ d₁) (init : List Byte)
    (hs : s = { mem := m, procs := fun _ => Proc.zero, nextpid := 1#32, initproc := initSlot
                kpgdir := d₁, loads := [] }) :
    (∃ e, userinit L init s = .error e ∧ (4096 < L.kend.toNat + 29 ∨ PGSIZE ≤ init.length)) ∨
    ∃ s' use', userinit L init s = .ok s' ∧ Booted L init s' use' f₀ := by
  have hroom := h.room
  -- the kernel stack
  by_cases hne : m.freelist = 0#32
  · left
    have := h.owned.freeCount_eq_zero hne
    refine ⟨.outOfMemory, ?_, Or.inl (by omega)⟩
    unfold userinit userinitWith allocproc
    rw [hs, find_init]
    simp only [Sys.modify, kalloc_of_eq_zero hne]
  obtain ⟨k, m₁, hk, hkf, h₁, hT₁, -, -, hoom₁⟩ := h.owned.kalloc_eq_some hne
  have hcount₁ := freeCount_update (x := .kern) hkf (by simp)
  -- the page directory
  have hrun : userinit L init s = (setupkvm L m₁).bind fun r =>
      r.1.elim (.error (.panic "userinit: out of memory?"))
        fun d => (inituvm d init r.2).map fun mem => firstSys mem d₁ d k := by
    unfold userinit userinitWith allocproc
    rw [hs, find_init]
    simp only [Sys.modify, hk, Function.update_self, Function.update_idem]
    rcases setupkvm L m₁ with e | ⟨_ | d, mem⟩ <;> rfl
  rw [hrun]
  obtain ⟨d, m₂, use₂, hm₂, hnew⟩ | ⟨m₂, use₂, hm₂, hleak⟩ := h₁.setupkvm_cases
  swap
  · left
    have hfew : freeCount (Function.update use k .kern) ≤ 12 := hleak.few
    exact ⟨_, by rw [hm₂]; rfl, Or.inl (by omega)⟩
  have hcount₂ := hnew.freeCount_le
  rw [hm₂]
  -- the first page
  rcases inituvm_cases hnew.owned hnew.tables (hnew.empty 0#20) init with
    ⟨e, he, hwhy⟩ | ⟨f, m₃, use₃, hm₃, hpage⟩
  · refine Or.inl ⟨e, ?_, hwhy.imp_left fun hnone => by omega⟩
    simp only [Except.bind, Option.elim, he, Except.map]
  · refine Or.inr ⟨_, use₃, ?_, h.booted init hkf hoom₁ hT₁ hnew hpage⟩
    simp only [Except.bind, Option.elim, hm₃, Except.map]

theorem boot_cases (L : Layout) (ram : Page → PageData) (init : List Byte) :
    (∃ e, boot L ram init = .error e ∧ (4096 < L.kend.toNat + 29 ∨ PGSIZE ≤ init.length)) ∨
    ∃ s use f₀, boot L ram init = .ok s ∧ Booted L init s use f₀ := by
  obtain ⟨m, f₀, m₁, hm, hk, ⟨m₂, hm₂, hfew⟩ | ⟨d, m₂, use, hm₂, hstart⟩⟩ := kvmalloc_cases L ram
  · left
    refine ⟨.outOfMemory, ?_, Or.inl hfew⟩
    unfold boot bootWith
    rw [hm]
    simp only [Except.bind, hk, hm₂]
  · have hrun : boot L ram init = userinit L init
        { mem := m₂, procs := fun _ => Proc.zero, nextpid := 1#32, initproc := initSlot, kpgdir := d
          loads := [] } := by
      unfold boot bootWith
      rw [hm]
      simp only [Except.bind, hk, hm₂]
      rfl
    rw [hrun]
    refine (userinit_cases hstart init rfl).imp_right ?_
    rintro ⟨s', use', hs', hboot⟩
    exact ⟨s', use', f₀, hs', hboot⟩

theorem boot_inv {ram : Page → PageData} {init : List Byte} (h : boot L ram init = .ok s) :
    ∃ use f₀, Booted L init s use f₀ := by
  obtain ⟨e, herr, -⟩ | ⟨s', use, f₀, hs', hboot⟩ := boot_cases L ram init
  · rw [h] at herr
    cases herr
  · obtain rfl := Except.ok.inj (h.symm.trans hs')
    exact ⟨use, f₀, hboot⟩

end SystemsProjects.Cow
