import SystemsProjects.Cow.Conservation

/-!
# Page faults

What `cowHandler` does with one fault, down to the words of memory.  A write fault at a read-only user page
is resolved, in place or with a copy, and no other word moves (`cowHandler_resolves`).  An access that is
not to a user page of the process should only mark the process; `killsOnly_iff` says for which addresses it
does, and is not preceded by a read through the null pointer that `walkpgdir` has returned.
-/

namespace SystemsProjects.Cow

open Sharing

variable {L : Layout} {lost : Word} {leak : Set Page} {eager : Bool} {s s' : Sys} {m : Mem}
  {use : Page → Use} {f g d t v : Page} {p i : Slot} {va pte : Word}

/-! ## Legal write faults -/

/-- What is left of a write fault of `p` at a read-only page with entry `pte`: the entry is `pte'`, which
can be written, and nothing else has moved. -/
structure Resolved (s : Sys) (p : Slot) (va pte : Word) (m : Mem) (pte' : Word) : Prop where
  entry : pteOf m (s.procs p).pgdir (pageOf va) = some pte'
  legal : has pte' PTE_P = true ∧ has pte' PTE_U = true ∧ has pte' PTE_W = true
  flags : pteFlags pte' = pteFlags pte ||| PTE_W
  count : refCount (pageOf pte') m = 1
  bytes : m.page (pageOf pte') = s.mem.page (pageOf pte)
  /-- The frame is the old one, or `kalloc` has returned it. -/
  frame : pageOf pte' = pageOf pte ∨ (kalloc s.mem).1 = some (pageOf pte')
  ptes : ∀ d v, IsDir s d → (d, v) ≠ ((s.procs p).pgdir, pageOf va) → pteOf m d v = pteOf s.mem d v
  /-- The words of memory outside a new frame are the same, except for the entry itself. -/
  words : ∀ t i, (walkpgdir (s.procs p).pgdir (pageOf va) false s.mem).1 = some (t, i) →
    ∀ g j, (g = pageOf pte' → pageOf pte' = pageOf pte) → (g, j) ≠ (t, i) → m.page g j = s.mem.page g j
  counts : ∀ g, g ≠ pageOf pte → g ≠ pageOf pte' → m.refCnt g = s.mem.refCnt g
  retry : access m (s.procs p).pgdir va true = some (pageOf pte')

theorem pteFlags_or (a b : Word) : pteFlags (a ||| b) = pteFlags a ||| pteFlags b := by
  unfold pteFlags
  rw [BitVec.and_or_distrib_right]

/-- A flag that an entry has can be set again. -/
theorem or_of_has {a : Word} {n : ℕ} (h : has a (BitVec.twoPow 32 n) = true) : a ||| BitVec.twoPow 32 n = a := by
  have hbit : a.getLsbD n = true := by
    unfold has at h
    rw [BitVec.and_twoPow] at h
    split_ifs at h with hn
    · exact hn
    · simp at h
  apply BitVec.eq_of_getLsbD_eq
  intro k _
  rw [BitVec.getLsbD_or, BitVec.getLsbD_twoPow]
  by_cases hk : n = k
  · rw [← hk, hbit, Bool.true_or]
  · simp [hk]

theorem pteFlags_paddr (g : Page) : pteFlags (paddr g) = 0#32 := by
  have h := has_paddr g 0xFFF#32 (by decide)
  unfold has at h
  unfold pteFlags
  simpa using h

/-- The flags that `cowHandler` gives to the entry of a copy. -/
theorem pteFlags_copy (g : Page) (hP : has pte PTE_P = true) (hU : has pte PTE_U = true) :
    pteFlags (paddr g ||| pteFlags pte ||| PTE_W ||| PTE_P ||| PTE_U) = pteFlags pte ||| PTE_W := by
  have hidem : pteFlags (pteFlags pte) = pteFlags pte := by
    unfold pteFlags
    rw [BitVec.and_assoc, BitVec.and_self]
  have hP' : pteFlags pte ||| PTE_P = pteFlags pte := or_of_has (n := 0) ((has_flags_P pte).trans hP)
  have hU' : pteFlags pte ||| PTE_U = pteFlags pte := or_of_has (n := 2) ((has_flags_U pte).trans hU)
  simp only [pteFlags_or, pteFlags_paddr, hidem, BitVec.zero_or]
  calc pteFlags pte ||| pteFlags PTE_W ||| pteFlags PTE_P ||| pteFlags PTE_U
      = pteFlags pte ||| PTE_P ||| PTE_U ||| PTE_W := by
        rw [show pteFlags PTE_W = PTE_W by decide, show pteFlags PTE_P = PTE_P by decide,
          show pteFlags PTE_U = PTE_U by decide]
        ac_rfl
    _ = pteFlags pte ||| PTE_W := by rw [hP', hU']
theorem Inv.isDir_iff (h : Inv L lost eager leak s use) : use d = .dir ↔ IsDir s d := h.dirs d

/-- An entry is written in a memory with the same page directories and page tables. -/
theorem Frames.pteOf_write_of_same (h : Frames L lost s.mem use) (ht : use t = .table d (pdx v))
    (hsame : ∀ x, (use x).Structural → m.page x = s.mem.page x) (w : Word) {d' v' : Page} (hd' : use d' = .dir) :
    pteOf (m.write t (ptx v) w) d' v' = if (d', v') = (d, v) then some w else pteOf s.mem d' v' := by
  have hwritten : Frames L lost (s.mem.write t (ptx v) w) use := h.write (by simp [ht]) (by simp [ht]) _ _
  have hpage : ∀ x, (use x).Structural → (m.write t (ptx v) w).page x = (s.mem.write t (ptx v) w).page x := by
    intro x hx
    unfold Mem.write Mem.setPage
    by_cases hxt : x = t
    · rw [hxt] at hx ⊢
      simp only [Function.update_self, hsame t hx]
    · simp only [Function.update_of_ne hxt, hsame x hx]
  rw [← h.pteOf_write ht w hd']
  exact hwritten.pteOf_congr hd' (hpage d' (by simp [hd', Use.Structural]))
    fun t' i ht' => hpage t' (by simp [ht', Use.Structural])

/-- The hardware accepts a store through such an entry. -/
theorem Frames.access_write (h : Frames L lost s.mem use) (ht : use t = .table d (pdx (pageOf va)))
    (hsame : ∀ x, (use x).Structural → m.page x = s.mem.page x) {w : Word}
    (hlegal : has w PTE_P = true ∧ has w PTE_U = true ∧ has w PTE_W = true) :
    access (m.write t (ptx (pageOf va)) w) d va true = some (pageOf w) := by
  obtain ⟨hd, hpde⟩ := h.table t d _ ht
  have hdt : d ≠ t := by
    rintro rfl
    simp [hd] at ht
  have hpage : (m.write t (ptx (pageOf va)) w).page d (pdx (pageOf va)) = pdeFor t := by
    rw [Mem.write_page_of_ne _ _ _ hdt, hsame d (by simp [hd, Use.Structural]), hpde]
  unfold access
  simp only [hpage, has_pdeFor_P, has_pdeFor_U, has_pdeFor_W, pageOf_pdeFor, Mem.write_page_self,
    Function.update_self, hlegal.1, hlegal.2.1, hlegal.2.2]
  rfl

/-- The entry `w` for the same page contents is written, and nothing else but a frame of its own. -/
theorem Inv.resolved_of_write (h : Inv L lost eager leak s use) (hp : Live s p) {w : Word}
    (ht : use t = .table (s.procs p).pgdir (pdx (pageOf va)))
    (hsame : ∀ x, x ≠ pageOf w ∨ pageOf w = pageOf pte → m.page x = s.mem.page x)
    (hframe : pageOf w = pageOf pte ∨ use (pageOf w) = .free ∧ (kalloc s.mem).1 = some (pageOf w))
    (hf : use (pageOf pte) = .user)
    (hlegal : has w PTE_P = true ∧ has w PTE_U = true ∧ has w PTE_W = true)
    (hflags : pteFlags w = pteFlags pte ||| PTE_W) (hcount : refCount (pageOf w) m = 1)
    (hbytes : m.page (pageOf w) = s.mem.page (pageOf pte))
    (hcounts : ∀ x, x ≠ pageOf pte → x ≠ pageOf w → m.refCnt x = s.mem.refCnt x) :
    Resolved s p va pte (m.write t (ptx (pageOf va)) w) w := by
  have hd := h.dir hp
  have hw : ¬ (use (pageOf w)).Structural := by
    rcases hframe with heq | ⟨hfree, -⟩
    · simp [heq, hf, Use.Structural]
    · simp [hfree, Use.Structural]
  have hstructural : ∀ x, (use x).Structural → m.page x = s.mem.page x := by
    refine fun x hx => hsame x (Or.inl ?_)
    rintro rfl
    exact hw hx
  have hwt : pageOf w ≠ t := by
    rintro heq
    exact hw (by simp [heq, ht, Use.Structural])
  refine ⟨?_, hlegal, hflags, hcount, ?_, hframe.imp_right And.right, fun d v hdir hne => ?_,
    fun t' i hwalk g j hg hne => ?_, hcounts, h.owned.frames.access_write ht hstructural hlegal⟩
  · rw [h.owned.frames.pteOf_write_of_same ht hstructural w hd, if_pos rfl]
  · rw [Mem.write_page_of_ne _ _ _ hwt, hbytes]
  · rw [h.owned.frames.pteOf_write_of_same ht hstructural w (h.isDir_iff.2 hdir), if_neg hne]
  · rw [h.owned.frames.walkpgdir_eq ht false] at hwalk
    obtain ⟨rfl, rfl⟩ := Prod.mk.inj (Option.some.inj hwalk)
    rw [Mem.write_word_of_ne _ _ hne, hsame g]
    by_cases hgw : g = pageOf w
    · exact Or.inr (hg hgw)
    · exact Or.inl hgw

/-- A legal write fault is resolved and nothing else moves: in every state of the invariant, a write fault at
a page whose entry has `PTE_P` and `PTE_U` and not `PTE_W` makes the entry writable, with its other flags, for
a frame of its own with the same contents, if `kalloc` does not fail when a copy is needed. -/
theorem cowHandler_resolves (h : Inv L lost eager leak s use) (hp : Live s p)
    (hpte : pteOf s.mem (s.procs p).pgdir (pageOf va) = some pte) (hP : has pte PTE_P = true)
    (hU : has pte PTE_U = true) (hW : has pte PTE_W = false)
    (hmem : 1 < refCount (pageOf pte) s.mem → s.mem.freelist ≠ 0#32) :
    ∃ m' pte', cowHandler p va s = .ok { s with mem := m' } ∧ Resolved s p va pte m' pte' := by
  have hT : userTable s.mem use ((s.procs p).pgdir, pageOf va) = some (pageOf pte, false) := by
    unfold userTable
    rw [if_pos (h.dir hp), hpte, Option.bind_some, decode_eq_some hP hU, hW]
  obtain ⟨-, -, hfu⟩ := h.owned.counts.entry _ _ _ _ hT
  have hrc := h.owned.refCount_eq hfu
  have hpos := refs_pos (frame_of_eq_some hT)
  obtain ⟨t, pte₁, ht, hpage, -, hcases⟩ := h.cowHandler_eq hp hT
  obtain rfl : pte₁ = pte := by
    rw [h.owned.frames.pteOf_eq_some ht, hpage] at hpte
    exact Option.some.inj hpte
  obtain ⟨hone, heq⟩ | ⟨hone, hne, hcopy⟩ | ⟨hone, hzero, -⟩ := hcases
  · have hframe : pageOf (pte₁ ||| PTE_W) = pageOf pte₁ := by simp
    refine ⟨_, pte₁ ||| PTE_W, heq, h.resolved_of_write hp ht (fun _ _ => rfl) (Or.inl hframe) hfu
      (by simp [hP, hU]) ?_ ?_ (by rw [hframe]) fun _ _ _ => rfl⟩
    · rw [pteFlags_or]
      rfl
    · rw [hframe, hrc, hone]
      rfl
  · obtain ⟨g, m₁, hkal, hg, -, hpage₁, hrefs, -⟩ := h.owned.frames.kalloc_eq_some hne
    have hgf : g ≠ pageOf pte₁ := by
      rintro rfl
      simp [hg] at hfu
    have hframe : pageOf (paddr g ||| pteFlags pte₁ ||| PTE_W ||| PTE_P ||| PTE_U) = g := by simp
    refine ⟨_, _, hcopy g m₁ hkal, h.resolved_of_write hp ht (fun x hx => ?_)
      (Or.inr ⟨by rw [hframe, hg], by rw [hframe, hkal]⟩) hfu (by simp) (pteFlags_copy g hP hU) ?_ ?_
      fun x hx hxg => ?_⟩
    · rw [hframe] at hx
      have hxg : x ≠ g := hx.resolve_right hgf
      show (m₁.setPage g (s.mem.page (pageOf pte₁))).page x = _
      rw [Mem.setPage_page_of_ne _ _ hxg, hpage₁]
    · rw [hframe]
      show ((Function.update m₁.refCnt (pageOf pte₁) _) g).toInt = 1
      rw [Function.update_of_ne hgf, hrefs, Function.update_self]
      rfl
    · rw [hframe]
      exact Mem.setPage_page_self _ _ _
    · rw [hframe] at hxg
      show (Function.update m₁.refCnt (pageOf pte₁) _) x = _
      rw [Function.update_of_ne hx, hrefs, Function.update_of_ne hxg]
  · refine absurd hzero (hmem ?_)
    rw [hrc]
    omega

/-- The entry of a page that another process has too is read-only. -/
theorem Inv.exists_readOnly (h : Inv L lost eager leak s use) (hp : Live s p) {q : Slot} (hq : Live s q) (hpq : q ≠ p)
    (hf : userFrame s p v = some f) (hg : userFrame s q v = some f) :
    ∃ pte, pteOf s.mem (s.procs p).pgdir v = some pte ∧ has pte PTE_P = true ∧ has pte PTE_U = true ∧
      has pte PTE_W = false ∧ pageOf pte = f := by
  rw [h.userFrame_eq hp] at hf
  rw [h.userFrame_eq hq] at hg
  obtain ⟨b, hT⟩ := frame_eq_some_iff.1 hf
  have hb : b = false := by
    by_contra hx
    rw [Bool.not_eq_false] at hx
    subst hx
    have hsame := h.owned.counts.exclusive _ f hT _ hg
    exact hpq (h.pgdir_inj q p hq hp (Prod.mk.inj hsame).1)
  have hdec := hT
  unfold userTable at hdec
  rw [if_pos (h.dir hp)] at hdec
  obtain ⟨pte, hpte, hbits⟩ := Option.bind_eq_some_iff.1 hdec
  obtain ⟨hP, hU, he⟩ := decode_eq_some_iff.1 hbits
  obtain ⟨hf', hW⟩ := Prod.mk.inj he
  exact ⟨pte, hpte, hP, hU, by rw [← hW, hb], hf'.symm⟩

theorem cowHandler_resolves_fork : ∃ s₀ s pte m' pte',
    boot smallLayout blankRam [] = .ok s₀ ∧ memStep smallLayout cowuvm s₀ (.fork initSlot) = .ok s ∧
    pteOf s.mem (s.procs initSlot).pgdir (pageOf 0#32) = some pte ∧
    cowHandler initSlot 0#32 s = .ok { s with mem := m' } ∧ Resolved s initSlot 0#32 pte m' pte' := by
  obtain ⟨s₀, s, use, f, hboot, hs, ⟨par, f₀, h⟩, hf, hfA, -⟩ := exists_fork_shared
  have hinit : Live s initSlot := h.live_iff.2 (by decide)
  have hA : Live s slotA := h.live_iff.2 (by decide)
  obtain ⟨pte, hpte, hP, hU, hW, -⟩ := h.inv.exists_readOnly hinit hA (by decide) hf hfA
  rw [show (0#20 : Page) = pageOf 0#32 by decide] at hpte
  have hne : s.mem.freelist ≠ 0#32 := fun hzero => by
    have := h.inv.owned.freeCount_eq_zero hzero
    have := h.freeCount_le (by decide)
    omega
  obtain ⟨m', pte', heq, hresolved⟩ := cowHandler_resolves h.inv hinit hpte hP hU hW fun _ => hne
  exact ⟨s₀, s, pte, m', pte', hboot, hs, hpte, heq, hresolved⟩

/-! ## Illegal accesses -/

/-- The address is inside a present user page of the process. -/
def InUserPage (s : Sys) (p : Slot) (va : Word) : Prop :=
  va < USERTOP ∧ ∃ pte, pteOf s.mem (s.procs p).pgdir (pageOf va) = some pte ∧ has pte PTE_P = true ∧
    has pte PTE_U = true

/-- The process marked as killed, in an otherwise unchanged system. -/
def markKilled (s : Sys) (p : Slot) : Sys := s.modify p fun q => { q with killed := true }

/-- The fault marks its process and changes nothing else, and the process exits. -/
structure KillsOnly (s : Sys) (p : Slot) (va : Word) : Prop where
  deref : firstDeref s p va ≠ none
  handler : cowHandler p va s = .ok (markKilled s p)
  trap : (cowHandler p va s).bind (exitIfKilled p) = exit p (markKilled s p)

/-- The first slot with the pid of `p` is that of `p`, or both are marked already. -/
def FirstOfPid (s : Sys) (p : Slot) : Prop :=
  ∀ j, (s.procs j).pid = (s.procs p).pid → (∀ i, i < j → (s.procs i).pid ≠ (s.procs p).pid) →
    j = p ∨ (s.procs j).killed = true ∧ (s.procs p).killed = true

theorem find_finRange_eq_some {n : ℕ} {P : Fin n → Bool} {j : Fin n} :
    (List.finRange n).find? P = some j ↔ P j = true ∧ ∀ i, i < j → P i = false := by
  rw [List.find?_eq_some_iff_getElem]
  refine and_congr_right fun _ => ⟨?_, fun h => ?_⟩
  · rintro ⟨k, hk, rfl, hbefore⟩ i hi
    have hlt : i.val < k := by
      have := Fin.lt_def.1 hi
      simpa using this
    simpa using hbefore i.val hlt
  · refine ⟨j.val, by simp, by simp, fun i hi => ?_⟩
    simpa using h ⟨i, by omega⟩ hi

theorem markKilled_eq_iff {j : Slot} :
    markKilled s j = markKilled s p ↔ j = p ∨ (s.procs j).killed = true ∧ (s.procs p).killed = true := by
  have hproc : ∀ i k, ((markKilled s i).procs k).killed = if k = i then true else (s.procs k).killed := by
    intro i k
    unfold markKilled Sys.modify
    by_cases hki : k = i
    · simp [hki]
    · simp [hki]
  constructor
  · intro heq
    by_cases hjp : j = p
    · exact Or.inl hjp
    · have hj := congrArg (fun x => (x.procs j).killed) heq
      have hp := congrArg (fun x => (x.procs p).killed) heq
      simp only [hproc, if_true, if_neg hjp, if_neg (Ne.symm hjp)] at hj hp
      exact Or.inr ⟨hj.symm, hp⟩
  · have hsame : ∀ i, (s.procs i).killed = true → markKilled s i = s := by
      intro i hi
      have hq : ({ s.procs i with killed := true } : Proc) = s.procs i := by rw [← hi]
      unfold markKilled Sys.modify
      simp only [hq, Function.update_eq_self]
    rintro (rfl | ⟨hj, hp⟩)
    · rfl
    · rw [hsame j hj, hsame p hp]

theorem kill_eq_markKilled_iff : kill (s.procs p).pid s = markKilled s p ↔ FirstOfPid s p := by
  have hfind : ∃ j, (List.finRange NPROC).find? (fun i => (s.procs i).pid = (s.procs p).pid) = some j := by
    rw [← Option.isSome_iff_exists, List.find?_isSome]
    exact ⟨p, List.mem_finRange p, by simp⟩
  obtain ⟨j, hj⟩ := hfind
  have hkill : kill (s.procs p).pid s = markKilled s j := by
    unfold kill
    rw [hj]
    rfl
  obtain ⟨hpid, hfirst⟩ := find_finRange_eq_some.1 hj
  rw [hkill, markKilled_eq_iff]
  constructor
  · intro h k hk hbefore
    have hk' : (List.finRange NPROC).find? (fun i => (s.procs i).pid = (s.procs p).pid) = some k :=
      find_finRange_eq_some.2 ⟨by simpa using hk, fun i hi => by simpa using hbefore i hi⟩
    obtain rfl := Option.some.inj (hj.symm.trans hk')
    exact h
  · intro h
    exact h j (by simpa using hpid) fun i hi => by simpa using hfirst i hi

theorem kernelIndex_iff (va : Word) :
    KernelIndex (pdx (pageOf va)) ↔ va < PHYSTOP ∨ 0xFE000000#32 ≤ va := by
  unfold KernelIndex PHYSTOP
  rw [toNat_pdx, toNat_pageOf, BitVec.lt_def, BitVec.le_def]
  simp only [BitVec.toNat_ofNat]
  omega

/-- Only the page tables of the kernel's mappings are there. -/
theorem Inv.firstDeref_iff (h : Inv L lost eager leak s use) (hp : Live s p) :
    firstDeref s p va ≠ none ↔ va < PHYSTOP ∨ 0xFE000000#32 ≤ va := by
  have hd := h.dir hp
  have hcomplete := h.complete _ hd
  rw [← kernelIndex_iff]
  unfold firstDeref
  constructor
  · intro hne
    by_contra hi
    have hpde : s.mem.page (s.procs p).pgdir (pdx (pageOf va)) = 0#32 := by
      cases h.owned.frames.pde _ (pdx (pageOf va)) hd with
      | inl h0 => exact h0
      | inr h1 => exact absurd ((hcomplete _).1 h1) hi
    exact hne (by simp [walkpgdir, hpde])
  · intro hi
    obtain ⟨t, ht⟩ := (hcomplete _).2 hi
    rw [h.owned.frames.walkpgdir_eq ht]
    exact nofun

/-- No entry at or above `USERTOP` is one of user code. -/
theorem Inv.not_inUserPage_iff (h : Inv L lost eager leak s use) (hp : Live s p) :
    ¬ InUserPage s p va ↔ userTable s.mem use ((s.procs p).pgdir, pageOf va) = none := by
  rw [not_iff_comm]
  unfold InUserPage
  constructor
  · intro hne
    obtain ⟨⟨f, b⟩, hT⟩ := Option.ne_none_iff_exists'.1 hne
    have hv := (h.owned.counts.entry _ _ _ _ hT).2.1
    unfold userTable at hT
    rw [if_pos (h.dir hp)] at hT
    obtain ⟨pte, hpte, hbits⟩ := Option.bind_eq_some_iff.1 hT
    obtain ⟨hP, hU, -⟩ := decode_eq_some_iff.1 hbits
    refine ⟨?_, pte, hpte, hP, hU⟩
    unfold IsUser at hv
    rw [toNat_pageOf] at hv
    rw [BitVec.lt_def, toNat_USERTOP]
    omega
  · rintro ⟨-, pte, hpte, hP, hU⟩
    unfold userTable
    rw [if_pos (h.dir hp), hpte, Option.bind_some, decode_eq_some hP hU]
    exact nofun

/-- An access that is not to a user page kills only its process exactly when the address is below `PHYSTOP`
or in the device mappings, where every page directory has page tables, and the process is the first one with
its pid. -/
theorem killsOnly_iff (h : Inv L lost eager leak s use) (hp : Live s p) (hillegal : ¬ InUserPage s p va) :
    KillsOnly s p va ↔ (va < PHYSTOP ∨ 0xFE000000#32 ≤ va) ∧ FirstOfPid s p := by
  have hnone := (h.not_inUserPage_iff hp).1 hillegal
  have hhandler : (va < PHYSTOP ∨ 0xFE000000#32 ≤ va) → cowHandler p va s = .ok (kill (s.procs p).pid s) := by
    intro hva
    rw [h.cowHandler_of_none hp hnone, if_pos (Or.inl ((kernelIndex_iff va).2 hva))]
  have hiff : firstDeref s p va ≠ none ↔ va < PHYSTOP ∨ 0xFE000000#32 ≤ va := h.firstDeref_iff hp
  rw [← hiff, ← kill_eq_markKilled_iff]
  constructor
  · intro hkills
    have hva := hiff.1 hkills.deref
    exact ⟨hkills.deref, Except.ok.inj ((hhandler hva).symm.trans hkills.handler)⟩
  · rintro ⟨hderef, hmark⟩
    have heq : cowHandler p va s = .ok (markKilled s p) := by
      rw [hhandler (hiff.1 hderef), hmark]
    refine ⟨hderef, heq, ?_⟩
    have hkilled : ((markKilled s p).procs p).killed = true := by simp [markKilled, Sys.modify]
    rw [heq]
    show exitIfKilled p (markKilled s p) = _
    rw [exitIfKilled, if_pos hkilled]

/-- After boot the first process has one page. -/
theorem not_inUserPage_boot {leak : Set Page} {st : Slot → ProcState} {par : Slot → Option Slot}
    (h : Running L false leak s use st par) (hp : st p ≠ .unused) (hva : 1 ≤ (pageOf va).toNat) : ¬ InUserPage s p va := by
  have hlive : Live s p := h.live_iff.2 hp
  rw [h.inv.not_inUserPage_iff hlive]
  refine h.inv.bound p _ hlive ?_
  rw [← abs_sz, (h.family.member p).sz hp]
  exact hva

/-- The first process accesses its second page. -/
theorem killsOnly_iff_boot : ∃ s₀, boot smallLayout blankRam [] = .ok s₀ ∧
    ¬ InUserPage s₀ initSlot 0x1000#32 ∧ KillsOnly s₀ initSlot 0x1000#32 := by
  obtain ⟨s₀, use, f₀, hboot, -, h⟩ := exists_boot_running
  have hlive : Live s₀ initSlot := h.live_iff.2 (by decide)
  have hillegal : ¬ InUserPage s₀ initSlot 0x1000#32 := not_inUserPage_boot h (by decide) (by decide)
  refine ⟨s₀, hboot, hillegal, (killsOnly_iff h.inv hlive hillegal).2 ⟨Or.inl (by decide), fun j hj hfirst => ?_⟩⟩
  -- The first process has the first slot.
  left
  by_contra hne
  have hpos : 0 < j.val := Nat.pos_of_ne_zero fun hzero => hne (Fin.ext hzero)
  exact hfirst initSlot (Fin.lt_def.2 hpos) rfl

/-- The first process accesses the address `PHYSTOP`, for which there is no page table. -/
theorem not_killsOnly_phystop : ∃ s₀, boot smallLayout blankRam [] = .ok s₀ ∧
    ¬ InUserPage s₀ initSlot PHYSTOP ∧ firstDeref s₀ initSlot PHYSTOP = none ∧
    ¬ KillsOnly s₀ initSlot PHYSTOP := by
  obtain ⟨s₀, use, f₀, hboot, -, h⟩ := exists_boot_running
  have hlive : Live s₀ initSlot := h.live_iff.2 (by decide)
  have hnull : firstDeref s₀ initSlot PHYSTOP = none := by
    by_contra hne
    exact absurd ((h.inv.firstDeref_iff hlive).1 hne) (by decide)
  exact ⟨s₀, hboot, not_inUserPage_boot h (by decide) (by decide), hnull, fun hkills => hkills.deref hnull⟩

end SystemsProjects.Cow
