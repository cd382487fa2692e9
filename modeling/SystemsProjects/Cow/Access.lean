import SystemsProjects.Cow.Invariant

/-!
# Loads, stores and page faults

A load or store of user code reads or writes the frame of its entry; a store through a read-only entry
goes through `cowHandler`, which makes the entry writable or moves it to a copy of the frame.
-/

namespace SystemsProjects.Cow

open Sharing

variable {L : Layout} {lost : Word} {leak : Set Page} {eager : Bool} {s s' : Sys} {m m' : Mem}
  {use use' : Page → Use} {f g d t v : Page} {p i : Slot} {va : Word} {K W : Set (Slot × Page)}
  {fails : Prop}

/-- The hardware decides by the user entry of the page. -/
theorem Frames.access_eq (h : Frames L lost m use) (hd : use d = .dir) (va : Word) (write : Bool) :
    access m d va write =
      (userTable m use (d, pageOf va)).bind fun e => if !write || e.2 then some e.1 else none := by
  unfold access userTable
  rw [if_pos hd]
  cases h.pde d (pdx (pageOf va)) hd with
  | inl h0 =>
    simp [pteOf, h0]
  | inr h1 =>
    obtain ⟨t, ht⟩ := h1
    simp only [h.pteOf_eq_some ht, (h.table t d _ ht).2, pageOf_pdeFor, has_pdeFor_P,
      has_pdeFor_U, has_pdeFor_W, Option.bind_some, decode]
    cases has (m.page t (ptx (pageOf va))) PTE_P <;> cases has (m.page t (ptx (pageOf va))) PTE_U <;>
      simp

theorem Owned.access_eq (h : Owned L lost m use) (hd : use d = .dir) (va : Word) (write : Bool) :
    access m d va write =
      (userTable m use (d, pageOf va)).bind fun e => if !write || e.2 then some e.1 else none :=
  h.frames.access_eq hd va write

/-- The page at which the kernel accesses a user page of the current process. -/
theorem Owned.kernelFrame_eq (h : Owned L lost m use) (ht : use t = .table d (pdx v)) (hv : IsUser v) :
    kernelFrame m d v = frame (userTable m use) (d, v) := by
  unfold kernelFrame
  rw [if_pos hv, h.frames.pteOf_eq_some ht, Option.bind_some]
  by_cases hP : has (m.page t (ptx v)) PTE_P = true
  · rw [if_pos hP, frame_of_eq_some (h.entry_of_present ht hv hP)]
  · rw [if_neg hP, frame, h.entry_eq ht, decode_eq_none (Or.inl (by simpa using hP)), Option.map_none]

open Classical in
/-- A fault at a page that the process does not have. -/
theorem Inv.cowHandler_of_none (h : Inv L lost eager leak s use) (hp : Live s p)
    (hnone : userTable s.mem use ((s.procs p).pgdir, pageOf va) = none) :
    cowHandler p va s =
      if KernelIndex (pdx (pageOf va)) ∨ view s.mem use ((s.procs p).pgdir, 0#20) ≠ none then
        .ok (Cow.kill (s.procs p).pid s) else .error .hang := by
  have hd := h.dir hp
  have hcomplete := h.complete _ hd
  unfold cowHandler firstDeref
  simp only
  by_cases hi : KernelIndex (pdx (pageOf va))
  · obtain ⟨t, ht⟩ := (hcomplete _).2 hi
    rw [h.owned.frames.walkpgdir_eq ht, if_pos (Or.inl hi)]
    rw [h.owned.entry_eq ht] at hnone
    have hbits : has (s.mem.page t (ptx (pageOf va))) PTE_P = false ∨
        has (s.mem.page t (ptx (pageOf va))) PTE_U = false := by
      by_contra hx
      rw [not_or, Bool.not_eq_false, Bool.not_eq_false] at hx
      rw [decode_eq_some hx.1 hx.2] at hnone
      cases hnone
    exact if_pos (hbits.imp_right Or.inl)
  · have hpde : s.mem.page (s.procs p).pgdir (pdx (pageOf va)) = 0#32 := by
      cases h.owned.frames.pde _ (pdx (pageOf va)) hd with
      | inl h0 => exact h0
      | inr h1 => exact absurd ((hcomplete _).1 h1) hi
    have hwalk : walkpgdir (s.procs p).pgdir (pageOf va) false s.mem = (none, s.mem) := by
      unfold walkpgdir
      simp [hpde]
    obtain ⟨t, ht⟩ := hcomplete.exists_table
    rw [hwalk]
    simp only
    rw [h.owned.kernelFrame_eq (v := 0#20) ht (by decide)]
    cases hf : frame (userTable s.mem use) ((s.procs p).pgdir, 0#20) with
    | none =>
      have hview := view_eq_none_iff.2 (frame_eq_none_iff.1 hf)
      rw [if_neg]
      rintro (hx | hx)
      · exact hi hx
      · exact hx hview
    | some f =>
      rw [if_pos (Or.inr _)]
      rw [Ne, view_eq_none_iff, ← frame_eq_none_iff, hf]
      simp

/-- The store is one at which `cowHandler` has to copy the page and `kalloc` returns 0. -/
def HandlerFails (s : Sys) (p : Slot) (va : Word) : Prop :=
  access s.mem (s.procs p).pgdir va true = none ∧
    (∃ f, access s.mem (s.procs p).pgdir va false = some f ∧ 1 < refCount f s.mem) ∧
    s.mem.freelist = 0#32

/-- The branch of `cowHandler` for a fault that passes its tests. -/
theorem cowHandler_of_legal {i : Index} {pte : Word}
    (hwalk : firstDeref s p va = some (t, i))
    (hpte : s.mem.page t i = pte) (hP : has pte PTE_P = true) (hU : has pte PTE_U = true) (hva : ¬ USERTOP < va) :
    cowHandler p va s =
      if refCount (pageOf pte) s.mem ≤ 1 then .ok { s with mem := s.mem.write t i (pte + 2#32) }
      else
        match kalloc s.mem with
        | (some mem, m) => .ok { s with
            mem := ((decPageRef (pageOf pte) m).setPage mem ((decPageRef (pageOf pte) m).page (pageOf pte))).write t i
              (paddr mem ||| pteFlags pte ||| PTE_W ||| PTE_P ||| PTE_U) }
        | (none, m) =>
          match kernelFrame (decPageRef (pageOf pte) m) (s.procs p).pgdir 0#20 with
          | some f₀ => .ok { Cow.kill (s.procs p).pid s with
              mem := ((decPageRef (pageOf pte) m).setPage f₀ ((decPageRef (pageOf pte) m).page (pageOf pte))).write t i
                (0#32 ||| pteFlags pte ||| PTE_W ||| PTE_P ||| PTE_U) }
          | none => .error .outOfMemory := by
  subst hpte
  have hlegal : ¬ (has (s.mem.page t i) PTE_P = false ∨ has (s.mem.page t i) PTE_U = false ∨ USERTOP < va) := by
    simp [hP, hU, hva]
  unfold cowHandler
  simp only [hwalk]
  exact if_neg hlegal

/-- A write fault on a read-only page, down to the words that `cowHandler` writes. -/
theorem Inv.cowHandler_eq (h : Inv L lost eager leak s use) (hp : Live s p)
    (hT : userTable s.mem use ((s.procs p).pgdir, pageOf va) = some (f, false)) :
    ∃ t pte, use t = .table (s.procs p).pgdir (pdx (pageOf va)) ∧ s.mem.page t (ptx (pageOf va)) = pte ∧
      (has pte PTE_P = true ∧ has pte PTE_U = true ∧ has pte PTE_W = false ∧ pageOf pte = f) ∧
      (refs (userTable s.mem use) f = 1 ∧
        cowHandler p va s = .ok { s with mem := s.mem.write t (ptx (pageOf va)) (pte ||| PTE_W) } ∨
      (refs (userTable s.mem use) f ≠ 1 ∧ s.mem.freelist ≠ 0#32 ∧ ∀ g m₁, kalloc s.mem = (some g, m₁) →
        cowHandler p va s = .ok { s with
          mem := (decPageRef f (m₁.setPage g (s.mem.page f))).write t (ptx (pageOf va))
            (paddr g ||| pteFlags pte ||| PTE_W ||| PTE_P ||| PTE_U) }) ∨
      (refs (userTable s.mem use) f ≠ 1 ∧ s.mem.freelist = 0#32 ∧
        ∀ s', cowHandler p va s = .ok s' → s'.mem.oom = true)) := by
  obtain ⟨-, hv, hfu⟩ := h.owned.counts.entry _ _ _ _ hT
  obtain ⟨t, ht⟩ := h.exists_table hp
  rw [← hv.pdx_eq] at ht
  have hdec := h.owned.entry_eq ht
  rw [hT] at hdec
  obtain ⟨hP, hU, he⟩ := decode_eq_some_iff.1 hdec.symm
  obtain ⟨hfw, hW⟩ := Prod.mk.inj he
  have hva : ¬ USERTOP < va := by
    rw [BitVec.not_lt, BitVec.le_def, toNat_USERTOP]
    unfold IsUser at hv
    rw [toNat_pageOf] at hv
    omega
  have hpos := refs_pos (frame_of_eq_some hT)
  have hrc := h.owned.refCount_eq hfu
  have hwalk : (walkpgdir (s.procs p).pgdir (pageOf va) false s.mem).1 = some (t, ptx (pageOf va)) :=
    congrArg Prod.fst (h.owned.frames.walkpgdir_eq ht false)
  have hstart := cowHandler_of_legal hwalk rfl hP hU hva
  rw [← hfw, add_two_eq hW.symm] at hstart
  refine ⟨t, _, ht, rfl, ⟨hP, hU, hW.symm, hfw.symm⟩, ?_⟩
  by_cases hone : refs (userTable s.mem use) f = 1
  · rw [hstart, if_pos (by rw [hrc, hone]; decide)]
    exact Or.inl ⟨hone, rfl⟩
  · rw [hstart, if_neg (by rw [hrc]; omega)]
    by_cases hzero : s.mem.freelist = 0#32
    · refine Or.inr (Or.inr ⟨hone, hzero, fun s' hs' => ?_⟩)
      rw [kalloc_of_eq_zero hzero] at hs'
      simp only at hs'
      cases hkf : kernelFrame (decPageRef f { s.mem with oom := true }) (s.procs p).pgdir 0#20 with
      | none => rw [hkf] at hs'; cases hs'
      | some f₀ =>
        rw [hkf] at hs'
        obtain rfl := Except.ok.inj hs'
        rfl
    · refine Or.inr (Or.inl ⟨hone, hzero, fun g m₁ hkal => ?_⟩)
      have hpage : m₁.page = s.mem.page := by
        rw [kalloc, if_neg hzero] at hkal
        rw [← (Prod.mk.inj hkal).2]
      rw [hkal, ← hpage]
      rfl

/-- A write fault on a read-only page: the entry is made writable if it is the only one of its frame,
otherwise it moves to a copy. -/
theorem Inv.cowHandler_cases (h : Inv L lost eager leak s use) (hp : Live s p)
    (hT : userTable s.mem use ((s.procs p).pgdir, pageOf va) = some (f, false)) :
    (∃ m' use' g, cowHandler p va s = .ok { s with mem := m' } ∧ Owned L lost m' use' ∧
      Only {((s.procs p).pgdir, pageOf va)} s.mem use m' use' ∧
      userTable m' use' ((s.procs p).pgdir, pageOf va) = some (g, true) ∧
      m'.page g = s.mem.page f ∧ m'.oom = s.mem.oom ∧
      (refs (userTable s.mem use) f = 1 ∧ g = f ∨
        refs (userTable s.mem use) f ≠ 1 ∧ use g = .free)) ∨
    (HandlerFails s p va ∧ ∀ s', cowHandler p va s = .ok s' → s'.mem.oom = true) := by
  have hd := h.dir hp
  obtain ⟨-, -, hfu⟩ := h.owned.counts.entry _ _ _ _ hT
  have hk : frame (userTable s.mem use) ((s.procs p).pgdir, pageOf va) = some f := frame_of_eq_some hT
  obtain ⟨t, pte, ht, hpte, ⟨hP, hU, hW, hf⟩, ⟨hone, hmem⟩ | ⟨hone, hne, hmem⟩ | ⟨hone, hzero, hoom⟩⟩ :=
    h.cowHandler_eq hp hT
  · left
    have hword : decode (pte ||| PTE_W) = some (f, true) := by
      rw [decode_eq_some (by simp [hP]) (by simp [hU])]
      simp [hf]
    obtain ⟨h₁, hT₁⟩ := h.owned.setW ht hk hword fun _ => hone
    refine ⟨_, use, f, hmem, h₁, Only.of_update Keeps.refl hT₁ fun k' g' b' _ hg' => ?_,
      by rw [hT₁, Function.update_self], ?_, rfl, Or.inl ⟨hone, rfl⟩⟩
    · apply Mem.write_page_of_ne
      rintro rfl
      have := (h.owned.counts.entry _ _ _ _ hg').2.2
      simp [ht] at this
    · apply Mem.write_page_of_ne
      rintro rfl
      simp [ht] at hfu
  · left
    obtain ⟨g, m₁, hkal, hg, h₁, hT₁, hpage, -, hoom⟩ := h.owned.kalloc_eq_some hne
    obtain ⟨h₂, hT₂⟩ := h₁.setPage (f := g) (Or.inl (by simp)) (s.mem.page f)
    have htg : t ≠ g := by
      rintro rfl
      simp [hg] at ht
    have ht₂ : Function.update use g .kern t = .table (s.procs p).pgdir (pdx (pageOf va)) := by
      rw [Function.update_of_ne htg, ht]
    have hword : decode (paddr g ||| pteFlags pte ||| PTE_W ||| PTE_P ||| PTE_U) = some (g, true) := by
      rw [decode_eq_some (by simp) (by simp)]
      simp
    obtain ⟨h₃, hT₃⟩ := h₂.copy (g := g) ht₂ (by rw [hT₂, hT₁]; exact hk) (by rw [hT₂, hT₁]; exact hone)
      (by simp) hword
    rw [Function.update_idem] at h₃ hT₃
    rw [hT₂, hT₁] at hT₃
    refine ⟨_, Function.update use g .user, g, hmem g m₁ hkal, h₃,
      Only.of_update (Keeps.update (Or.inl hg) (Or.inr rfl)) hT₃ fun k' g' b' _ hg' => ?_,
      by rw [hT₃, Function.update_self], ?_, hoom, Or.inr ⟨hone, hg⟩⟩
    · have hgu := (h.owned.counts.entry _ _ _ _ hg').2.2
      rw [Mem.write_page_of_ne]
      · show (m₁.setPage g (s.mem.page f)).page g' = _
        rw [Mem.setPage_page_of_ne, hpage]
        rintro rfl
        simp [hg] at hgu
      · rintro rfl
        simp [ht] at hgu
    · rw [Mem.write_page_of_ne _ _ _ htg.symm]
      exact Mem.setPage_page_self _ _ _
  · right
    have hpos := refs_pos hk
    refine ⟨⟨?_, ⟨f, ?_, by rw [h.owned.refCount_eq hfu]; omega⟩, hzero⟩, hoom⟩
    · rw [h.owned.access_eq hd, hT]
      rfl
    · rw [h.owned.access_eq hd, hT]
      rfl

/-! ## Loads and stores -/

theorem Inv.exitIfKilled_follows (h : Inv L lost eager leak s use) (hp : Live s p) (hW : CanWrite W s use) :
    Follows L lost eager leak s use K W fails (exitIfKilled p s) (Private.exitIfKilled p (abs s)) := by
  unfold exitIfKilled Private.exitIfKilled
  rw [abs_killed]
  split_ifs
  · exact h.exit_follows hp hW
  · exact Or.inr ⟨use, leak, h, Touches.refl hW, fun _ => ⟨rfl, rfl⟩⟩

/-- An access to a page that the process does not have. -/
theorem Inv.fault_follows (h : Inv L lost eager leak s use) (hp : Live s p)
    (hnone : userTable s.mem use ((s.procs p).pgdir, pageOf va) = none) (hW : CanWrite W s use) :
    Follows L lost eager leak s use K W fails ((cowHandler p va s).bind (exitIfKilled p))
      (Private.fault p va (abs s)) := by
  rw [h.cowHandler_of_none hp hnone, Private.fault, abs_page h hp]
  split_ifs with hlegal
  · rw [abs_pid, ← abs_kill]
    show Follows L lost eager leak s use K W fails (exitIfKilled p (Cow.kill _ s)) _
    refine ((h.kill (s.procs p).pid).exitIfKilled_follows ((live_kill _).2 hp) ?_).of_touches
      (touches_kill _ hW) fun i => (live_kill _).symm
    intro i v hiW
    rw [(kill_rest _).1, (kill_procs _ i).1.1]
    exact hW i v hiW
  · exact Or.inr ⟨_, rfl⟩

theorem Inv.load_follows (h : Inv L lost eager leak s use) (hp : Live s p) :
    Follows L lost eager leak s use ∅ ∅ fails (load p va s) (Private.load p va (abs s)) := by
  unfold load Private.load
  rw [h.owned.access_eq (h.dir hp), abs_page h hp]
  cases hT : userTable s.mem use ((s.procs p).pgdir, pageOf va) with
  | none =>
    rw [view_eq_none_iff.2 hT]
    exact h.fault_follows hp hT CanWrite.empty
  | some e =>
    obtain ⟨f, b⟩ := e
    rw [view_of_eq_some hT]
    refine Or.inr ⟨use, leak, ?_, Touches.of_eq rfl rfl (fun _ _ => ⟨rfl, rfl⟩) CanWrite.empty,
      fun _ => ⟨rfl, rfl⟩⟩
    exact h.congr rfl rfl h.ready (fun _ => Iff.rfl) fun _ _ => ⟨rfl, rfl, rfl⟩

/-- A page of a process is overwritten through a writable entry: no other process sees it. -/
theorem Inv.setUserPage (h : Inv L lost eager leak s use) (hp : Live s p)
    (hT : userTable s.mem use ((s.procs p).pgdir, v) = some (f, true)) (x : PageData) :
    Inv L lost eager leak { s with mem := s.mem.setPage f x } use ∧
      userTable (s.mem.setPage f x) use = userTable s.mem use ∧
      abs { s with mem := s.mem.setPage f x } =
        (abs s).modify p fun q => { q with page := Function.update q.page v (some x) } := by
  have hfu := (h.owned.counts.entry _ _ _ _ hT).2.2
  obtain ⟨h₁, hT₁⟩ := h.owned.setPage (Or.inr hfu) x
  have hviews : ∀ k, k ≠ ((s.procs p).pgdir, v) →
      view (s.mem.setPage f x) use k = view s.mem use k := by
    intro k hk
    refine view_congr (by rw [hT₁]) fun g b hg => Mem.setPage_page_of_ne _ _ ?_
    rintro rfl
    exact hk (h.owned.counts.exclusive _ g hT k (frame_of_eq_some hg))
  have hinv : Inv L lost eager leak { s with mem := s.mem.setPage f x } use := by
    refine h.resize (K := {((s.procs p).pgdir, v)}) hp h₁
      ⟨Keeps.refl, fun k _ => by rw [hT₁], fun k hk => hviews k hk⟩ (fun k hk => by rw [hk])
      (fun he k _ g b hg => h.writable he k g b (by rw [← hT₁]; exact hg)) rfl
      (fun _ => ⟨rfl, rfl, rfl⟩) (fun _ _ => rfl) (h.size p hp) fun u hu => ?_
    show userTable (s.mem.setPage f x) use _ = none
    rw [hT₁]
    exact h.bound p u hp hu
  refine ⟨hinv, hT₁, abs_eq_modify (by rfl) (by rfl) (by rfl) ?_ fun i hi => ?_⟩
  · have hpage : (absProc (s.mem.setPage f x) (s.procs p)).page =
        Function.update (absProc s.mem (s.procs p)).page v (some x) := by
      funext u
      rw [show (absProc (s.mem.setPage f x) (s.procs p)).page u = _ from abs_page hinv hp u]
      by_cases huv : u = v
      · rw [huv, Function.update_self, view_of_eq_some (b := true) (by rw [hT₁]; exact hT),
          Mem.setPage_page_self]
      · rw [Function.update_of_ne huv, hviews _ fun hx => huv (Prod.mk.inj hx).2]
        exact (abs_page h hp u).symm
    rw [← hpage]
    rfl
  · refine h.absProc_eq hinv rfl fun hlive u => hviews _ fun hx => hi ?_
    exact h.pgdir_inj i p hlive hp (Prod.mk.inj hx).1

/-- A store through a writable entry. -/
theorem Inv.write_follows (h : Inv L lost eager leak s use) (hp : Live s p)
    (hT : userTable s.mem use ((s.procs p).pgdir, pageOf va) = some (f, true)) (b : Byte) :
    Follows L lost eager leak s use {(p, pageOf va)} {(p, pageOf va)} fails
      (.ok { s with mem := s.mem.setPage f (setByte (s.mem.page f) (offsetOf va) b) })
      (Private.store p va b (abs s)) := by
  obtain ⟨hinv, hT', habs⟩ := h.setUserPage hp hT (setByte (s.mem.page f) (offsetOf va) b)
  refine Or.inr ⟨use, leak, hinv, ⟨fun _ => Iff.rfl, rfl, fun _ _ _ => ⟨rfl, rfl⟩,
    fun i u _ _ _ => ?_, fun i u _ _ hW _ => ⟨f, ?_⟩⟩, fun _ => ⟨rfl, ?_⟩⟩
  · show frame (userTable (s.mem.setPage f _) use) _ = _
    rw [hT']
  · obtain ⟨rfl, rfl⟩ := Prod.mk.inj hW
    show userTable (s.mem.setPage f _) use _ = _
    rw [hT']
    exact hT
  · rw [habs, Private.store, abs_page h hp, view_of_eq_some hT]

/-- The store traps although the process has the page. -/
def Trapped (s : Sys) (p : Slot) (va : Word) : Prop :=
  access s.mem (s.procs p).pgdir va true = none ∧ access s.mem (s.procs p).pgdir va false ≠ none

instance (s : Sys) (p : Slot) (va : Word) : Decidable (Trapped s p va) :=
  inferInstanceAs (Decidable (_ ∧ _))

/-- A store to a page that the process does not have. -/
theorem Inv.store_of_none (h : Inv L lost eager leak s use) (hp : Live s p)
    (hnone : userTable s.mem use ((s.procs p).pgdir, pageOf va) = none) (b : Byte) :
    store p va b s = (cowHandler p va s).bind (exitIfKilled p) := by
  have haccess : access s.mem (s.procs p).pgdir va true = none := by
    rw [h.owned.access_eq (h.dir hp), hnone]
    rfl
  unfold store
  simp only
  rw [haccess, h.cowHandler_of_none hp hnone]
  split_ifs
  · show (if _ then _ else _) = exitIfKilled p _
    rw [(kill_rest _).1, (kill_procs _ p).1.1, haccess]
    rfl
  · rfl

/-- A trap for a page that the process has changes nothing that it sees. -/
theorem Inv.handled (h : Inv L lost eager leak s use) (hp : Live s p)
    (hT : userTable s.mem use ((s.procs p).pgdir, v) = some (f, false))
    (howned : Owned L lost m' use') (honly : Only {((s.procs p).pgdir, v)} s.mem use m' use')
    (hentry : userTable m' use' ((s.procs p).pgdir, v) = some (g, true))
    (hpage : m'.page g = s.mem.page f) :
    Inv L lost eager leak { s with mem := m' } use' ∧ abs { s with mem := m' } = abs s ∧
      Touches {(p, v)} {(p, v)} s use { s with mem := m' } use' := by
  have hinv : Inv L lost eager leak { s with mem := m' } use' := by
    refine h.resize hp howned honly (fun k hk => by rw [hk]) (fun _ k hk g' b hg => ?_) rfl
      (fun _ => ⟨rfl, rfl, rfl⟩) (fun _ _ => rfl) (h.size p hp) fun u hu => ?_
    · obtain rfl := hk
      have hg' : userTable m' use' ((s.procs p).pgdir, v) = some (g', b) := hg
      rw [hentry] at hg'
      exact (Prod.mk.inj (Option.some.inj hg')).2.symm
    · have huv : u ≠ v := by
        rintro rfl
        rw [h.bound p u hp hu] at hT
        cases hT
      show userTable m' use' _ = none
      rw [honly.entries _ fun hx => huv (Prod.mk.inj hx).2]
      exact h.bound p u hp hu
  have hviews : ∀ k, view m' use' k = view s.mem use k := by
    intro k
    by_cases hk : k = ((s.procs p).pgdir, v)
    · rw [hk, view_of_eq_some hentry, view_of_eq_some hT, hpage]
    · exact honly.views k hk
  refine ⟨hinv, abs_eq_of_views (by rfl) (by rfl) (by rfl) fun i => ?_, fun x => ?_, rfl,
    fun _ _ _ => ⟨rfl, rfl⟩, fun i u hi _ hK => ?_, fun i u _ _ hW _ => ⟨g, ?_⟩⟩
  · exact h.absProc_eq hinv rfl fun _ u => hviews _
  · exact honly.keeps.eq_iff (by simp) (by simp)
  · show frame (userTable m' use') _ = _
    rw [frame, frame, honly.entries _ fun hx => hK ?_]
    obtain ⟨hd, rfl⟩ := Prod.mk.inj hx
    rw [h.pgdir_inj i p hi hp hd]
    rfl
  · obtain ⟨rfl, rfl⟩ := Prod.mk.inj hW
    exact hentry

theorem Inv.store_follows (h : Inv L lost eager leak s use) (hp : Live s p) (b : Byte) :
    Follows L lost eager leak s use {(p, pageOf va)} {(p, pageOf va)} (HandlerFails s p va)
      (store p va b s)
      (if (s.procs p).killed = true ∧ Trapped s p va then Private.exitIfKilled p (abs s)
        else Private.store p va b (abs s)) := by
  have haccess := fun w => h.owned.access_eq (h.dir hp) va w
  cases hT : userTable s.mem use ((s.procs p).pgdir, pageOf va) with
  | none =>
    have hnot : ¬ Trapped s p va := fun hx => hx.2 (by rw [haccess, hT]; rfl)
    rw [if_neg fun hx => hnot hx.2, h.store_of_none hp hT, Private.store, abs_page h hp,
      view_eq_none_iff.2 hT]
    refine h.fault_follows hp hT fun i u hW hne => ?_
    obtain ⟨rfl, rfl⟩ := Prod.mk.inj hW
    exact absurd hT hne
  | some e =>
    obtain ⟨f, w⟩ := e
    cases w with
    | true =>
      have hsome : access s.mem (s.procs p).pgdir va true = some f := by rw [haccess, hT]; rfl
      have hnot : ¬ Trapped s p va := fun hx => by
        rw [Trapped, hsome] at hx
        cases hx.1
      rw [if_neg fun hx => hnot hx.2, store]
      simp only [hsome]
      exact h.write_follows hp hT b
    | false =>
      have hnone : access s.mem (s.procs p).pgdir va true = none := by rw [haccess, hT]; rfl
      have htrap : Trapped s p va := ⟨hnone, by rw [haccess, hT]; simp⟩
      rw [store]
      simp only [hnone]
      obtain ⟨m', use', g, hs₁, howned, honly, hentry, hpage, -, -⟩ | ⟨hfails, hoom⟩ :=
        h.cowHandler_cases hp hT
      · obtain ⟨hinv, habs, htouch⟩ := h.handled hp hT howned honly hentry hpage
        rw [hs₁]
        show Follows _ _ _ _ _ _ _ _ _ (if (s.procs p).killed = true then _ else _) _
        by_cases hk : (s.procs p).killed = true
        · rw [if_pos hk, if_pos ⟨hk, htrap⟩, Private.exitIfKilled, abs_killed, if_pos hk, ← habs]
          refine (hinv.exit_follows hp fun i u hW hne => ?_).of_touches htouch fun _ => Iff.rfl
          obtain ⟨rfl, rfl⟩ := Prod.mk.inj hW
          exact ⟨g, hentry⟩
        · have hsome : access m' (s.procs p).pgdir va true = some g := by
            rw [howned.access_eq (hinv.dir hp), hentry]
            rfl
          rw [if_neg hk, if_neg fun hx => hk hx.1, ← habs]
          simp only [hsome]
          exact (hinv.write_follows hp hentry b).of_touches htouch fun _ => Iff.rfl
      · cases hs₁ : cowHandler p va s with
        | error e => exact Or.inl hfails
        | ok s₁ =>
          have hoom₁ := hoom s₁ hs₁
          show Follows _ _ _ _ _ _ _ _ _ (if (s₁.procs p).killed = true then _ else _) _
          by_cases hk : (s₁.procs p).killed = true
          · rw [if_pos hk]
            cases hs' : exit p s₁ with
            | error e => exact Or.inl hfails
            | ok s' => exact Or.inl ⟨hfails, by rw [(exit_fields hs').1, hoom₁]⟩
          · rw [if_neg hk]
            cases access s₁.mem (s₁.procs p).pgdir va true with
            | none => exact Or.inl ⟨hfails, hoom₁⟩
            | some f₁ => exact Or.inl ⟨hfails, hoom₁⟩

end SystemsProjects.Cow
