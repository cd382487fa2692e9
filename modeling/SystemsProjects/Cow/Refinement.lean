import SystemsProjects.Cow.Progress

/-!
# Copy-on-write refines eager copying

Both kernels follow the machine with private pages, so they agree on what every load returns, as long
as there is memory.
-/

namespace SystemsProjects.Cow

open Sharing

variable {L : Layout} {lost : Word} {leak leak' : Set Page} {s s' : Sys} {use use' : Page → Use}
  {p : Slot} {va : Word}

/-- The events of a run of the kernel with `cowuvm`, for the kernel with `copyuvm`: the same ones, but
that a killed process exits where the other kernel has taken a page fault. -/
def eagerEvents (L : Layout) : Sys → List MemEvent → List MemEvent
  | _, [] => []
  | s, e :: es =>
    withoutTraps s e ::
      match memStep L cowuvm s e with
      | .ok s => eagerEvents L s es
      | .error _ => es

/-- With `copyuvm` no store traps at a page that the process has. -/
theorem Inv.not_trapped (h : Inv L lost true leak s use) (hp : Live s p) : ¬ Trapped s p va := by
  rintro ⟨hnone, hsome⟩
  rw [h.owned.access_eq (h.dir hp)] at hnone hsome
  cases hT : userTable s.mem use ((s.procs p).pgdir, pageOf va) with
  | none =>
    rw [hT] at hsome
    exact hsome rfl
  | some e =>
    obtain ⟨f, b⟩ := e
    obtain rfl := h.writable rfl _ _ _ hT
    rw [hT] at hnone
    cases hnone

theorem Inv.not_fails (h : Inv L lost true leak s use) {e : MemEvent} (he : Live s e.proc) :
    ¬ e.Fails s := by
  cases e with
  | store p va b =>
    rintro ⟨hnone, ⟨f, hf, -⟩, -⟩
    refine h.not_trapped he ⟨hnone, ?_⟩
    show access s.mem (s.procs p).pgdir va false ≠ none
    rw [hf]
    simp
  | _ => exact id

theorem Inv.withoutTraps_eq (h : Inv L lost true leak s use) {e : MemEvent} (he : Live s e.proc) :
    withoutTraps s e = e := by
  cases e with
  | store p va b =>
    rw [withoutTraps_store, if_neg fun hx => h.not_trapped he hx.2]
  | _ => rfl

/-- The two kernels side by side, from states in which the processes see the same pages. -/
theorem run_copyuvm_cases : ∀ {es : List MemEvent} {s s' t : Sys} {use use' : Page → Use}
    {leak leak' : Set Page}, Inv L lost false leak s use → Inv L lost true leak' s' use' →
    abs s = abs s' → run L cowuvm s es = .ok t →
      run L copyuvm s' (eagerEvents L s es) = .error .outOfMemory ∨
        ∃ t', run L copyuvm s' (eagerEvents L s es) = .ok t' ∧ abs t = abs t'
  | [], s, s', t, _, _, _, _, _, _, habs, hrun => by
    obtain rfl := Except.ok.inj hrun
    exact Or.inr ⟨s', rfl, habs⟩
  | e :: es, s, s', t, use, use', leak, leak', h, h', habs, hrun => by
    rw [run] at hrun
    cases hs₁ : memStep L cowuvm s e with
    | error x =>
      rw [hs₁] at hrun
      cases hrun
    | ok s₁ =>
      rw [hs₁] at hrun
      have hrun' : (if s₁.mem.oom then .error .outOfMemory else run L cowuvm s₁ es) = .ok t := hrun
      split_ifs at hrun' with hoom
      have hfollow := h.memStep_follows copySpec_cowuvm e
      rw [hs₁] at hfollow
      obtain ⟨-, hx⟩ | ⟨use₁, leak₁, h₁, -, hstep⟩ := hfollow
      · exact absurd hx hoom
      obtain ⟨-, hstep⟩ := hstep (by simpa using hoom)
      -- the other kernel takes the same step of the machine with private pages
      have hlive : Live s' (withoutTraps s e).proc := by
        unfold Live
        rw [← abs_state, ← habs]
        intro hx
        unfold Private.step at hstep
        rw [if_pos (by rw [hx]; simp)] at hstep
        cases hstep
      have hfollow' := h'.memStep_follows copySpec_copyuvm (withoutTraps s e)
      rw [h'.withoutTraps_eq hlive, ← habs, hstep] at hfollow'
      rw [eagerEvents, hs₁, run]
      cases hs₁' : memStep L copyuvm s' (withoutTraps s e) with
      | error x =>
        rw [hs₁'] at hfollow'
        obtain hx | ⟨y, hy⟩ := hfollow'
        · exact absurd hx (h'.not_fails hlive)
        · cases hy
      | ok s₁' =>
        rw [hs₁'] at hfollow'
        show (if s₁'.mem.oom then .error .outOfMemory else run L copyuvm s₁' (eagerEvents L s₁ es)) = _ ∨
          ∃ t', (if s₁'.mem.oom then .error .outOfMemory
            else run L copyuvm s₁' (eagerEvents L s₁ es)) = .ok t' ∧ abs t = abs t'
        by_cases hoom' : s₁'.mem.oom = true
        · rw [if_pos hoom']
          exact Or.inl rfl
        · rw [if_neg hoom']
          obtain ⟨-, hx⟩ | ⟨use₁', leak₁', h₁', -, habs₁⟩ := hfollow'
          · exact absurd hx hoom'
          · exact run_copyuvm_cases h₁ h₁' (Except.ok.inj (habs₁ (by simpa using hoom')).2) hrun'

/-- Copy-on-write fork refines eager-copy fork: in every run, all user-mode loads return the same bytes
as in the kernel that copies every page in `fork`, unless that kernel runs out of memory before. -/
theorem cowuvm_refines_copyuvm {ram : Page → PageData} {init : List Byte} {es : List MemEvent}
    {s₀ : Sys} (hboot : boot L ram init = .ok s₀) (hrun : run L cowuvm s₀ es = .ok s) :
    run L copyuvm s₀ (eagerEvents L s₀ es) = .error .outOfMemory ∨
      ∃ s', run L copyuvm s₀ (eagerEvents L s₀ es) = .ok s' ∧ s'.loads = s.loads := by
  obtain ⟨use, f₀, hb⟩ := boot_inv hboot
  refine (run_copyuvm_cases (hb.inv.of_eager false) hb.inv rfl hrun).imp_right ?_
  rintro ⟨s', hs', habs⟩
  exact ⟨s', hs', (congrArg Private.Sys.loads habs).symm⟩

/-! ## A run of both kernels -/

/-- The first process forks and writes to its page, and then both processes read. -/
def forkStoreLoad : List MemEvent :=
  [.fork initSlot, .store initSlot 0#32 7#8, .load slotA 0#32, .load initSlot 0#32]

theorem Running.eagerEvents_cons {st : Slot → ProcState} {par : Slot → Option Slot} {e : MemEvent} {es : List MemEvent}
    (h : Running L false leak s use st par) (hs : memStep L cowuvm s e = .ok s') :
    eagerEvents L s (e :: es) = e :: eagerEvents L s' es := by
  rw [eagerEvents, hs, h.withoutTraps_eq]

/-- With copies of all pages the child reads what was there at the fork, and the parent what it has written. -/
theorem Booted.copyuvm_forkStoreLoad {f₀ : Page} (hb : Booted smallLayout [] s use f₀) :
    ∃ s', run smallLayout copyuvm s forkStoreLoad = .ok s' ∧ s'.loads = [0#8, 7#8] := by
  have h₀ := hb.running (by decide)
  have hinit : Live s initSlot := h₀.live_iff.2 (by decide)
  have hne : initSlot ≠ slotA := by decide
  have hpage : ((abs s).procs initSlot).page 0#20 = some fun _ => 0#32 := by
    obtain ⟨f, hf, hzero⟩ := hb.page
    rw [abs_page hb.inv hinit, view_of_eq_some hf, hzero]
    rfl
  obtain ⟨ha₁, hfam₁⟩ := h₀.family.fork_eq initSlot slotA (by decide) (by decide)
  obtain ⟨s₁, use₁, hs₁, h₁, -, habs₁⟩ :=
    h₀.stepWith copySpec_copyuvm affordable_copyuvm (by decide) (by simp) ha₁ hfam₁
  have hparent₁ : ((abs s₁).procs initSlot).page 0#20 = some fun _ => 0#32 := by
    rw [habs₁, forked_procs_of_ne _ _ hne, hpage]
  have hchild₁ : ((abs s₁).procs slotA).page 0#20 = some fun _ => 0#32 := by
    rw [habs₁, forked_procs_self]
    show (if (0#20 : Page).toNat < pagesBelow ((abs s).procs initSlot).sz then _ else none) = _
    rw [(h₀.family.member initSlot).sz (by decide), if_pos (by decide), hpage]
  obtain ⟨ha₂, hfam₂⟩ := h₁.family.store_eq (p := initSlot) (by decide) hparent₁ 7#8
  obtain ⟨s₂, use₂, hs₂, h₂, -, habs₂⟩ :=
    h₁.stepWith copySpec_copyuvm affordable_copyuvm (by decide) (by simp) ha₂ hfam₂
  have hparent₂ : ((abs s₂).procs initSlot).page 0#20 = some (setByte (fun _ => 0#32) 0#12 7#8) := by
    rw [habs₂, stored_page_self]
  have hchild₂ : ((abs s₂).procs slotA).page 0#20 = some fun _ => 0#32 := by
    rw [habs₂, stored_procs_of_ne _ _ _ hne.symm, hchild₁]
  obtain ⟨ha₃, hfam₃⟩ := h₂.family.load_eq (p := slotA) (by decide) hchild₂
  obtain ⟨s₃, use₃, hs₃, h₃, -, habs₃⟩ :=
    h₂.stepWith copySpec_copyuvm affordable_copyuvm (by decide) (by simp) ha₃ hfam₃
  have hparent₃ : ((abs s₃).procs initSlot).page 0#20 = some (setByte (fun _ => 0#32) 0#12 7#8) := by
    rw [habs₃]
    exact hparent₂
  obtain ⟨ha₄, hfam₄⟩ := h₃.family.load_eq (p := initSlot) (by decide) hparent₃
  obtain ⟨s₄, use₄, hs₄, h₄, -, habs₄⟩ :=
    h₃.stepWith copySpec_copyuvm affordable_copyuvm (by decide) (by simp) ha₄ hfam₄
  refine ⟨s₄, ?_, ?_⟩
  · rw [forkStoreLoad, run_cons hs₁ h₁.oom, run_cons hs₂ h₂.oom, run_cons hs₃ h₃.oom, run_cons hs₄ h₄.oom, run]
  · have hloads : (abs s₄).loads = [] ++ [0#8] ++ [7#8] := by
      rw [habs₄, habs₃, habs₂, habs₁]
      show (s.loads ++ [_]) ++ [_] = _
      rw [hb.loads]
      rfl
    exact hloads

/-- Both kernels return the bytes 0 and 7. -/
theorem cowuvm_refines_copyuvm_forkStoreLoad : ∃ s₀ s s', boot smallLayout blankRam [] = .ok s₀ ∧
    run smallLayout cowuvm s₀ forkStoreLoad = .ok s ∧
    run smallLayout copyuvm s₀ (eagerEvents smallLayout s₀ forkStoreLoad) = .ok s' ∧
    s'.loads = s.loads ∧ s.loads = [0#8, 7#8] := by
  obtain ⟨s₀, use₀, f₀, hboot, hb, h₀⟩ := exists_boot_running
  obtain ⟨s₁, use₁, hs₁, h₁, -⟩ := h₀.step (by decide) (by simp)
    (h₀.family.fork (p := initSlot) (by decide) (show _ = some slotA by decide))
  obtain ⟨s₂, use₂, hs₂, h₂, -⟩ := h₁.step (by decide) (by simp)
    (h₁.family.store (p := initSlot) (by decide) 7#8)
  obtain ⟨s₃, use₃, hs₃, h₃, -⟩ := h₂.step (by decide) (by simp) (h₂.family.load (p := slotA) (by decide))
  obtain ⟨s₄, use₄, hs₄, h₄, -⟩ := h₃.step (by decide) (by simp) (h₃.family.load (p := initSlot) (by decide))
  have hrun : run smallLayout cowuvm s₀ forkStoreLoad = .ok s₄ := by
    rw [forkStoreLoad, run_cons hs₁ h₁.oom, run_cons hs₂ h₂.oom, run_cons hs₃ h₃.oom, run_cons hs₄ h₄.oom, run]
  have hevents : eagerEvents smallLayout s₀ forkStoreLoad = forkStoreLoad := by
    rw [forkStoreLoad, h₀.eagerEvents_cons hs₁, h₁.eagerEvents_cons hs₂, h₂.eagerEvents_cons hs₃,
      h₃.eagerEvents_cons hs₄, eagerEvents]
  obtain ⟨s', hrun', hloads⟩ := hb.copyuvm_forkStoreLoad
  rw [← hevents] at hrun'
  obtain herr | ⟨s'', hs'', hsame⟩ := cowuvm_refines_copyuvm hboot hrun
  · rw [hrun'] at herr
    cases herr
  · obtain rfl := Except.ok.inj (hrun'.symm.trans hs'')
    exact ⟨s₀, s₄, s', hboot, hrun, hrun', hsame, hsame.symm.trans hloads⟩

end SystemsProjects.Cow
