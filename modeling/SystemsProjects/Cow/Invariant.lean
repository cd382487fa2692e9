import SystemsProjects.Cow.AddressSpace
import SystemsProjects.Cow.Private
import SystemsProjects.Lib.Holding

/-!
# The invariant of the kernel

`Inv` ties the process table to the memory: the page directories are that of the kernel and those of
the processes, each process has its own directory and kernel stack, and maps nothing above its size.
`abs` forgets frames and page tables and leaves the pages a process sees.  The two kernels differ in
one point: with `copyuvm` no entry is ever read-only.
-/

namespace SystemsProjects.Cow

open Sharing Holding

variable {L : Layout} {lost : Word} {leak leak' : Set Page} {eager : Bool} {s s' : Sys} {m m' : Mem}
  {use use' : Page → Use} {f g d t v : Page} {p i j : Slot} {b : Bool} {sz : Word}

/-- A slot of the process table that is in use. -/
def Live (s : Sys) (i : Slot) : Prop := (s.procs i).state ≠ .unused

theorem live_of_runnable (h : (s.procs i).state = .runnable) : Live s i := by
  unfold Live
  rw [h]
  simp

theorem live_of_zombie (h : (s.procs i).state = .zombie) : Live s i := by
  unfold Live
  rw [h]
  simp

/-- The invariant of the kernel; the frames in `leak` are in use for nothing any more. -/
structure Inv (L : Layout) (lost : Word) (eager : Bool) (leak : Set Page) (s : Sys) (use : Page → Use) :
    Prop where
  owned : Owned L lost s.mem use
  writable : eager = true → AllWritable (userTable s.mem use)
  ready : ∀ i, (s.procs i).state ≠ .embryo
  dirs : ∀ d, use d = .dir ↔ d = s.kpgdir ∨ ∃ i, Live s i ∧ (s.procs i).pgdir = d
  complete : ∀ d, use d = .dir → Complete use d
  pgdir_inj : ∀ i j, Live s i → Live s j → (s.procs i).pgdir = (s.procs j).pgdir → i = j
  pgdir_ne : ∀ i, Live s i → (s.procs i).pgdir ≠ s.kpgdir
  kstacks : ∀ f, use f = .kern ↔ f ∈ leak ∨ ∃ i, Live s i ∧ (s.procs i).kstack = f
  kstack_inj : ∀ i j, Live s i → Live s j → (s.procs i).kstack = (s.procs j).kstack → i = j
  kstack_ne : ∀ i, Live s i → (s.procs i).kstack ∉ leak
  size : ∀ i, Live s i → (s.procs i).sz ≤ USERTOP
  bound : ∀ i v, Live s i → pagesBelow (s.procs i).sz ≤ v.toNat →
    userTable s.mem use ((s.procs i).pgdir, v) = none
  kernel : ∀ v, userTable s.mem use (s.kpgdir, v) = none

theorem Inv.dir (h : Inv L lost eager leak s use) (hi : Live s i) : use (s.procs i).pgdir = .dir :=
  (h.dirs _).2 (Or.inr ⟨i, hi, rfl⟩)

theorem Inv.kern (h : Inv L lost eager leak s use) (hi : Live s i) : use (s.procs i).kstack = .kern :=
  (h.kstacks _).2 (Or.inr ⟨i, hi, rfl⟩)

theorem Inv.exists_table (h : Inv L lost eager leak s use) (hi : Live s i) :
    ∃ t, use t = .table (s.procs i).pgdir 0#10 :=
  (h.complete _ (h.dir hi)).exists_table

/-- Each process has a page directory and a kernel stack of its own. -/
theorem Inv.pgdirs (h : Inv L lost eager leak s use) :
    Held {i | Live s i} (fun i => (s.procs i).pgdir) {s.kpgdir} {d | use d = .dir} :=
  ⟨h.dirs, h.pgdir_inj, h.pgdir_ne⟩

theorem Inv.stacks (h : Inv L lost eager leak s use) :
    Held {i | Live s i} (fun i => (s.procs i).kstack) leak {f | use f = .kern} :=
  ⟨h.kstacks, h.kstack_inj, h.kstack_ne⟩

/-- The invariant from its parts. -/
theorem Inv.of_held (howned : Owned L lost s.mem use) (hwritable : eager = true → AllWritable (userTable s.mem use))
    (hready : ∀ i, (s.procs i).state ≠ .embryo)
    (hpgdirs : Held {i | Live s i} (fun i => (s.procs i).pgdir) {s.kpgdir} {d | use d = .dir})
    (hcomplete : ∀ d, use d = .dir → Complete use d)
    (hstacks : Held {i | Live s i} (fun i => (s.procs i).kstack) leak {f | use f = .kern})
    (hsize : ∀ i, Live s i → (s.procs i).sz ≤ USERTOP)
    (hbound : ∀ i v, Live s i → pagesBelow (s.procs i).sz ≤ v.toNat →
      userTable s.mem use ((s.procs i).pgdir, v) = none)
    (hkernel : ∀ v, userTable s.mem use (s.kpgdir, v) = none) : Inv L lost eager leak s use :=
  ⟨howned, hwritable, hready, hpgdirs.used_iff, hcomplete, hpgdirs.inj, hpgdirs.extra_ne, hstacks.used_iff,
    hstacks.inj, hstacks.extra_ne, hsize, hbound, hkernel⟩

/-- The invariant of the kernel with `copyuvm` is the stronger one. -/
theorem Inv.of_eager (h : Inv L lost true leak s use) (eager : Bool) : Inv L lost eager leak s use :=
  { h with writable := fun _ => h.writable rfl }

/-- The process table changes in fields that the memory does not depend on. -/
theorem Inv.congr (h : Inv L lost eager leak s use) (hmem : s'.mem = s.mem) (hk : s'.kpgdir = s.kpgdir)
    (hready : ∀ i, (s'.procs i).state ≠ .embryo) (hlive : ∀ i, Live s' i ↔ Live s i)
    (hproc : ∀ i, Live s i → (s'.procs i).pgdir = (s.procs i).pgdir ∧
      (s'.procs i).kstack = (s.procs i).kstack ∧ (s'.procs i).sz = (s.procs i).sz) :
    Inv L lost eager leak s' use := by
  have hpgdirs := h.pgdirs.congr hlive (fun i hi => (hproc i hi).1) fun _ => Iff.rfl
  have hstacks := h.stacks.congr hlive (fun i hi => (hproc i hi).2.1) fun _ => Iff.rfl
  refine Inv.of_held ?_ ?_ hready (by rw [hk]; exact hpgdirs) h.complete hstacks (fun i hi => ?_)
    (fun i v hi => ?_) fun v => ?_
  · rw [hmem]
    exact h.owned
  · rw [hmem]
    exact h.writable
  · rw [hlive] at hi
    rw [(hproc i hi).2.2]
    exact h.size i hi
  · rw [hlive] at hi
    rw [(hproc i hi).1, (hproc i hi).2.2, hmem]
    exact h.bound i v hi
  · rw [hmem, hk]
    exact h.kernel v

/-- A process changes its own entries and perhaps its size. -/
theorem Inv.resize (h : Inv L lost eager leak s use) (hp : Live s p) (howned : Owned L lost s'.mem use')
    {K : Set (Page × Page)} (honly : Only K s.mem use s'.mem use')
    (hK : ∀ k ∈ K, k.1 = (s.procs p).pgdir)
    (hw : eager = true → ∀ k ∈ K, ∀ f b, userTable s'.mem use' k = some (f, b) → b = true)
    (hk : s'.kpgdir = s.kpgdir)
    (hproc : ∀ i, (s'.procs i).pgdir = (s.procs i).pgdir ∧ (s'.procs i).kstack = (s.procs i).kstack ∧
      (s'.procs i).state = (s.procs i).state)
    (hother : ∀ i, i ≠ p → (s'.procs i).sz = (s.procs i).sz) (hsz : (s'.procs p).sz ≤ USERTOP)
    (hbound : ∀ v, pagesBelow (s'.procs p).sz ≤ v.toNat →
      userTable s'.mem use' ((s.procs p).pgdir, v) = none) :
    Inv L lost eager leak s' use' := by
  have hlive : ∀ i, Live s' i ↔ Live s i := by
    intro i
    unfold Live
    rw [(hproc i).2.2]
  have hout : ∀ e v, e ≠ (s.procs p).pgdir →
      userTable s'.mem use' (e, v) = userTable s.mem use (e, v) :=
    fun e v he => honly.entries _ fun hx => he (hK _ hx)
  have hkeep : ∀ g u, u ≠ .free → u ≠ .user → (use' g = u ↔ use g = u) := fun g u => honly.keeps.eq_iff
  have hpgdirs := h.pgdirs.congr hlive (fun i _ => (hproc i).1) fun g => hkeep g .dir (by simp) (by simp)
  have hstacks := h.stacks.congr hlive (fun i _ => (hproc i).2.1) fun g => hkeep g .kern (by simp) (by simp)
  refine Inv.of_held howned (fun he k f b hT => ?_) (fun i => ?_) (by rw [hk]; exact hpgdirs) (fun d hd => ?_)
    hstacks (fun i hi => ?_) (fun i v hi => ?_) fun v => ?_
  · by_cases hkK : k ∈ K
    · exact hw he k hkK f b hT
    · exact h.writable he k f b (by rw [← honly.entries k hkK, hT])
  · rw [(hproc i).2.2]
    exact h.ready i
  · exact (h.complete d ((hkeep d .dir (by simp) (by simp)).1 hd)).keeps honly.keeps
  · by_cases hip : i = p
    · rw [hip]
      exact hsz
    · rw [hother i hip]
      exact h.size i ((hlive i).1 hi)
  · rw [(hproc i).1]
    by_cases hip : i = p
    · subst hip
      exact hbound v
    · rw [hother i hip, hout _ v fun hx => hip (h.pgdir_inj i p ((hlive i).1 hi) hp hx)]
      exact h.bound i v ((hlive i).1 hi)
  · rw [hk, hout _ v fun hx => h.pgdir_ne p hp hx.symm]
    exact h.kernel v

/-- The processes and their address spaces stay; frames may be lost to the kernel. -/
theorem Inv.lose (h : Inv L lost eager leak s use) (howned : Owned L lost s'.mem use')
    (hkeep : ∀ g u, u ≠ .free → u ≠ .user → u ≠ .kern → (use' g = u ↔ use g = u))
    (hkern : ∀ i, Live s i → use' (s.procs i).kstack = .kern)
    (hT : userTable s'.mem use' = userTable s.mem use) (hk : s'.kpgdir = s.kpgdir)
    (hready : ∀ i, (s'.procs i).state ≠ .embryo) (hlive : ∀ i, Live s' i ↔ Live s i)
    (hproc : ∀ i, Live s i → s'.procs i = s.procs i) : ∃ leak', Inv L lost eager leak' s' use' := by
  have hpgdirs := h.pgdirs.congr hlive (fun i hi => congrArg Proc.pgdir (hproc i hi)) fun d =>
    hkeep d .dir (by simp) (by simp) (by simp)
  -- what is in use for the kernel and is no kernel stack is lost
  have hheld : ∀ i ∈ {i | Live s i}, (s.procs i).kstack ∈ {f | use' f = .kern} := hkern
  have hstacks : Held {i | Live s' i} (fun i => (s'.procs i).kstack)
      {f | use' f = .kern ∧ ∀ i, Live s i → (s.procs i).kstack ≠ f} {f | use' f = .kern} :=
    (h.stacks.rest hheld).congr hlive (fun i hi => congrArg Proc.kstack (hproc i hi)) fun _ => Iff.rfl
  refine ⟨_, Inv.of_held howned ?_ hready (by rw [hk]; exact hpgdirs) (fun d hd i => ?_) hstacks
    (fun i hi => ?_) (fun i v hi => ?_) fun v => ?_⟩
  · rw [hT]
    exact h.writable
  · rw [← h.complete d ((hkeep d .dir (by simp) (by simp) (by simp)).1 hd) i]
    exact exists_congr fun t => hkeep t _ (by simp) (by simp) (by simp)
  · rw [hlive] at hi
    rw [hproc i hi]
    exact h.size i hi
  · rw [hlive] at hi
    rw [hproc i hi, hT]
    exact h.bound i v hi
  · rw [hT, hk]
    exact h.kernel v

/-! ## The abstraction -/

/-- What a process with page directory `d` sees at a page. -/
def pageAt (m : Mem) (d v : Page) : Option PageData :=
  ((pteOf m d v).bind decode).map fun e => m.page e.1

theorem view_eq_pageAt (hd : use d = .dir) (v : Page) : view m use (d, v) = pageAt m d v := by
  unfold view userTable pageAt
  rw [if_pos hd]

def absProc (m : Mem) (q : Proc) : Private.Proc :=
  { sz := q.sz, state := q.state, pid := q.pid, parent := q.parent, killed := q.killed
    page := if q.state = .unused then fun _ => none else pageAt m q.pgdir }

/-- The processes with their private pages. -/
def abs (s : Sys) : Private.Sys :=
  { procs := fun i => absProc s.mem (s.procs i), nextpid := s.nextpid, initproc := s.initproc
    loads := s.loads }

theorem abs_page (h : Inv L lost eager leak s use) (hi : Live s i) (v : Page) :
    ((abs s).procs i).page v = view s.mem use ((s.procs i).pgdir, v) := by
  show (absProc s.mem (s.procs i)).page v = _
  unfold absProc
  simp only
  rw [if_neg hi, view_eq_pageAt (h.dir hi)]

@[simp] theorem abs_state : ((abs s).procs i).state = (s.procs i).state := rfl
@[simp] theorem abs_pid : ((abs s).procs i).pid = (s.procs i).pid := rfl
@[simp] theorem abs_parent : ((abs s).procs i).parent = (s.procs i).parent := rfl
@[simp] theorem abs_killed : ((abs s).procs i).killed = (s.procs i).killed := rfl
@[simp] theorem abs_sz : ((abs s).procs i).sz = (s.procs i).sz := rfl
@[simp] theorem abs_initproc : (abs s).initproc = s.initproc := rfl
@[simp] theorem abs_nextpid : (abs s).nextpid = s.nextpid := rfl

/-- The process table changes at one slot, and the pages of the other processes stay. -/
theorem abs_eq_modify (hnext : s'.nextpid = s.nextpid) (hinit : s'.initproc = s.initproc)
    (hloads : s'.loads = s.loads) {f : Private.Proc → Private.Proc}
    (hp : absProc s'.mem (s'.procs p) = f (absProc s.mem (s.procs p)))
    (hother : ∀ i, i ≠ p → absProc s'.mem (s'.procs i) = absProc s.mem (s.procs i)) :
    abs s' = (abs s).modify p f := by
  unfold abs Private.Sys.modify
  simp only [hnext, hinit, hloads]
  congr 1
  funext i
  by_cases hip : i = p
  · rw [hip, Function.update_self, hp]
  · rw [Function.update_of_ne hip, hother i hip]

/-- The process table stays, and so do all pages. -/
theorem abs_eq_of_views (hnext : s'.nextpid = s.nextpid) (hinit : s'.initproc = s.initproc)
    (hloads : s'.loads = s.loads)
    (hother : ∀ i, absProc s'.mem (s'.procs i) = absProc s.mem (s.procs i)) : abs s' = abs s := by
  unfold abs
  simp only [hnext, hinit, hloads, hother]

theorem absProc_congr {q : Proc} (h : q.state ≠ .unused → ∀ v, pageAt m' q.pgdir v = pageAt m q.pgdir v) :
    absProc m' q = absProc m q := by
  unfold absProc
  congr 1
  split_ifs with hq
  · rfl
  · exact funext (h hq)

/-- A process whose entry in the process table stays and that sees the same pages. -/
theorem Inv.absProc_eq (h : Inv L lost eager leak s use) (h' : Inv L lost eager leak' s' use')
    (hproc : s'.procs i = s.procs i)
    (hview : Live s i → ∀ v, view s'.mem use' ((s.procs i).pgdir, v) =
      view s.mem use ((s.procs i).pgdir, v)) :
    absProc s'.mem (s'.procs i) = absProc s.mem (s.procs i) := by
  rw [hproc]
  apply absProc_congr
  intro hi v
  have hi' : Live s' i := by
    unfold Live
    rwa [hproc]
  have hv := hview hi v
  rw [view_eq_pageAt (h.dir hi), view_eq_pageAt (hproc ▸ h'.dir hi')] at hv
  exact hv

/-- The pages in `W` that are there can be written. -/
def CanWrite (W : Set (Slot × Page)) (s : Sys) (use : Page → Use) : Prop :=
  ∀ i v, (i, v) ∈ W → userTable s.mem use ((s.procs i).pgdir, v) ≠ none →
    ∃ g, userTable s.mem use ((s.procs i).pgdir, v) = some (g, true)

theorem CanWrite.empty : CanWrite ∅ s use := fun _ _ h => absurd h (Set.notMem_empty _)

/-- How a step changes the processes that are there before and after it: only pages in `K` get other
frames, and those in `W` become writable. -/
structure Touches (K W : Set (Slot × Page)) (s : Sys) (use : Page → Use) (s' : Sys)
    (use' : Page → Use) : Prop where
  reserved : ∀ g, use' g = .reserved ↔ use g = .reserved
  kpgdir : s'.kpgdir = s.kpgdir
  procs : ∀ i, Live s i → Live s' i →
    (s'.procs i).pgdir = (s.procs i).pgdir ∧ (s'.procs i).kstack = (s.procs i).kstack
  frames : ∀ i v, Live s i → Live s' i → (i, v) ∉ K →
    frame (userTable s'.mem use') ((s.procs i).pgdir, v) =
      frame (userTable s.mem use) ((s.procs i).pgdir, v)
  written : ∀ i v, Live s i → Live s' i → (i, v) ∈ W →
    userTable s.mem use ((s.procs i).pgdir, v) ≠ none →
      ∃ g, userTable s'.mem use' ((s.procs i).pgdir, v) = some (g, true)

/-- A step of the kernel keeps the invariant and follows a step of the abstract machine, as long as
`kalloc` succeeds; `fails` is the case that it fails where the kernel does not expect it. -/
def Follows (L : Layout) (lost : Word) (eager : Bool) (leak : Set Page) (s : Sys) (use : Page → Use)
    (K W : Set (Slot × Page)) (fails : Prop) (r : Except Halt Sys) (ar : Except Halt Private.Sys) :
    Prop :=
  match r with
  | .ok s' => (fails ∧ s'.mem.oom = true) ∨ ∃ use' leak', Inv L lost eager leak' s' use' ∧
      Touches K W s use s' use' ∧ (s'.mem.oom = false → leak' = leak ∧ ar = .ok (abs s'))
  | .error _ => fails ∨ ∃ h, ar = .error h

variable {K W : Set (Slot × Page)} {fails : Prop}

/-- The memory and the page directories of the processes stay. -/
theorem Touches.of_eq (hmem : s'.mem = s.mem) (hk : s'.kpgdir = s.kpgdir)
    (hproc : ∀ i, Live s i →
      (s'.procs i).pgdir = (s.procs i).pgdir ∧ (s'.procs i).kstack = (s.procs i).kstack)
    (hW : CanWrite W s use) : Touches K W s use s' use :=
  ⟨fun _ => Iff.rfl, hk, fun i hi _ => hproc i hi, fun i v _ _ _ => by rw [hmem],
    fun i v _ _ hiW hne => by rw [hmem]; exact hW i v hiW hne⟩

theorem Touches.refl (hW : CanWrite W s use) : Touches K W s use s use :=
  Touches.of_eq rfl rfl (fun _ _ => ⟨rfl, rfl⟩) hW

theorem Touches.trans {s₁ : Sys} {use₁ : Page → Use} (h : Touches K W s use s₁ use₁)
    (h' : Touches K W s₁ use₁ s' use') (hlive : ∀ i, Live s i ↔ Live s₁ i) :
    Touches K W s use s' use' := by
  refine ⟨fun g => (h'.reserved g).trans (h.reserved g), h'.kpgdir.trans h.kpgdir, fun i hi hi' => ?_,
    fun i v hi hi' hK => ?_, fun i v hi hi' hW hne => ?_⟩
  · have hi₁ := (hlive i).1 hi
    rw [(h'.procs i hi₁ hi').1, (h'.procs i hi₁ hi').2]
    exact h.procs i hi hi₁
  · have hi₁ := (hlive i).1 hi
    rw [← h.frames i v hi hi₁ hK, ← (h.procs i hi hi₁).1]
    exact h'.frames i v hi₁ hi' hK
  · have hi₁ := (hlive i).1 hi
    rw [← (h.procs i hi hi₁).1]
    refine h'.written i v hi₁ hi' hW ?_
    obtain ⟨g, hg⟩ := h.written i v hi hi₁ hW hne
    rw [(h.procs i hi hi₁).1, hg]
    simp

/-- A step follows another one that the abstract machine does not see. -/
theorem Follows.of_touches {s₁ : Sys} {use₁ : Page → Use} {r : Except Halt Sys}
    {ar : Except Halt Private.Sys} (h : Follows L lost eager leak s₁ use₁ K W fails r ar)
    (ht : Touches K W s use s₁ use₁) (hlive : ∀ i, Live s i ↔ Live s₁ i) :
    Follows L lost eager leak s use K W fails r ar := by
  cases r with
  | error e => exact h
  | ok s' =>
    refine h.imp_right ?_
    rintro ⟨use', leak', hinv, htouch, habs⟩
    exact ⟨use', leak', hinv, ht.trans htouch hlive, habs⟩

/-! ## kill and exit -/

/-- `kill` changes nothing but the mark. -/
theorem kill_procs (pid : Word) (i : Slot) :
    (((kill pid s).procs i).pgdir = (s.procs i).pgdir ∧ ((kill pid s).procs i).kstack = (s.procs i).kstack ∧
      ((kill pid s).procs i).sz = (s.procs i).sz) ∧
    ((kill pid s).procs i).state = (s.procs i).state := by
  unfold kill
  cases (List.finRange NPROC).find? fun i => (s.procs i).pid = pid with
  | none => exact ⟨⟨rfl, rfl, rfl⟩, rfl⟩
  | some j =>
    by_cases hij : i = j
    · subst hij
      simp [Sys.modify]
    · simp [Sys.modify, Function.update_of_ne hij]

theorem kill_rest (pid : Word) : (kill pid s).mem = s.mem ∧ (kill pid s).kpgdir = s.kpgdir := by
  unfold kill
  cases (List.finRange NPROC).find? fun i => (s.procs i).pid = pid with
  | none => exact ⟨rfl, rfl⟩
  | some j => exact ⟨rfl, rfl⟩

theorem live_kill (pid : Word) : Live (kill pid s) i ↔ Live s i := by
  unfold Live
  rw [(kill_procs pid i).2]

theorem Inv.kill (h : Inv L lost eager leak s use) (pid : Word) :
    Inv L lost eager leak (kill pid s) use := by
  refine h.congr (kill_rest pid).1 (kill_rest pid).2 (fun i => ?_) (fun i => live_kill pid) fun i _ =>
    (kill_procs pid i).1
  rw [(kill_procs pid i).2]
  exact h.ready i

theorem touches_kill (pid : Word) (hW : CanWrite W s use) : Touches K W s use (kill pid s) use :=
  Touches.of_eq (kill_rest pid).1 (kill_rest pid).2
    (fun i _ => ⟨(kill_procs pid i).1.1, (kill_procs pid i).1.2.1⟩) hW

theorem abs_kill (pid : Word) : abs (kill pid s) = Private.kill pid (abs s) := by
  have hsame : ((List.finRange NPROC).find? fun i => ((abs s).procs i).pid = pid) =
      (List.finRange NPROC).find? fun i => (s.procs i).pid = pid := rfl
  unfold kill Private.kill
  rw [hsame]
  cases (List.finRange NPROC).find? fun i => (s.procs i).pid = pid with
  | none => rfl
  | some j =>
    show abs (s.modify j _) = (abs s).modify j _
    apply abs_eq_modify (by rfl) (by rfl) (by rfl) ?_ fun i hi => ?_
    · simp [Sys.modify, absProc]
    · simp [Sys.modify, Function.update_of_ne hi]

/-- `exit` leaves the memory alone. -/
theorem exit_fields (h : exit p s = .ok s') :
    s'.mem = s.mem ∧ s'.kpgdir = s.kpgdir ∧
    ∀ i, ((s'.procs i).pgdir = (s.procs i).pgdir ∧ (s'.procs i).kstack = (s.procs i).kstack ∧
      (s'.procs i).sz = (s.procs i).sz) ∧
      (s'.procs i).state = if i = p then .zombie else (s.procs i).state := by
  unfold exit at h
  split_ifs at h
  obtain rfl := Except.ok.inj h
  refine ⟨rfl, rfl, fun i => ?_⟩
  by_cases hip : i = p
  · subst hip
    simp only [Sys.modify, Function.update_self]
    split_ifs <;> exact ⟨⟨rfl, rfl, rfl⟩, rfl⟩
  · simp only [Sys.modify, Function.update_of_ne hip, if_neg hip]
    split_ifs <;> exact ⟨⟨rfl, rfl, rfl⟩, rfl⟩

theorem live_exit (h : exit p s = .ok s') (hp : Live s p) (i : Slot) : Live s i ↔ Live s' i := by
  unfold Live at hp ⊢
  rw [((exit_fields h).2.2 i).2]
  split_ifs with hip
  · rw [hip]
    exact iff_of_true hp (by simp)
  · rfl

theorem touches_exit (h : exit p s = .ok s') (hW : CanWrite W s use) : Touches K W s use s' use :=
  Touches.of_eq (exit_fields h).1 (exit_fields h).2.1
    (fun i _ => ⟨((exit_fields h).2.2 i).1.1, ((exit_fields h).2.2 i).1.2.1⟩) hW

theorem inv_exit (h : exit p s = .ok s') (hinv : Inv L lost eager leak s use) (hp : Live s p) :
    Inv L lost eager leak s' use := by
  refine hinv.congr (exit_fields h).1 (exit_fields h).2.1 (fun i => ?_)
    (fun i => (live_exit h hp i).symm) fun i _ => ((exit_fields h).2.2 i).1
  rw [((exit_fields h).2.2 i).2]
  split_ifs
  · simp
  · exact hinv.ready i

theorem absProc_zombie {q : Proc} (hq : q.state ≠ .unused) :
    absProc m { q with state := .zombie } = { absProc m q with state := .zombie } := by
  simp [absProc, hq]

theorem abs_exit (hp : Live s p) : (exit p s).map abs = Private.exit p (abs s) := by
  unfold exit Private.exit
  rw [abs_initproc]
  split_ifs with hinit
  · rfl
  · have hpart : ∀ i, absProc s.mem (if (s.procs i).parent = some p then
        { s.procs i with parent := some s.initproc } else s.procs i) =
        if ((abs s).procs i).parent = some p then
          { (abs s).procs i with parent := some s.initproc } else (abs s).procs i := by
      intro i
      rw [abs_parent]
      split_ifs <;> rfl
    unfold Private.Sys.modify abs Sys.modify
    simp only [Except.map, Except.ok.injEq]
    congr 1
    funext i
    by_cases hip : i = p
    · subst hip
      rw [Function.update_self, Function.update_self, absProc_zombie, hpart i]
      · rfl
      · split_ifs <;> exact hp
    · rw [Function.update_of_ne hip, Function.update_of_ne hip]
      exact hpart i

theorem Inv.exit_follows (h : Inv L lost eager leak s use) (hp : Live s p) (hW : CanWrite W s use) :
    Follows L lost eager leak s use K W fails (exit p s) (Private.exit p (abs s)) := by
  rw [← abs_exit hp]
  cases hs' : exit p s with
  | error e => exact Or.inr ⟨e, rfl⟩
  | ok s' => exact Or.inr ⟨use, leak, inv_exit hs' h hp, touches_exit hs' hW, fun _ => ⟨rfl, rfl⟩⟩

/-- A system call that has not marked its process as killed returns to it. -/
theorem Follows.bind_exit {r : Except Halt Sys} {ar : Except Halt Private.Sys}
    (h : Follows L lost eager leak s use K W fails r ar)
    (hk : ∀ s', r = .ok s' → (s'.procs p).killed = false) :
    Follows L lost eager leak s use K W fails (r.bind (exitIfKilled p))
      (ar.bind (Private.exitIfKilled p)) := by
  cases r with
  | error e =>
    refine h.imp_right ?_
    rintro ⟨e', rfl⟩
    exact ⟨e', rfl⟩
  | ok s₁ =>
    have hlive := hk s₁ rfl
    show Follows L lost eager leak s use K W fails (exitIfKilled p s₁) _
    rw [exitIfKilled, hlive, if_neg Bool.false_ne_true]
    refine h.imp_right ?_
    rintro ⟨use', leak', hinv, htouch, habs⟩
    refine ⟨use', leak', hinv, htouch, fun hoom => ⟨(habs hoom).1, ?_⟩⟩
    rw [(habs hoom).2]
    show Private.exitIfKilled p (abs s₁) = _
    rw [Private.exitIfKilled, abs_killed, hlive, if_neg Bool.false_ne_true]

end SystemsProjects.Cow
