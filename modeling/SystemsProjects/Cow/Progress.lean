import SystemsProjects.Cow.Counting

/-!
# Runs with enough memory

With 15 free frames no event but `sbrk` and, in the kernel that copies every page, the `fork` of a process with
more than one page runs out of memory, so any other event succeeds if it does for the machine with private pages
(`Inv.memStep_ok`).  Concrete runs are followed on that machine.
-/

namespace SystemsProjects.Cow

open Sharing

variable {L : Layout} {lost : Word} {leak : Set Page} {eager : Bool} {s s' : Sys} {m : Mem} {use use' : Page → Use}
  {p i : Slot} {va : Word} {b : Byte} {copy : CopyFn}

/-- With 14 free frames the address space is copied, if no more than one page has to be. -/
def Affordable (L : Layout) (lost : Word) (eager : Bool) (copy : CopyFn) : Prop :=
  ∀ {m m' : Mem} {use : Page → Use} {t d : Page} {sz : Word}, Owned L lost m use → use t = .table d 0#10 →
    sz ≤ USERTOP → (eager = true → pagesBelow sz ≤ 1) → 14 ≤ freeCount use → copy L d sz m ≠ .ok (none, m')

theorem affordable_cowuvm : Affordable L lost false cowuvm := by
  intro m m' use t d sz h ht hsz _ hroom hrun
  obtain ⟨herr, -⟩ | ⟨d', m₁, use', hrun', -⟩ | ⟨m₁, use', -, hleak⟩ := h.cowuvm_cases ht hsz
  · rw [herr] at hrun
    cases hrun
  · rw [hrun'] at hrun
    cases hrun
  · have hfew : freeCount use ≤ 12 := hleak.few
    omega

/-- One page is copied to the address 0 of a new directory, if there is a free frame. -/
theorem NewDir.copyPage_ne {use₁ : Page → Use} {m₁ m' : Mem} {d d' t : Page} (h : NewDir L lost m use d' m₁ use₁)
    (ht : use₁ t = .table d 0#10) (hroom : 1 ≤ freeCount use₁) : copyPage d d' 0#20 m₁ ≠ .ok (false, m') := by
  intro hrun
  have hd : use₁ d = .dir := (h.owned.frames.table t d _ ht).1
  obtain ⟨td, htd⟩ := (show Complete use₁ d' from h.tables).exists_table
  cases hT : userTable m₁ use₁ (d, 0#20) with
  | none =>
    unfold copyPage copyPageWith at hrun
    rw [h.owned.frames.pteOf_eq_some (v := 0#20) ht] at hrun
    simp only [h.owned.present_of_entry (v := 0#20) ht hT (by decide), if_true] at hrun
    cases hrun
  | some e =>
    obtain ⟨f, b⟩ := e
    obtain ⟨g, m₂, use₂, hok, -⟩ | ⟨-, hzero⟩ :=
      h.owned.copyPage_cases (v := 0#20) htd hd (by decide) (h.empty 0#20) hT
    · rw [hok] at hrun
      cases hrun
    · have := h.owned.freeCount_eq_zero hzero
      omega

theorem affordable_copyuvm : Affordable L lost true copyuvm := by
  intro m m' use t d sz h ht hsz hone hroom hrun
  unfold copyuvm uvmWith at hrun
  obtain ⟨d', m₁, use₁, hs₁, hnew⟩ | ⟨m₁, use₁, -, hleak⟩ := h.setupkvm_cases
  · have hleft := hnew.freeCount_le
    have ht₁ : use₁ t = .table d 0#10 := by rw [hnew.of_ne_free (by simp [ht]), ht]
    rw [hs₁] at hrun
    simp only [Except.bind] at hrun
    -- the loop does not give up
    cases hloop : uvmLoop (copyPage d d') (pagesBelow sz) 0#20 m₁ with
    | error e =>
      rw [hloop] at hrun
      cases hrun
    | ok r =>
      obtain ⟨ok, m₂⟩ := r
      rw [hloop] at hrun
      cases ok with
      | true => cases hrun
      | false =>
        obtain hzero | hsucc := Nat.le_one_iff_eq_zero_or_eq_one.1 (hone rfl)
        · rw [hzero] at hloop
          cases hloop
        · rw [hsucc, uvmLoop] at hloop
          cases hpage : copyPage d d' 0#20 m₁ with
          | error e =>
            rw [hpage] at hloop
            cases hloop
          | ok r =>
            obtain ⟨ok, m₃⟩ := r
            cases ok with
            | true =>
              rw [hpage] at hloop
              cases hloop
            | false => exact hnew.copyPage_ne ht₁ (by omega) hpage
  · have hfew : freeCount use ≤ 12 := hleak.few
    omega

theorem Inv.fork_oom (hcopy : CopySpec L lost eager copy) (hafford : Affordable L lost eager copy)
    (h : Inv L lost eager leak s use) (hp : Live s p) (hone : eager = true → pagesBelow (s.procs p).sz ≤ 1)
    (hroom : 15 ≤ freeCount use) (hs' : fork L copy p s = .ok s') : s'.mem.oom = s.mem.oom := by
  cases hfind : (List.finRange NPROC).find? fun i => (s.procs i).state = .unused with
  | none =>
    rw [fork_of_no_slot hfind] at hs'
    rw [← Except.ok.inj hs']
  | some np =>
    have hne : s.mem.freelist ≠ 0#32 := fun hz => by
      have := h.owned.freeCount_eq_zero hz
      omega
    obtain ⟨k, m, hk, hkf, h₁, hT₁, -, -, hoom₁⟩ := h.owned.kalloc_eq_some hne
    have hcount := freeCount_update (x := .kern) hkf (by simp)
    obtain ⟨t, ht⟩ := h.exists_table hp
    have htk : t ≠ k := by
      rintro rfl
      simp [hkf] at ht
    have ht' : Function.update use k .kern t = .table (s.procs p).pgdir 0#10 := by
      rw [Function.update_of_ne htk, ht]
    rw [fork_eq hfind hp hk] at hs'
    obtain ⟨e, herr, -⟩ | ⟨d, m', use', hrun, hfork, -⟩ | ⟨m', use', hrun, -⟩ :=
      hcopy h₁ (by rw [hT₁]; exact h.writable) ht' (h.size p hp)
    · rw [herr] at hs'
      cases hs'
    · rw [hrun] at hs'
      rw [← Except.ok.inj hs']
      exact hfork.oom.trans hoom₁
    · exact absurd hrun (hafford h₁ ht' (h.size p hp) hone (by omega))

theorem exitIfKilled_mem (h : exitIfKilled p s = .ok s') : s'.mem = s.mem := by
  unfold exitIfKilled at h
  split_ifs at h
  · exact (exit_fields h).1
  · rw [← Except.ok.inj h]

theorem Inv.fault_oom (h : Inv L lost eager leak s use) (hp : Live s p)
    (hnone : userTable s.mem use ((s.procs p).pgdir, pageOf va) = none)
    (hs' : (cowHandler p va s).bind (exitIfKilled p) = .ok s') : s'.mem.oom = s.mem.oom := by
  rw [h.cowHandler_of_none hp hnone] at hs'
  split_ifs at hs'
  · rw [exitIfKilled_mem hs', (kill_rest _).1]
  · cases hs'

theorem Inv.load_oom (h : Inv L lost eager leak s use) (hp : Live s p) (hs' : load p va s = .ok s') :
    s'.mem.oom = s.mem.oom := by
  unfold load at hs'
  rw [h.owned.access_eq (h.dir hp)] at hs'
  cases hT : userTable s.mem use ((s.procs p).pgdir, pageOf va) with
  | none =>
    rw [hT] at hs'
    exact h.fault_oom hp hT hs'
  | some e =>
    rw [hT] at hs'
    simp only [Bool.not_false, Bool.true_or, if_true, Option.bind_some] at hs'
    rw [← Except.ok.inj hs']

theorem Inv.store_oom (h : Inv L lost eager leak s use) (hp : Live s p) (hroom : 15 ≤ freeCount use)
    (hs' : store p va b s = .ok s') : s'.mem.oom = s.mem.oom := by
  cases hT : userTable s.mem use ((s.procs p).pgdir, pageOf va) with
  | none =>
    rw [h.store_of_none hp hT] at hs'
    exact h.fault_oom hp hT hs'
  | some e =>
    obtain ⟨f, w⟩ := e
    have haccess : access s.mem (s.procs p).pgdir va true = if w then some f else none := by
      rw [h.owned.access_eq (h.dir hp), hT]
      cases w <;> rfl
    unfold store at hs'
    simp only [haccess] at hs'
    cases w with
    | true =>
      rw [← Except.ok.inj hs']
      rfl
    | false =>
      simp only [Bool.false_eq_true, if_false] at hs'
      obtain ⟨m', use', g, hs₁, -, -, -, -, hoom, -⟩ | ⟨hfails, -⟩ := h.cowHandler_cases hp hT
      · rw [hs₁] at hs'
        simp only [Except.bind] at hs'
        split_ifs at hs'
        · rw [(exit_fields hs').1]
          exact hoom
        · cases ha : access m' (s.procs p).pgdir va true with
          | none =>
            rw [ha] at hs'
            rw [← Except.ok.inj hs']
            exact hoom
          | some f =>
            rw [ha] at hs'
            rw [← Except.ok.inj hs']
            exact hoom
      · have := h.owned.freeCount_eq_zero hfails.2.2
        omega

theorem Inv.wait_oom (h : Inv L lost eager leak s use) (hs' : wait L p s = .ok s') :
    s'.mem.oom = s.mem.oom := by
  obtain rfl | ⟨i, m, m', use', -, rfl, -, hoom, -⟩ := h.wait_cases hs'
  · rfl
  · exact hoom

theorem syscall_oom {body : Sys → Except Halt Sys} (hs' : syscall p body s = .ok s')
    (hbody : ∀ s₁, body s = .ok s₁ → s₁.mem.oom = s.mem.oom) : s'.mem.oom = s.mem.oom := by
  unfold syscall at hs'
  split_ifs at hs'
  · rw [(exit_fields hs').1]
  · cases hs₁ : body s with
    | error e =>
      rw [hs₁] at hs'
      cases hs'
    | ok s₁ =>
      rw [hs₁] at hs'
      rw [exitIfKilled_mem hs', hbody s₁ hs₁]

/-- With 15 free frames, only `sbrk` and the copying of pages can run out of memory. -/
theorem Inv.memStep_oom (hcopy : CopySpec L lost eager copy) (hafford : Affordable L lost eager copy)
    (h : Inv L lost eager leak s use) (hone : eager = true → ∀ i, Live s i → pagesBelow (s.procs i).sz ≤ 1)
    (hroom : 15 ≤ freeCount use) {e : MemEvent} (he : ∀ p n, e ≠ .sbrk p n)
    (hs' : memStep L copy s e = .ok s') : s'.mem.oom = s.mem.oom := by
  unfold memStep at hs'
  split_ifs at hs' with hrun
  rw [not_not] at hrun
  have hp : Live s e.proc := live_of_runnable hrun
  cases e with
  | load p va => exact h.load_oom hp hs'
  | store p va b => exact h.store_oom hp hroom hs'
  | fork p => exact syscall_oom hs' fun s₁ hs₁ => h.fork_oom hcopy hafford hp (fun hx => hone hx p hp) hroom hs₁
  | sbrk p n => exact absurd rfl (he p n)
  | exit p => rw [(exit_fields hs').1]
  | wait p => exact syscall_oom hs' fun s₁ hs₁ => h.wait_oom hs₁
  | interrupt p => rw [exitIfKilled_mem hs']

/-- An event other than `sbrk` that succeeds with private pages succeeds if there are 15 free frames. -/
theorem Inv.memStep_ok (hcopy : CopySpec L lost eager copy) (hafford : Affordable L lost eager copy)
    (h : Inv L lost eager leak s use) (hone : eager = true → ∀ i, Live s i → pagesBelow (s.procs i).sz ≤ 1)
    (hroom : 15 ≤ freeCount use) (hoom : s.mem.oom = false) {e : MemEvent} (he : ∀ p n, e ≠ .sbrk p n)
    {a : Private.Sys} (ha : Private.step (abs s) (withoutTraps s e) = .ok a) :
    ∃ s' use', memStep L copy s e = .ok s' ∧ s'.mem.oom = false ∧ Inv L lost eager leak s' use' ∧
      Touches e.touched e.written s use s' use' ∧ abs s' = a := by
  have hfollow := h.memStep_follows hcopy e
  rw [ha] at hfollow
  have hfails : ¬ e.Fails s := by
    cases e with
    | store p va b =>
      intro hx
      have := h.owned.freeCount_eq_zero hx.2.2
      omega
    | _ => exact id
  cases hs' : memStep L copy s e with
  | error x =>
    rw [hs'] at hfollow
    obtain hx | ⟨y, hy⟩ := hfollow
    · exact absurd hx hfails
    · cases hy
  | ok s' =>
    rw [hs'] at hfollow
    have hoom' := (h.memStep_oom hcopy hafford hone hroom he hs').trans hoom
    obtain ⟨hx, -⟩ | ⟨use', leak', hinv, htouch, habs⟩ := hfollow
    · exact absurd hx hfails
    · obtain ⟨rfl, ha'⟩ := habs hoom'
      exact ⟨s', use', rfl, hoom', hinv, htouch, (Except.ok.inj ha').symm⟩

/-! ## Families of processes -/

/-- A process that has not been killed and has one page, at address 0. -/
structure Member (q : Private.Proc) (st : ProcState) (par : Option Slot) : Prop where
  state : q.state = st
  parent : q.parent = par
  killed : q.killed = false
  sz : st ≠ .unused → q.sz = 4096#32
  page : st ≠ .unused → q.page 0#20 ≠ none

/-- The processes are in the states `st` and have the parents `par`. -/
structure Family (a : Private.Sys) (st : Slot → ProcState) (par : Slot → Option Slot) : Prop where
  member : ∀ i, Member (a.procs i) (st i) (par i)
  initproc : a.initproc = initSlot

variable {a : Private.Sys} {st : Slot → ProcState} {par : Slot → Option Slot} {np : Slot}
  {f : Private.Proc → Private.Proc} {x : ProcState} {y : Option Slot}

theorem Family.modify (h : Family a st par) (hf : Member (f (a.procs i)) x y) :
    Family (a.modify i f) (Function.update st i x) (Function.update par i y) := by
  refine ⟨fun j => ?_, h.initproc⟩
  unfold Private.Sys.modify
  by_cases hj : j = i
  · subst hj
    simp only [Function.update_self]
    exact hf
  · simp only [Function.update_of_ne hj]
    exact h.member j

/-- A system call of a member that leaves it unmarked. -/
theorem Family.syscall (h : Family a st par) {body : Private.Sys → Except Halt Private.Sys}
    {a' : Private.Sys} (hbody : body a = .ok a') (hk : (a'.procs p).killed = false) :
    Private.syscall p body a = .ok a' := by
  rw [Private.syscall, (h.member p).killed, if_neg Bool.false_ne_true, hbody]
  show Private.exitIfKilled p a' = _
  rw [Private.exitIfKilled, hk, if_neg Bool.false_ne_true]

/-- The private machine after a fork of `p` into the slot `np`. -/
def forked (a : Private.Sys) (p np : Slot) : Private.Sys :=
  { a.modify np ((a.procs p).copy p a.nextpid) with nextpid := a.nextpid + 1#32 }

theorem forked_procs_self (a : Private.Sys) (p np : Slot) :
    (forked a p np).procs np = (a.procs p).copy p a.nextpid (a.procs np) := Function.update_self ..

theorem forked_procs_of_ne (a : Private.Sys) (p : Slot) (h : i ≠ np) : (forked a p np).procs i = a.procs i :=
  Function.update_of_ne h _ _

theorem Family.fork_eq (p np : Slot) (h : Family a st par) (hp : st p = .runnable)
    (hnp : (List.finRange NPROC).find? (fun i => st i = .unused) = some np) :
    Private.step a (.fork p) = .ok (forked a p np) ∧
      Family (forked a p np) (Function.update st np .runnable) (Function.update par np (some p)) := by
  have hlive : st p ≠ .unused := by simp [hp]
  have hfull : ¬ ∃ v : Page, v.toNat < pagesBelow (a.procs p).sz ∧ (a.procs p).page v = none := by
    rintro ⟨v, hv, hnone⟩
    rw [(h.member p).sz hlive, show pagesBelow 4096#32 = 1 by decide, Nat.lt_one_iff] at hv
    rw [show v = 0#20 from BitVec.eq_of_toNat_eq hv] at hnone
    exact (h.member p).page hlive hnone
  have hchild : Member ((a.procs p).copy p a.nextpid (a.procs np)) .runnable (some p) := by
    refine ⟨rfl, rfl, (h.member np).killed, fun _ => (h.member p).sz hlive, fun _ => ?_⟩
    show (if (0#20 : Page).toNat < pagesBelow (a.procs p).sz then (a.procs p).page 0#20 else none) ≠ none
    rw [(h.member p).sz hlive, if_pos (by decide)]
    exact (h.member p).page hlive
  have hfam := h.modify hchild
  refine ⟨?_, hfam.member, hfam.initproc⟩
  have hfind : ((List.finRange NPROC).find? fun i => (a.procs i).state = .unused) = some np := by
    simp only [(h.member _).state, hnp]
  unfold Private.step
  rw [if_neg (by rw [show (MemEvent.fork p).proc = p from rfl, (h.member p).state, hp]; simp)]
  refine h.syscall ?_ (hfam.member p).killed
  unfold Private.fork
  rw [hfind]
  simp only
  rw [if_neg hfull]
  rfl

theorem Family.fork (h : Family a st par) (hp : st p = .runnable)
    (hnp : (List.finRange NPROC).find? (fun i => st i = .unused) = some np) :
    ∃ a', Private.step a (.fork p) = .ok a' ∧
      Family a' (Function.update st np .runnable) (Function.update par np (some p)) :=
  ⟨_, h.fork_eq p np hp hnp⟩

/-- The private machine after a store of `p` at address 0, in the page with the words `d`. -/
def stored (a : Private.Sys) (p : Slot) (d : PageData) (b : Byte) : Private.Sys :=
  a.modify p fun q => { q with page := Function.update q.page 0#20 (some (setByte d 0#12 b)) }

theorem stored_page_self (a : Private.Sys) (p : Slot) (d : PageData) (b : Byte) :
    ((stored a p d b).procs p).page 0#20 = some (setByte d 0#12 b) := by
  unfold stored Private.Sys.modify
  simp only [Function.update_self]

theorem stored_procs_of_ne (a : Private.Sys) (d : PageData) (b : Byte) (h : i ≠ p) :
    (stored a p d b).procs i = a.procs i := Function.update_of_ne h _ _

theorem Family.store_eq (h : Family a st par) (hp : st p = .runnable) {d : PageData}
    (hd : (a.procs p).page 0#20 = some d) (b : Byte) :
    Private.step a (.store p 0#32 b) = .ok (stored a p d b) ∧ Family (stored a p d b) st par := by
  have hfam := h.modify (i := p) (x := st p) (y := par p)
    (f := fun q => { q with page := Function.update q.page 0#20 (some (setByte d 0#12 b)) })
    ⟨(h.member p).state, (h.member p).parent, (h.member p).killed, (h.member p).sz,
      fun _ => by simp⟩
  rw [Function.update_eq_self, Function.update_eq_self] at hfam
  refine ⟨?_, hfam⟩
  unfold Private.step
  rw [if_neg (by rw [show (MemEvent.store p 0#32 b).proc = p from rfl, (h.member p).state, hp]; simp)]
  show Private.store p 0#32 b a = _
  unfold Private.store
  rw [show pageOf 0#32 = 0#20 by decide, hd]
  rfl

theorem Family.store (h : Family a st par) (hp : st p = .runnable) (b : Byte) :
    ∃ a', Private.step a (.store p 0#32 b) = .ok a' ∧ Family a' st par := by
  obtain ⟨d, hd⟩ := Option.ne_none_iff_exists'.1 ((h.member p).page (by simp [hp]))
  exact ⟨_, h.store_eq hp hd b⟩

theorem Family.load_eq (h : Family a st par) (hp : st p = .runnable) {d : PageData}
    (hd : (a.procs p).page 0#20 = some d) :
    Private.step a (.load p 0#32) = .ok { a with loads := a.loads ++ [getByte d 0#12] } ∧
      Family { a with loads := a.loads ++ [getByte d 0#12] } st par := by
  refine ⟨?_, h.member, h.initproc⟩
  unfold Private.step
  rw [if_neg (by rw [show (MemEvent.load p 0#32).proc = p from rfl, (h.member p).state, hp]; simp)]
  show Private.load p 0#32 a = _
  unfold Private.load
  rw [show pageOf 0#32 = 0#20 by decide, hd]
  rfl

theorem Family.load (h : Family a st par) (hp : st p = .runnable) :
    ∃ a', Private.step a (.load p 0#32) = .ok a' ∧ Family a' st par := by
  obtain ⟨d, hd⟩ := Option.ne_none_iff_exists'.1 ((h.member p).page (by simp [hp]))
  exact ⟨_, h.load_eq hp hd⟩

theorem Family.exit (h : Family a st par) (hp : st p = .runnable) (hinit : p ≠ initSlot) :
    ∃ a', Private.step a (.exit p) = .ok a' ∧ Family a' (Function.update st p .zombie)
      (fun i => if par i = some p then some initSlot else par i) := by
  have hparent : ∀ i, Member (if (a.procs i).parent = some p then
      { a.procs i with parent := some initSlot } else a.procs i) (st i)
      (if par i = some p then some initSlot else par i) := by
    intro i
    have hi := h.member i
    rw [hi.parent]
    split_ifs
    · exact ⟨hi.state, rfl, hi.killed, hi.sz, hi.page⟩
    · exact hi
  have hfam : Family { a with procs := fun i => if (a.procs i).parent = some p then
      { a.procs i with parent := some initSlot } else a.procs i } st
      (fun i => if par i = some p then some initSlot else par i) := ⟨hparent, h.initproc⟩
  have hlive : st p ≠ .unused := by simp [hp]
  have hzombie := hfam.modify (i := p) (x := .zombie) (y := if par p = some p then some initSlot else par p)
    (f := fun q => { q with state := .zombie })
    ⟨rfl, (hparent p).parent, (hparent p).killed, fun _ => (hparent p).sz hlive,
      fun _ => (hparent p).page hlive⟩
  rw [show Function.update (fun i => if par i = some p then some initSlot else par i) p
    (if par p = some p then some initSlot else par p) =
    fun i => if par i = some p then some initSlot else par i from
      Function.update_eq_self p fun i => if par i = some p then some initSlot else par i] at hzombie
  refine ⟨_, ?_, hzombie⟩
  unfold Private.step
  rw [if_neg (by rw [show (MemEvent.exit p).proc = p from rfl, (h.member p).state, hp]; simp)]
  show Private.exit p a = _
  unfold Private.exit
  rw [h.initproc, if_neg hinit]

theorem Family.wait (h : Family a st par) (hp : st p = .runnable)
    (hi : (List.finRange NPROC).find? (fun i => par i = some p ∧ st i = .zombie) = some i) :
    ∃ a', Private.step a (.wait p) = .ok a' ∧
      Family a' (Function.update st i .unused) (Function.update par i none) := by
  have hfam := h.modify (i := i) (x := .unused) (y := none) (f := fun q =>
      { q with state := .unused, pid := 0#32, parent := none, killed := false, page := fun _ => none })
    ⟨rfl, rfl, rfl, fun hx => absurd rfl hx, fun hx => absurd rfl hx⟩
  refine ⟨_, ?_, hfam⟩
  have hfind : ((List.finRange NPROC).find? fun i =>
      (a.procs i).parent = some p ∧ (a.procs i).state = .zombie) = some i := by
    simp only [(h.member _).state, (h.member _).parent, hi]
  unfold Private.step
  rw [if_neg (by rw [show (MemEvent.wait p).proc = p from rfl, (h.member p).state, hp]; simp)]
  refine h.syscall ?_ (hfam.member p).killed
  unfold Private.wait
  rw [hfind]

/-- A state of the kernel with a family of processes and memory for at least four of them. -/
structure Running (L : Layout) (eager : Bool) (leak : Set Page) (s : Sys) (use : Page → Use) (st : Slot → ProcState)
    (par : Slot → Option Slot) : Prop where
  inv : Inv L 0#32 eager leak s use
  oom : s.mem.oom = false
  family : Family (abs s) st par
  leak_le : leak.ncard ≤ 1
  room : 725 ≤ {g | use g ≠ .reserved}.ncard

theorem Running.live_iff (h : Running L eager leak s use st par) : Live s i ↔ st i ≠ .unused := by
  unfold Live
  rw [← (h.family.member i).state, abs_state]

theorem Running.freeCount_le (h : Running L eager leak s use st par)
    (hfew : (Finset.univ.filter fun i => st i ≠ .unused).card ≤ 4) : 15 ≤ freeCount use := by
  have hlive : liveCount s ≤ 4 := by
    have hset : {i | Live s i} = ((Finset.univ.filter fun i => st i ≠ .unused : Finset Slot) : Set Slot) := by
      ext i
      simp [h.live_iff]
    unfold liveCount
    rwa [hset, Set.ncard_coe_finset]
  have := h.inv.count
  have := h.inv.userCount_le
  have := h.leak_le
  have := h.room
  omega

/-- No member of the family has been killed. -/
theorem Running.withoutTraps_eq (h : Running L eager leak s use st par) (e : MemEvent) : withoutTraps s e = e := by
  cases e with
  | store p va b =>
    rw [withoutTraps_store, if_neg]
    rintro ⟨hk, -⟩
    rw [← abs_killed, (h.family.member p).killed] at hk
    cases hk
  | _ => rfl

/-- An event that succeeds with private pages, with the result that it has there. -/
theorem Running.stepWith (hcopy : CopySpec L 0#32 eager copy) (hafford : Affordable L 0#32 eager copy)
    (h : Running L eager leak s use st par) (hfew : (Finset.univ.filter fun i => st i ≠ .unused).card ≤ 4)
    {e : MemEvent} (he : ∀ p n, e ≠ .sbrk p n) {st' : Slot → ProcState} {par' : Slot → Option Slot}
    (ha : Private.step (abs s) e = .ok a) (hfam : Family a st' par') :
    ∃ s' use', memStep L copy s e = .ok s' ∧ Running L eager leak s' use' st' par' ∧
      Touches e.touched e.written s use s' use' ∧ abs s' = a := by
  have hone : ∀ i, Live s i → pagesBelow (s.procs i).sz ≤ 1 := by
    intro i hi
    rw [← abs_sz, (h.family.member i).sz (h.live_iff.1 hi)]
    decide
  obtain ⟨s', use', hs', hoom, hinv, htouch, rfl⟩ := h.inv.memStep_ok hcopy hafford (fun _ => hone)
    (h.freeCount_le hfew) h.oom he (by rw [h.withoutTraps_eq]; exact ha)
  refine ⟨s', use', hs', ⟨hinv, hoom, hfam, h.leak_le, ?_⟩, htouch, rfl⟩
  simp only [Ne, htouch.reserved]
  exact h.room

theorem Running.step (h : Running L false leak s use st par)
    (hfew : (Finset.univ.filter fun i => st i ≠ .unused).card ≤ 4) {e : MemEvent}
    (he : ∀ p n, e ≠ .sbrk p n) {st' : Slot → ProcState} {par' : Slot → Option Slot}
    (ha : ∃ a, Private.step (abs s) e = .ok a ∧ Family a st' par') :
    ∃ s' use', memStep L cowuvm s e = .ok s' ∧ Running L false leak s' use' st' par' ∧
      Touches e.touched e.written s use s' use' := by
  obtain ⟨a, ha, hfam⟩ := ha
  obtain ⟨s', use', hs', h', htouch, -⟩ := h.stepWith copySpec_cowuvm affordable_cowuvm hfew he ha hfam
  exact ⟨s', use', hs', h', htouch⟩

/-- A kernel that copies every page keeps the invariant of both. -/
theorem Running.of_eager (h : Running L true leak s use st par) : Running L false leak s use st par :=
  ⟨h.inv.of_eager false, h.oom, h.family, h.leak_le, h.room⟩

/-- The states of the processes after the start of the kernel. -/
def initStates : Slot → ProcState := Function.update (fun _ => .unused) initSlot .runnable

theorem Booted.running {init : List Byte} {f₀ : Page} (h : Booted L init s use f₀)
    (hroom : L.kend.toNat ≤ 3000) : Running L true {f₀} s use initStates fun _ => none := by
  have hlive : Live s initSlot := by
    unfold Live
    rw [h.first]
    simp
  refine ⟨h.inv, h.oom, ⟨fun i => ?_, h.initproc⟩, by rw [Set.ncard_singleton], ?_⟩
  · unfold initStates
    by_cases hi : i = initSlot
    · subst hi
      rw [Function.update_self]
      refine ⟨by rw [abs_state, h.first], by rw [abs_parent, h.first], by rw [abs_killed, h.first],
        fun _ => by rw [abs_sz, h.first], fun _ => ?_⟩
      rw [abs_page h.inv hlive]
      obtain ⟨f, hf, -⟩ := h.page
      rw [Ne, view_eq_none_iff, hf]
      simp
    · rw [Function.update_of_ne hi]
      have hz := h.procs i hi
      exact ⟨by rw [abs_state, hz]; rfl, by rw [abs_parent, hz]; rfl, by rw [abs_killed, hz]; rfl,
        fun hx => absurd rfl hx, fun hx => absurd rfl hx⟩
  · have := h.inv.count
    have := h.room
    omega

/-- A kernel of 300 pages. -/
def smallLayout : Layout :=
  { data := 257#20, kend := 300#20, text_lt := by decide, data_le := by decide, kend_lt := by decide }

/-- The slots of the second and third process. -/
def slotA : Slot := ⟨1, by decide⟩
def slotB : Slot := ⟨2, by decide⟩

/-- Memory that is all zero. -/
def blankRam : Page → PageData := fun _ _ => 0#32

/-- The kernel starts with an empty initial program. -/
theorem exists_boot_running : ∃ s use f₀, boot smallLayout blankRam [] = .ok s ∧
    Booted smallLayout [] s use f₀ ∧ Running smallLayout false {f₀} s use initStates fun _ => none := by
  obtain ⟨e, -, hx | hx⟩ | ⟨s, use, f₀, hs, hb⟩ := boot_cases smallLayout blankRam []
  · exact absurd hx (by decide)
  · exact absurd hx (by decide)
  · exact ⟨s, use, f₀, hs, hb, (hb.running (by decide)).of_eager⟩

end SystemsProjects.Cow
