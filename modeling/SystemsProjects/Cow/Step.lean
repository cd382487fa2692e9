import SystemsProjects.Cow.Calls
import SystemsProjects.Cow.Fork

/-!
# Events

Every event of a process keeps the invariant and does to the private pages what it should
(`Inv.memStep_follows`).  The one difference is a store of a process that has been killed: where the
page is shared, the store traps and the process exits there, as it would at a timer interrupt.
-/

namespace SystemsProjects.Cow

open Sharing

variable {L : Layout} {lost : Word} {leak : Set Page} {eager : Bool} {s s' : Sys} {m m' : Mem}
  {use use' : Page → Use} {p i : Slot} {n : Word} {K W : Set (Slot × Page)} {fails : Prop}
  {copy : CopyFn}

/-- The event of the kernel with private pages that has the same effect: a trap for a shared page
makes a killed process exit. -/
def withoutTraps (s : Sys) : MemEvent → MemEvent
  | .store p va b =>
    if (s.procs p).killed = true ∧ Trapped s p va then .interrupt p else .store p va b
  | e => e

theorem withoutTraps_store (s : Sys) (p : Slot) (va : Word) (b : Byte) :
    withoutTraps s (.store p va b) =
      if (s.procs p).killed = true ∧ Trapped s p va then .interrupt p else .store p va b := rfl

/-- The pages that may get another frame in an event. -/
def MemEvent.touched : MemEvent → Set (Slot × Page)
  | .store p va _ => {(p, pageOf va)}
  | .sbrk p _ => pagesOf p
  | _ => ∅

/-- The pages that are written in an event. -/
def MemEvent.written : MemEvent → Set (Slot × Page)
  | .store p va _ => {(p, pageOf va)}
  | _ => ∅

/-- `kalloc` fails inside `cowHandler`. -/
def MemEvent.Fails (s : Sys) : MemEvent → Prop
  | .store p va _ => HandlerFails s p va
  | _ => False

/-- A system call of a process. -/
theorem Inv.syscall_follows (h : Inv L lost eager leak s use) (hp : Live s p)
    {body : Sys → Except Halt Sys} {abody : Private.Sys → Except Halt Private.Sys}
    (hbody : Follows L lost eager leak s use K ∅ fails (body s) (abody (abs s)))
    (hkilled : ∀ s', body s = .ok s' → (s'.procs p).killed = (s.procs p).killed) :
    Follows L lost eager leak s use K ∅ fails (syscall p body s) (Private.syscall p abody (abs s)) := by
  unfold syscall Private.syscall
  rw [abs_killed]
  by_cases hk : (s.procs p).killed = true
  · rw [if_pos hk, if_pos hk]
    exact h.exit_follows hp CanWrite.empty
  · rw [if_neg hk, if_neg hk]
    refine hbody.bind_exit fun s' hs' => ?_
    rw [hkilled s' hs']
    simpa using hk

theorem fork_killed (hp : Live s p) (h : fork L copy p s = .ok s') :
    (s'.procs p).killed = (s.procs p).killed := by
  cases hfind : (List.finRange NPROC).find? fun i => (s.procs i).state = .unused with
  | none =>
    rw [fork_of_no_slot hfind] at h
    rw [← Except.ok.inj h]
  | some np =>
    have hne : p ≠ np := by
      rintro rfl
      exact hp (find_unused hfind)
    cases hk : kalloc s.mem with
    | mk k m =>
      cases k with
      | none =>
        rw [fork_of_no_page hfind hk] at h
        obtain rfl := Except.ok.inj h
        exact congrArg Proc.killed (Function.update_of_ne hne _ _)
      | some k =>
        rw [fork_eq hfind hp hk] at h
        cases hcopy : copy L (s.procs p).pgdir (s.procs p).sz m with
        | error e =>
          rw [hcopy] at h
          cases h
        | ok r =>
          obtain ⟨d, m'⟩ := r
          rw [hcopy] at h
          cases d with
          | none =>
            cases hfree : kfree L k m' with
            | error e =>
              simp only [Except.bind, hfree] at h
              cases h
            | ok m'' =>
              simp only [Except.bind, hfree, Except.map, Except.ok.injEq] at h
              subst h
              simp only [withoutChild, Function.update_of_ne hne]
          | some d =>
            simp only [Except.bind, Except.ok.injEq] at h
            subst h
            rw [withChild_procs_of_ne hne]

theorem withSize_killed (s : Sys) (p i : Slot) (r : Word × Mem) :
    ((withSize s p r).procs i).killed = (s.procs i).killed := by
  unfold withSize
  split_ifs
  · rfl
  · by_cases hi : i = p
    · simp [Sys.modify, hi]
    · simp [Sys.modify, Function.update_of_ne hi]

theorem growproc_killed (h : growproc L p n s = .ok s') :
    (s'.procs p).killed = (s.procs p).killed := by
  have hmap : ∀ r : Except Halt (Word × Mem), r.map (withSize s p) = .ok s' →
      (s'.procs p).killed = (s.procs p).killed := by
    intro r hr
    cases r with
    | error e => cases hr
    | ok r =>
      rw [← Except.ok.inj hr]
      exact withSize_killed s p p r
  unfold growproc at h
  simp only at h
  split_ifs at h
  · exact hmap _ h
  · exact hmap _ h
  · rw [← Except.ok.inj h]

theorem wait_killed (hp : (s.procs p).state = .runnable) (h : wait L p s = .ok s') :
    (s'.procs p).killed = (s.procs p).killed := by
  unfold wait at h
  cases hfind : (List.finRange NPROC).find? fun i =>
      (s.procs i).parent = some p ∧ (s.procs i).state = .zombie with
  | none =>
    rw [hfind] at h
    simp only at h
    split_ifs at h
    rw [← Except.ok.inj h]
  | some i =>
    have hzombie : (s.procs i).parent = some p ∧ (s.procs i).state = .zombie := by
      simpa using List.find?_some hfind
    have hpi : p ≠ i := by
      rintro rfl
      rw [hp] at hzombie
      cases hzombie.2
    rw [hfind] at h
    simp only at h
    cases hk : kfree L (s.procs i).kstack s.mem with
    | error e =>
      rw [hk] at h
      cases h
    | ok m =>
      rw [hk] at h
      cases hf : freevm L (s.procs i).pgdir m with
      | error e =>
        simp only [Except.bind, hf] at h
        cases h
      | ok m' =>
        simp only [Except.bind, hf, Except.map, Except.ok.injEq] at h
        subst h
        simp [Sys.modify, Function.update_of_ne hpi]

/-- One event: the invariant is kept, and the private pages change as they should. -/
theorem Inv.memStep_follows (hcopy : CopySpec L lost eager copy) (h : Inv L lost eager leak s use)
    (e : MemEvent) :
    Follows L lost eager leak s use e.touched e.written (e.Fails s) (memStep L copy s e)
      (Private.step (abs s) (withoutTraps s e)) := by
  have hproc : (withoutTraps s e).proc = e.proc := by
    cases e with
    | store p va b =>
      rw [withoutTraps_store]
      split_ifs <;> rfl
    | _ => rfl
  unfold memStep Private.step
  rw [hproc, abs_state]
  by_cases hrun : (s.procs e.proc).state = .runnable
  · have hp : Live s e.proc := live_of_runnable hrun
    rw [if_neg (not_not.2 hrun), if_neg (not_not.2 hrun)]
    cases e with
    | load p va => exact h.load_follows hp
    | store p va b =>
      have hp' : Live s p := hp
      have hstore : Follows L lost eager leak s use {(p, pageOf va)} {(p, pageOf va)}
          (HandlerFails s p va) (store p va b s) _ := h.store_follows hp' b
      rw [withoutTraps_store]
      by_cases ht : (s.procs p).killed = true ∧ Trapped s p va
      · rw [if_pos ht] at hstore ⊢
        exact hstore
      · rw [if_neg ht] at hstore ⊢
        exact hstore
    | fork p => exact h.syscall_follows hp (h.fork_follows hcopy hp) fun s' hs' => fork_killed hp hs'
    | sbrk p n => exact h.syscall_follows hp (h.growproc_follows hp) fun s' hs' => growproc_killed hs'
    | exit p => exact h.exit_follows hp CanWrite.empty
    | wait p => exact h.syscall_follows hp h.wait_follows fun s' hs' => wait_killed hrun hs'
    | interrupt p => exact h.exitIfKilled_follows hp CanWrite.empty
  · rw [if_pos hrun, if_pos hrun]
    exact Or.inr ⟨_, rfl⟩

/-! ## Runs -/

/-- A run of the kernel; it ends with the first call of `kalloc` that fails. -/
def run (L : Layout) (copy : CopyFn) : Sys → List MemEvent → Except Halt Sys
  | s, [] => .ok s
  | s, e :: es =>
    (memStep L copy s e).bind fun s => if s.mem.oom then .error .outOfMemory else run L copy s es

theorem run_cons {e : MemEvent} {es : List MemEvent} (h : memStep L copy s e = .ok s')
    (hoom : s'.mem.oom = false) : run L copy s (e :: es) = run L copy s' es := by
  rw [run, h]
  show (if s'.mem.oom then _ else _) = _
  rw [hoom, if_neg Bool.false_ne_true]

end SystemsProjects.Cow
