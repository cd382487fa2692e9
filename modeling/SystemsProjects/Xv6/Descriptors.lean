import SystemsProjects.Xv6.Sysfile

/-!
# What a descriptor refers to

In every run from `boot` no system call runs into a `panic` of the file table, into a page that has been freed
or into an inode without a reference; when no system call is under way the counts are exactly the
descriptors; and a descriptor refers to the same file until its own process changes that.
-/

namespace SystemsProjects.Xv6.Files

open Ledger

/-! ## What the others see -/

/-- What a step of the process `i` leaves to the others: themselves, their files and the inodes in use. -/
structure Frame (s : State) (i : Slot) (s' : State) : Prop where
  touches : Touches s s' i
  others : ∀ j, j ≠ i → (s.proc j).state = .runnable → s'.proc j = s.proc j
  inodes : ∀ ip, 0 < (s.inode ip).ref → (s'.inode ip).dev = (s.inode ip).dev ∧ (s'.inode ip).inum = (s.inode ip).inum

namespace Frame

variable {s s' : State} {i : Slot}

/-- A step that changes no file. -/
theorem of_file_eq (hfile : s'.file = s.file)
    (hothers : ∀ j, j ≠ i → (s.proc j).state = .runnable → s'.proc j = s.proc j)
    (hinodes : ∀ ip, 0 < (s.inode ip).ref →
      (s'.inode ip).dev = (s.inode ip).dev ∧ (s'.inode ip).inum = (s.inode ip).inum) : Frame s i s' :=
  ⟨fun f => Or.inl (by rw [hfile]; exact File.Stable.refl _), hothers, hinodes⟩

theorem refl (s : State) (i : Slot) : Frame s i s := of_file_eq rfl (fun _ _ _ => rfl) fun _ _ => ⟨rfl, rfl⟩

theorem crash (s : State) (i : Slot) (x : Fault) : Frame s i (s.crash x) :=
  of_file_eq rfl (fun _ _ _ => rfl) fun _ _ => ⟨rfl, rfl⟩

/-- A step that changes only the process. -/
theorem setProc (s : State) (i : Slot) (p : Proc) : Frame s i (s.setProc i p) :=
  of_file_eq rfl (fun _ hj _ => Function.update_of_ne hj _ _) fun _ _ => ⟨rfl, rfl⟩

/-- A step that changes one file and the process. -/
theorem setFile {f : FileRef} {x : File} {p : Proc}
    (htouch : (s.file f).Stable x ∨ (s.file f).ref = 0 ∨ (.file f ∈ (s.proc i).tokens ∧ (s.file f).ref = 1)) :
    Frame s i ((s.setFile f x).setProc i p) := by
  refine ⟨fun g => ?_, fun _ hj _ => Function.update_of_ne hj _ _, fun _ _ => ⟨rfl, rfl⟩⟩
  by_cases hg : g = f
  · subst hg
    rw [State.file_setProc, State.file_setFile_self]
    exact htouch
  · rw [State.file_setProc, State.file_setFile_of_ne _ hg]
    exact Or.inl (File.Stable.refl _)

/-- A step that changes the reference count of an inode, and the process. -/
theorem setInode {ip : IRef} {x : Inode} {p : Proc}
    (hx : 0 < (s.inode ip).ref → x.dev = (s.inode ip).dev ∧ x.inum = (s.inode ip).inum) :
    Frame s i ((s.setInode ip x).setProc i p) := by
  refine of_file_eq rfl (fun _ hj _ => Function.update_of_ne hj _ _) fun jp hpos => ?_
  by_cases hj : jp = ip
  · subst hj
    rw [show ((s.setInode jp x).setProc i p).inode jp = x from Function.update_self ..]
    exact hx hpos
  · rw [show ((s.setInode ip x).setProc i p).inode jp = s.inode jp from Function.update_of_ne hj _ _]
    exact ⟨rfl, rfl⟩

variable {pt : Point}

theorem setPage (s : State) (i : Slot) (p : Page) (x : Option Pipe) (q : Proc) :
    Frame s i ((s.setPage p x).setProc i q) :=
  of_file_eq rfl (fun _ hj _ => Function.update_of_ne hj _ _) fun _ _ => ⟨rfl, rfl⟩

theorem iput (s : State) (i : Slot) (ip : IRef) (cs : List Closing) : Frame s i (s.iput i ip cs) := by
  rw [State.iput]
  split_ifs
  · exact crash s i _
  · exact setInode fun _ => ⟨rfl, rfl⟩

theorem close {c : Closing} {cs : List Closing} (hc : (s.proc i).closing = c :: cs) :
    Frame s i (s.close i cs c) := by
  cases c with
  | fileclose f =>
    have hmem : Token.file f ∈ (s.proc i).tokens :=
      Proc.mem_tokens_of_closing hc (by rw [Closing.tokens, Multiset.mem_singleton])
    rw [State.close, State.fileclose]
    split_ifs with hzero hlast
    · exact crash s i _
    · refine setFile (Or.inl ⟨rfl, rfl, rfl, rfl, rfl, fun hfresh => ?_⟩)
      have hdrop : (s.file f).drop.ref = (s.file f).ref - 1 := rfl
      have := hfresh.1
      omega
    · refine setFile (Or.inr (Or.inr ⟨hmem, ?_⟩))
      have hdrop : (s.file f).drop.ref = (s.file f).ref - 1 := rfl
      omega
  | last ff =>
    rw [State.close]
    cases ff.type with
    | pipe =>
      simp only [State.pipeclose]
      cases s.page ff.pipe with
      | none => exact crash s i _
      | some x => exact setPage s i ff.pipe _ _
    | inode => exact iput s i ff.ip cs
    | none => exact setProc s i _
  | kfree p =>
    rw [State.close, State.kfree]
    cases s.page p with
    | none => exact crash s i _
    | some x => exact setPage s i p _ _
  | iput ip => exact iput s i ip cs

theorem iget (s : State) (i : Slot) (dev inum : BitVec 32) (k : IRef → Point) :
    Frame s i (s.iget dev inum fun ip s => s.goto i (k ip)) := by
  rw [State.iget]
  cases hloop : igetLoop s.inode dev inum none (List.finRange NINODE) with
  | inl ip => exact setInode fun _ => ⟨rfl, rfl⟩
  | inr r =>
    have hzero := (Inv.igetLoop_inr (by simp) hloop).1
    cases r with
    | none => exact crash s i _
    | some ip =>
      refine setInode fun hpos => ?_
      have := hzero ip rfl
      omega

theorem fileIo (s : State) (i : Slot) (n : ℤ) (allowed : File → Bool) (text : String) :
    Frame s i (s.fileIo i n allowed text) := by
  rw [State.fileIo]
  cases argfd (s.proc i).ofile n with
  | none => exact setProc s i _
  | some q =>
    simp only
    split_ifs
    · exact setProc s i _
    · cases (s.file q.2).type with
      | none => exact crash s i _
      | _ => exact setProc s i _

/-- Two processes change, one of which does not run. -/
theorem of_idle {s' : State} {np : Slot} (hnp : (s.proc np).state ≠ .runnable) (hfile : s'.file = s.file)
    (hinode : s'.inode = s.inode) (hproc : ∀ j, j ≠ i → j ≠ np → s'.proc j = s.proc j) : Frame s i s' := by
  refine of_file_eq hfile (fun j hj hrun => hproc j hj ?_) fun ip _ => by rw [hinode]; exact ⟨rfl, rfl⟩
  rintro rfl
  exact hnp hrun

theorem call (s : State) (i : Slot) (c : Call) : Frame s i (s.call i c) := by
  cases c with
  | dup n =>
    rw [State.call]
    cases argfd (s.proc i).ofile n with
    | none => exact setProc s i _
    | some q =>
      cases fdalloc (s.proc i).ofile with
      | none => exact setProc s i _
      | some fd => exact setProc s i _
  | close n =>
    rw [State.call]
    cases argfd (s.proc i).ofile n with
    | none => exact setProc s i _
    | some q => exact setProc s i _
  | read n => exact fileIo s i n _ _
  | write n => exact fileIo s i n _ _
  | pipe => exact setProc s i _
  | open_ found omode =>
    cases found with
    | none => exact setProc s i _
    | some q => exact iget s i q.1 q.2 fun ip => .open_ ip omode
  | chdir found =>
    cases found with
    | none => exact setProc s i _
    | some q => exact iget s i q.1 q.2 fun ip => .chdir ip
  | fork kstack =>
    rw [State.call, State.fork]
    cases hnp : s.allocproc with
    | none => exact setProc s i _
    | some np =>
      have hidle : (s.proc np).state ≠ .runnable := by
        rw [Inv.allocproc_state hnp]
        simp
      cases kstack with
      | false =>
        exact of_idle hidle rfl rfl fun j hj hjnp =>
          (Function.update_of_ne hj _ _).trans (Function.update_of_ne hjnp _ _)
      | true =>
        exact of_idle hidle rfl rfl fun j hj hjnp =>
          (Function.update_of_ne hj _ _).trans (Function.update_of_ne hjnp _ _)
  | exit =>
    rw [State.call]
    split_ifs
    · exact crash s i _
    · exact setProc s i _
  | wait =>
    rw [State.call, State.wait]
    cases hj : s.zombieChild i with
    | none =>
      simp only
      split_ifs
      · exact refl s i
      · exact setProc s i _
    | some np =>
      have hidle : (s.proc np).state ≠ .runnable := by
        have := List.find?_some hj
        simp only [decide_eq_true_eq] at this
        rw [this.2]
        simp
      exact of_idle hidle rfl rfl fun j hj hjnp =>
        (Function.update_of_ne hj _ _).trans (Function.update_of_ne hjnp _ _)

theorem ilock (s : State) (i : Slot) (ip : IRef) (k : State → State) (h : Frame s i (k s)) : Frame s i (s.ilock ip k) := by
  rw [State.ilock]
  split_ifs
  · exact crash s i _
  · exact h

theorem filealloc {f : FileRef} (hf : s.filealloc = some f) (pt' : Point) :
    Frame s i ((s.setFile f (s.file f).alloc).goto i pt') := setFile (Or.inr (Or.inl (ref_of_filealloc hf)))

/-- `filedup` in `sys_dup`: the file has a type, because the descriptor that is copied has one. -/
theorem dup (h : Inv s) {f : FileRef} {fd : Fd} (hat : s.At i (.dup f fd)) (a : Answer) :
    Frame s i (s.resume i a (.dup f fd)) := by
  have hok := (h.proc i).point
  rw [hat.point] at hok
  obtain ⟨hf, fd0, hne, hfd0⟩ := hok
  have htype := (h.proc i).typed fd0 f hfd0 (by rw [hat.point]; simpa [Point.unsettled] using hne.symm)
  rw [hat.point] at htype
  rw [State.resume, State.filedup]
  split_ifs
  · exact crash s i _
  · exact setFile (Or.inl (File.stable_dup (htype.resolve_right (by simp [Point.opening]))))

/-- The child that a process is making does not run. -/
theorem child_idle (h : Inv s) {np : Slot} {k : ℕ} (hchild : (s.proc i).point.child = some (np, k)) :
    (s.proc np).state ≠ .runnable := by
  rw [(h.children.embryo i np k hchild).1]
  simp

theorem forkVm (h : Inv s) {np : Slot} (hat : s.At i (.forkVm np)) (a : Answer) :
    Frame s i (s.resume i a (.forkVm np)) := by
  have hidle := child_idle h (show (s.proc i).point.child = some (np, 0) by rw [hat.point]; rfl)
  rw [State.resume]
  split_ifs
  · exact of_idle hidle rfl rfl fun j hj hjnp =>
      (Function.update_of_ne hj _ _).trans (Function.update_of_ne hjnp _ _)
  · exact of_file_eq rfl (fun _ hj _ => Function.update_of_ne hj _ _) fun _ _ => ⟨rfl, rfl⟩

/-- The loop of `fork` and its end change the parent and the child. -/
theorem forkFd (h : Inv s) {np : Slot} {k : ℕ} (hat : s.At i (.forkFd np k)) (a : Answer) :
    Frame s i (s.resume i a (.forkFd np k)) := by
  have hidle := child_idle h (show (s.proc i).point.child = some (np, k) by rw [hat.point]; rfl)
  have hothers : ∀ {s1 : State} {p q : Proc} (j : Slot), s1.proc = s.proc → j ≠ i → (s.proc j).state = .runnable →
      ((s1.setProc np p).setProc i q).proc j = s.proc j := by
    intro s1 p q j hs1 hj hrun
    have hjnp : j ≠ np := by
      rintro rfl
      exact hidle hrun
    exact ((Function.update_of_ne hj _ _).trans (Function.update_of_ne hjnp _ _)).trans (congrFun hs1 j)
  rw [State.resume]
  split_ifs with hk
  · cases hf : (s.proc i).ofile ⟨k, hk⟩ with
    | none => exact setProc s i _
    | some f =>
      have htype := (h.proc i).type_ne (hat.settled ⟨rfl, rfl, rfl⟩) hf
      simp only [State.filedup]
      split_ifs
      · exact crash s i _
      · exact ⟨fun g => Or.inl (Inv.stable_dup htype g), fun j hj hrun => hothers j rfl hj hrun, fun _ _ => ⟨rfl, rfl⟩⟩
  · cases (s.proc i).cwd with
    | none => exact crash s i _
    | some ip =>
      refine of_file_eq rfl (fun j hj hrun => hothers j rfl hj hrun) fun jp _ => ?_
      change ((s.setInode ip (s.inode ip).dup).inode jp).dev = _ ∧ ((s.setInode ip (s.inode ip).dup).inode jp).inum = _
      by_cases hjp : jp = ip
      · subst hjp
        rw [State.inode_setInode_self]
        exact ⟨rfl, rfl⟩
      · rw [State.inode_setInode_of_ne _ hjp]
        exact ⟨rfl, rfl⟩

theorem resume (h : Inv s) (hat : s.At i pt) (a : Answer) : Frame s i (s.resume i a pt) := by
  have hok := (h.proc i).point
  rw [hat.point] at hok
  cases pt with
  | user => exact refl s i
  | dup f fd => exact dup h hat a
  | pipeIo fd p =>
    rw [State.resume]
    cases s.page p with
    | none => exact crash s i _
    | some x =>
      simp only
      split_ifs
      · exact setProc s i _
      · exact refl s i
  | inodeIo fd f => exact ilock s i _ (fun s => s.ret i [] a.moved) (setProc s i _)
  | open_ ip omode =>
    rw [State.resume]
    refine ilock s i ip _ ?_
    split_ifs
    · exact setProc s i _
    · cases hf : s.filealloc with
      | none => exact setProc s i _
      | some f => exact filealloc hf _
  | openFd ip omode f =>
    rw [State.resume]
    cases fdalloc (s.proc i).ofile with
    | none => exact setProc s i _
    | some fd => exact setProc s i _
  | openSet ip omode f fd =>
    have hmem := Proc.mem_tokens_of_entry hok.2 (by rw [hat.point]; simp [Point.unsettled])
    exact setFile (Or.inr (Or.inr ⟨hmem, hok.1.1⟩))
  | pipe0 =>
    rw [State.resume]
    cases hf : s.filealloc with
    | none => exact setProc s i _
    | some f0 => exact filealloc hf _
  | pipe1 f0 =>
    rw [State.resume]
    cases hf : s.filealloc with
    | none => exact setProc s i _
    | some f1 => exact filealloc hf _
  | pipePage f0 f1 =>
    rw [State.resume]
    cases a.page with
    | none => exact setProc s i _
    | some p => exact ⟨h.touches_fillPipe hat p _, fun _ hj _ => Function.update_of_ne hj _ _, fun _ _ => ⟨rfl, rfl⟩⟩
  | pipeFd rf wf =>
    rw [State.resume]
    cases fdalloc (s.proc i).ofile with
    | none => exact setProc s i _
    | some fd0 =>
      simp only
      cases fdalloc ((s.proc i).setFd fd0 (some rf)).ofile with
      | none => exact setProc s i _
      | some fd1 => exact setProc s i _
  | forkVm np => exact forkVm h hat a
  | forkFd np k => exact forkFd h hat a
  | exit k =>
    rw [State.resume]
    split_ifs with hk
    · cases (s.proc i).ofile ⟨k, hk⟩ with
      | none => exact setProc s i _
      | some f => exact setProc s i _
    · cases (s.proc i).cwd with
      | none => exact crash s i _
      | some ip => exact setProc s i _
  | clear fd => exact setProc s i _
  | exitCwd => exact of_file_eq rfl (fun _ hj _ => Function.update_of_ne hj _ _) fun _ _ => ⟨rfl, rfl⟩
  | chdir ip =>
    rw [State.resume]
    refine ilock s i ip _ ?_
    split_ifs
    · exact setProc s i _
    · cases (s.proc i).cwd with
      | none => exact crash s i _
      | some old => exact setProc s i _
  | setCwd ip => exact setProc s i _

theorem step (h : Inv s) {s' : State} {e : Event} (hstep : step s (i, e) = some s') : Frame s i s' := by
  rw [Files.step] at hstep
  split_ifs at hstep with hguard
  simp only [not_or] at hguard
  have hrun : (s.proc i).state = .runnable := not_not.1 hguard.2
  cases hclosing : (s.proc i).closing with
  | cons c cs =>
    cases e with
    | call c' => simp [hclosing] at hstep
    | next a =>
      simp only [hclosing, Option.some.injEq] at hstep
      exact hstep ▸ close hclosing
  | nil =>
    cases e with
    | call c =>
      cases hpt : (s.proc i).point with
      | user =>
        simp only [hclosing, hpt, Option.some.injEq] at hstep
        exact hstep ▸ call s i c
      | _ => simp [hclosing, hpt] at hstep
    | next a =>
      simp only [hclosing] at hstep
      split_ifs at hstep
      exact Option.some.inj hstep ▸ resume h ⟨hrun, hclosing, rfl⟩ a

end Frame

/-! ## Runs -/

theorem hold_boot : boot.hold = Function.update (fun _ => 0) (.inl initproc) {.inode 0} := by
  funext k
  rcases k with i | f
  · by_cases hi : i = initproc
    · subst hi
      simp [State.hold, boot, Proc.tokens, Proc.entry, Proc.cwdTokens, Proc.closingTokens, Point.leaves, Point.unsettled,
        Point.tokens]
    · simp [State.hold, boot, Proc.tokens, Proc.entry, Proc.cwdTokens, Proc.closingTokens, Point.leaves,
        Point.unsettled, Point.tokens, hi]
  · rfl

theorem inv_boot : Inv boot where
  fault := Or.inl rfl
  balanced := by
    rw [hold_boot]
    refine Balanced.update (balanced_zero (fun _ => 0) (fun _ => 0) (fun _ => rfl) fun _ => rfl) fun t => ?_
    cases t with
    | inode ip =>
      by_cases hip : ip = 0
      · subst hip
        rfl
      · simp [State.count, boot, hip]
    | _ => simp [State.count, boot, pageTokens]
  free := fun _ _ => rfl
  cached := by
    intro a b ha hb _ _
    have hzero : ∀ ip : IRef, 0 < (boot.inode ip).ref → ip = 0 := by
      intro ip hip
      by_contra hne
      simp [boot, hne] at hip
    rw [hzero a ha, hzero b hb]
  proc := by
    intro i
    by_cases hi : i = initproc
    · subst hi
      refine ⟨fun _ => ⟨rfl, rfl⟩, fun hno => ?_, fun _ => rfl, fun fd f hf => ?_, trivial⟩
      · rcases hno with hno | hno <;> cases hno
      · cases hf
    · have hboot : boot.proc i = ⟨.unused, 0, fun _ => none, none, 0, none, .user, []⟩ := if_neg hi
      rw [hboot]
      refine ⟨fun _ => ⟨rfl, rfl⟩, fun _ => ⟨fun _ => rfl, rfl⟩, fun hno => ?_, fun fd f hf => ?_, trivial⟩
      · cases hno
      · cases hf
  children := by
    have hnone : ∀ i, (boot.proc i).point.child = none := by
      intro i
      by_cases hi : i = initproc
      · subst hi
        rfl
      · rw [show boot.proc i = ⟨.unused, 0, fun _ => none, none, 0, none, .user, []⟩ from if_neg hi]
        rfl
    refine ⟨fun i np k hk => ?_, fun i j np k l hk _ => ?_⟩
    · rw [hnone] at hk
      cases hk
    · rw [hnone] at hk
      cases hk

theorem inv_of_run {s s' : State} {es : List (Slot × Event)} (h : Inv s) (hrun : Trace.run step s es = some s') : Inv s' :=
  Trace.run_invariant (P := fun _ _ => True) (fun _ _ _ hs _ hstep => hs.step hstep) h
    (Trace.along_of_forall step (fun _ _ => trivial) s es) hrun

/-- Whatever the processes do, the kernel stops only when `init` exits or `icache` is full. -/
theorem fault_of_run {s : State} {es : List (Slot × Event)} (hrun : Trace.run step boot es = some s) :
    s.fault = none ∨ s.fault = some (.panic "init exiting") ∨ s.fault = some (.panic "iget: no inodes") :=
  (inv_of_run inv_boot hrun).fault

def Event.go : Event := .next ⟨true, none, 0⟩

/-- `init` makes a pipe and forks, and the child closes the reading end. -/
def pipeAndFork : List (Slot × Event) :=
  [(0, .call .pipe), (0, .go), (0, .go), (0, .next ⟨true, some 7, 0⟩), (0, .go), (0, .call (.fork true))] ++
    List.replicate 18 (0, .go) ++ [(1, .call (.close 0)), (1, .go)]

theorem fault_of_run_pipeAndFork : ∃ s, Trace.run step boot pipeAndFork = some s ∧
    (s.fault = none ∨ s.fault = some (.panic "init exiting") ∨ s.fault = some (.panic "iget: no inodes")) := by
  have heval : (Trace.run step boot pipeAndFork).map (fun _ => ()) = some () := rfl
  obtain ⟨s, hs, -⟩ := Option.map_eq_some_iff.1 heval
  exact ⟨s, hs, fault_of_run hs⟩

/-! ## The counts between system calls -/

/-- No system call is under way. -/
def State.Quiet (s : State) : Prop := ∀ i, (s.proc i).point = .user ∧ (s.proc i).closing = []

instance (s : State) : Decidable s.Quiet := inferInstanceAs (Decidable (∀ _, _))

/-- The counts are those of the descriptors, the files and the working directories. -/
structure State.Exact (s : State) : Prop where
  ref : ∀ f, (s.file f).ref = (Finset.univ.filter fun q : Slot × Fd => (s.proc q.1).ofile q.2 = some f).card
  type : ∀ f, (s.file f).type = .none ↔ (s.file f).ref = 0
  page : ∀ p, (s.page p).isSome ↔ ∃ f, (s.file f).type = .pipe ∧ (s.file f).pipe = p
  pipeEnd : ∀ p x w, s.page p = some x → ((if w then x.writeopen else x.readopen) = true ↔
    ∃ f, (s.file f).type = .pipe ∧ (s.file f).pipe = p ∧ (s.file f).writable = w)
  inode : ∀ ip, (s.inode ip).ref = (Finset.univ.filter fun f => (s.file f).type = .inode ∧ (s.file f).ip = ip).card +
    (Finset.univ.filter fun i => (s.proc i).cwd = some ip).card

namespace Inv

variable {s : State} (h : Inv s) (hquiet : s.Quiet)

include h

/-- The tokens of a kind, those of the processes and those of the files. -/
theorem count_eq_sum (t : Token) :
    s.count t = ∑ i, (s.proc i).tokens.count t + ∑ f, (s.file f).tokens.count t := by
  rw [← h.balanced t, Fintype.sum_sum_type]
  rfl

include hquiet

omit h in
theorem count_tokens_of_quiet (i : Slot) (t : Token) :
    (s.proc i).tokens.count t = ∑ fd, (((s.proc i).ofile fd).elim (0 : Multiset Token) fun f => {.file f}).count t +
      (((s.proc i).cwd).elim (0 : Multiset Token) fun ip => {.inode ip}).count t := by
  obtain ⟨hpoint, hclosing⟩ := hquiet i
  have hpt : (s.proc i).point.tokens.count t = 0 := by
    rw [hpoint]
    exact Multiset.count_zero t
  rw [Proc.count_tokens, Proc.closingTokens_nil hclosing, hpt, Multiset.count_zero, Proc.cwdTokens, hpoint]
  simp only [Proc.entry, hpoint, Point.unsettled, Point.leaves, reduceCtorEq, if_false, Bool.false_eq_true, add_zero]

theorem ref_of_quiet (f : FileRef) :
    (s.file f).ref = (Finset.univ.filter fun q : Slot × Fd => (s.proc q.1).ofile q.2 = some f).card := by
  have hcount : (s.file f).ref = s.count (.file f) := rfl
  have hfiles : ∑ g, (s.file g).tokens.count (.file f) = 0 := Finset.sum_eq_zero fun g _ => by
    rw [File.tokens]
    cases (s.file g).type <;> simp
  rw [hcount, h.count_eq_sum, hfiles, add_zero, Finset.card_filter, Fintype.sum_prod_type]
  refine Finset.sum_congr rfl fun i _ => ?_
  have hcwd : (((s.proc i).cwd).elim (0 : Multiset Token) fun ip => {.inode ip}).count (.file f) = 0 := by
    cases (s.proc i).cwd <;> simp
  rw [count_tokens_of_quiet hquiet, hcwd, add_zero]
  refine Finset.sum_congr rfl fun fd _ => ?_
  cases hfd : (s.proc i).ofile fd with
  | none => simp
  | some g =>
    by_cases hg : g = f
    · subst hg
      simp
    · simp [hg, Ne.symm hg]

/-- Tokens that only files have. -/
theorem count_of_quiet {t : Token} (hfile : ∀ f, t ≠ .file f) (hinode : ∀ ip, t ≠ .inode ip) :
    s.count t = ∑ f, (s.file f).tokens.count t := by
  have hprocs : ∑ i, (s.proc i).tokens.count t = 0 := Finset.sum_eq_zero fun i _ => by
    rw [count_tokens_of_quiet hquiet]
    have hentries : ∑ fd, (((s.proc i).ofile fd).elim (0 : Multiset Token) fun f => {.file f}).count t = 0 :=
      Finset.sum_eq_zero fun fd _ => by cases (s.proc i).ofile fd <;> simp [hfile]
    rw [hentries]
    cases (s.proc i).cwd <;> simp [hinode]
  rw [h.count_eq_sum, hprocs, zero_add]

theorem pipeEnd_of_quiet {p : Page} {x : Pipe} (w : Bool) (hx : s.page p = some x) :
    (if w then x.writeopen else x.readopen) = true ↔
      ∃ f, (s.file f).type = .pipe ∧ (s.file f).pipe = p ∧ (s.file f).writable = w := by
  have hcount : s.count (.pipeEnd p w) = (pageTokens p (some x)).count (.pipeEnd p w) := by
    rw [State.count, hx]
  have hsum := h.count_of_quiet hquiet (t := .pipeEnd p w) (by simp) (by simp)
  have hpos : (if w then x.writeopen else x.readopen) = true ↔ 0 < s.count (.pipeEnd p w) := by
    rw [hcount]
    rcases x with ⟨_ | _, _ | _⟩ <;> cases w <;> simp [pageTokens]
  have htokens : ∀ f, 0 < (s.file f).tokens.count (.pipeEnd p w) ↔
      (s.file f).type = .pipe ∧ (s.file f).pipe = p ∧ (s.file f).writable = w := by
    intro f
    rw [Multiset.count_pos, File.tokens]
    cases (s.file f).type <;> simp [eq_comm]
  rw [hpos, hsum]
  constructor
  · intro hlt
    obtain ⟨f, -, hf⟩ := Finset.exists_ne_zero_of_sum_ne_zero (Nat.pos_iff_ne_zero.1 hlt)
    exact ⟨f, (htokens f).1 (Nat.pos_of_ne_zero hf)⟩
  · rintro ⟨f, hf⟩
    exact lt_of_lt_of_le ((htokens f).2 hf)
      (Finset.single_le_sum (f := fun f => (s.file f).tokens.count (.pipeEnd p w)) (fun _ _ => Nat.zero_le _)
        (Finset.mem_univ f))

theorem page_of_quiet (p : Page) : (s.page p).isSome ↔ ∃ f, (s.file f).type = .pipe ∧ (s.file f).pipe = p := by
  constructor
  · intro hsome
    obtain ⟨x, hx⟩ := Option.isSome_iff_exists.1 hsome
    -- a pipe with both ends closed is being freed
    have hclosed : s.count (.page p) = 0 := by
      rw [h.count_of_quiet hquiet (by simp) (by simp)]
      refine Finset.sum_eq_zero fun f _ => ?_
      rw [File.tokens]
      cases (s.file f).type <;> simp
    have hopen : ∃ w : Bool, (if w then x.writeopen else x.readopen) = true := by
      rw [State.count, hx] at hclosed
      rcases x with ⟨_ | _, _ | _⟩
      · simp [pageTokens] at hclosed
      · exact ⟨true, rfl⟩
      · exact ⟨false, rfl⟩
      · exact ⟨true, rfl⟩
    obtain ⟨w, hw⟩ := hopen
    obtain ⟨f, htype, hpipe, -⟩ := (h.pipeEnd_of_quiet hquiet w hx).1 hw
    exact ⟨f, htype, hpipe⟩
  · rintro ⟨f, htype, hpipe⟩
    have hmem : Token.pipeEnd p (s.file f).writable ∈ s.hold (.inr f) := by
      have htokens : s.hold (.inr f) = (s.file f).tokens := rfl
      rw [htokens, File.tokens, htype, hpipe]
      exact Multiset.mem_singleton_self _
    obtain ⟨x, hx, -⟩ := exists_page h hmem
    exact Option.isSome_iff_exists.2 ⟨x, hx⟩

theorem inode_of_quiet (ip : IRef) :
    (s.inode ip).ref = (Finset.univ.filter fun f => (s.file f).type = .inode ∧ (s.file f).ip = ip).card +
      (Finset.univ.filter fun i => (s.proc i).cwd = some ip).card := by
  have hfiles : ∑ f, (s.file f).tokens.count (.inode ip) =
      (Finset.univ.filter fun f => (s.file f).type = .inode ∧ (s.file f).ip = ip).card := by
    rw [Finset.card_filter]
    refine Finset.sum_congr rfl fun f _ => ?_
    rw [File.tokens]
    cases (s.file f).type <;> simp [Multiset.count_singleton, eq_comm]
  have hprocs : ∑ i, (s.proc i).tokens.count (.inode ip) =
      (Finset.univ.filter fun i => (s.proc i).cwd = some ip).card := by
    rw [Finset.card_filter]
    refine Finset.sum_congr rfl fun i _ => ?_
    have hentries : ∑ fd, (((s.proc i).ofile fd).elim (0 : Multiset Token) fun f => {.file f}).count (.inode ip) = 0 :=
      Finset.sum_eq_zero fun fd _ => by cases (s.proc i).ofile fd <;> simp
    rw [count_tokens_of_quiet hquiet, hentries, zero_add]
    cases (s.proc i).cwd <;> simp [Multiset.count_singleton, eq_comm]
  have hcount : (s.inode ip).ref = s.count (.inode ip) := rfl
  rw [hcount, h.count_eq_sum, hfiles, hprocs, add_comm]

theorem type_of_quiet (f : FileRef) : (s.file f).type = .none ↔ (s.file f).ref = 0 := by
  refine ⟨fun htype => ?_, h.free f⟩
  by_contra hne
  rw [h.ref_of_quiet hquiet, Finset.card_eq_zero, Finset.filter_eq_empty_iff] at hne
  simp only [Finset.mem_univ, forall_const, not_forall, not_not] at hne
  obtain ⟨⟨i, fd⟩, hf⟩ := hne
  exact (h.proc i).type_ne (by rw [(hquiet i).1]; exact ⟨rfl, rfl, rfl⟩) hf htype

end Inv

/-- When no system call is under way, each file has as many references as there are descriptors for it, each
inode as many as there are files and working directories, and the pipes are those that a file is open for. -/
theorem exact_of_run {s : State} {es : List (Slot × Event)} (hrun : Trace.run step boot es = some s)
    (hquiet : s.Quiet) : s.Exact where
  ref := (inv_of_run inv_boot hrun).ref_of_quiet hquiet
  type := (inv_of_run inv_boot hrun).type_of_quiet hquiet
  page := (inv_of_run inv_boot hrun).page_of_quiet hquiet
  pipeEnd := fun _ _ w hx => (inv_of_run inv_boot hrun).pipeEnd_of_quiet hquiet w hx
  inode := (inv_of_run inv_boot hrun).inode_of_quiet hquiet

theorem exact_of_run_pipeAndFork : ∃ s, Trace.run step boot pipeAndFork = some s ∧ s.Exact := by
  have heval : (Trace.run step boot pipeAndFork).map (fun s => decide s.Quiet) = some true := rfl
  obtain ⟨s, hs, hquiet⟩ := Option.map_eq_some_iff.1 heval
  exact ⟨s, hs, exact_of_run hs (of_decide_eq_true hquiet)⟩

/-! ## What a descriptor refers to -/

theorem File.Stable.trans {x y z : File} (h : x.Stable y) (h' : y.Stable z) : x.Stable z where
  type := h'.type.trans h.type
  readable := h'.readable.trans h.readable
  writable := h'.writable.trans h.writable
  pipe := h'.pipe.trans h.pipe
  ip := h'.ip.trans h.ip
  fresh := fun hx => h'.fresh (h.isFresh hx)

/-- The file is the same, and so is the inode that it is open for. -/
structure SameFile (s s' : State) (f : FileRef) : Prop where
  file : (s.file f).Stable (s'.file f)
  inode : (s.file f).type = .inode →
    (s'.inode (s.file f).ip).dev = (s.inode (s.file f).ip).dev ∧
      (s'.inode (s.file f).ip).inum = (s.inode (s.file f).ip).inum

theorem SameFile.trans {s t u : State} {f : FileRef} (h : SameFile s t f) (h' : SameFile t u f) : SameFile s u f where
  file := h.file.trans h'.file
  inode := fun htype => by
    have hu := h'.inode (h.file.type.trans htype)
    have ht := h.inode htype
    rw [h.file.ip] at hu
    exact ⟨hu.1.trans ht.1, hu.2.trans ht.2⟩

/-- What other processes do, one after the other. -/
theorem Inv.sameFile_of_run {s s' : State} {es : List (Slot × Event)} {i : Slot} {fd : Fd} {f : FileRef} (h : Inv s)
    (hrun : Trace.run Files.step s es = some s') (hothers : ∀ e ∈ es, e.1 ≠ i) (hstate : (s.proc i).state = .runnable)
    (hf : (s.proc i).ofile fd = some f) (hun : (s.proc i).point.unsettled ≠ some fd) :
    s'.proc i = s.proc i ∧ SameFile s s' f := by
  induction es generalizing s with
  | nil =>
    obtain rfl := Option.some.inj hrun
    exact ⟨rfl, File.Stable.refl _, fun _ => ⟨rfl, rfl⟩⟩
  | cons e es ih =>
    obtain ⟨t, ht, hrest⟩ := (Trace.run_cons_eq_some Files.step).1 hrun
    have hne : i ≠ e.1 := (hothers e List.mem_cons_self).symm
    have hframe := Frame.step h ht
    have hproc := hframe.others i hne hstate
    have hsame : SameFile s t f := by
      refine ⟨h.stable_of_touches hframe.touches hne (Proc.mem_tokens_of_entry hf hun), fun htype => ?_⟩
      exact hframe.inodes _ (h.inode_pos_of_file htype)
    have hrec := ih (h.step ht) hrest (fun e' he' => hothers e' (List.mem_cons_of_mem e he')) (by rw [hproc]; exact hstate)
      (by rw [hproc]; exact hf) (by rw [hproc]; exact hun)
    exact ⟨hrec.1.trans hproc, hsame.trans hrec.2⟩

/-- Whatever the other processes do, a descriptor refers to the same open file, pipe or inode, which stays
allocated. -/
theorem descriptor_of_run {s s' : State} {es es' : List (Slot × Event)} {i : Slot} {fd : Fd} {f : FileRef}
    (hrun : Trace.run step boot es = some s) (hrun' : Trace.run step s es' = some s') (hothers : ∀ e ∈ es', e.1 ≠ i)
    (hstate : (s.proc i).state = .runnable) (hf : (s.proc i).ofile fd = some f)
    (hun : (s.proc i).point.unsettled ≠ some fd) :
    (s'.proc i).ofile fd = some f ∧ SameFile s s' f ∧ 0 < (s'.file f).ref ∧
      ((s'.file f).type = .pipe → ∃ x, s'.page (s'.file f).pipe = some x ∧
        (if (s'.file f).writable then x.writeopen else x.readopen) = true) ∧
      ((s'.file f).type = .inode → 0 < (s'.inode (s'.file f).ip).ref) := by
  have h := inv_of_run inv_boot hrun
  have h' := inv_of_run h hrun'
  obtain ⟨hproc, hsame⟩ := h.sameFile_of_run hrun' hothers hstate hf hun
  have hf' : (s'.proc i).ofile fd = some f := by rw [hproc, hf]
  have hmem : Token.file f ∈ (s'.proc i).tokens := Proc.mem_tokens_of_entry hf' (by rw [hproc]; exact hun)
  refine ⟨hf', hsame, h'.ref_pos hmem, fun htype => ?_, h'.inode_pos_of_file⟩
  have hend : Token.pipeEnd (s'.file f).pipe (s'.file f).writable ∈ s'.hold (.inr f) := by
    have htokens : s'.hold (.inr f) = (s'.file f).tokens := rfl
    rw [htokens, File.tokens, htype]
    exact Multiset.mem_singleton_self _
  exact Inv.exists_page h' hend

/-- The reading end of the parent, after the child has closed the writing end too. -/
theorem descriptor_of_run_pipeAndFork : ∃ s s' f, Trace.run step boot pipeAndFork = some s ∧
    Trace.run step s [(1, .call (.close 1)), (1, .go)] = some s' ∧ (s'.proc 0).ofile 0 = some f ∧ SameFile s s' f := by
  have heval : ((Trace.run step boot pipeAndFork).bind fun s =>
      (Trace.run step s [(1, .call (.close 1)), (1, .go)]).map fun _ =>
        ((s.proc 0).state, (s.proc 0).ofile 0, (s.proc 0).point)) =
      some (.runnable, some 0, .user) := rfl
  obtain ⟨s, hs, hrest⟩ := Option.bind_eq_some_iff.1 heval
  obtain ⟨s', hs', hval⟩ := Option.map_eq_some_iff.1 hrest
  obtain ⟨hstate, hval'⟩ := Prod.mk.inj hval
  obtain ⟨hf, hpoint⟩ := Prod.mk.inj hval'
  have h := descriptor_of_run hs hs' (by decide) hstate hf (by rw [hpoint]; simp [Point.unsettled])
  exact ⟨s, s', _, hs, hs', h.1, h.2.1⟩

end SystemsProjects.Xv6.Files
