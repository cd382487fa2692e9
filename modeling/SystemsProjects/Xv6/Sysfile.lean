import SystemsProjects.Xv6.OpenFiles

/-!
# System calls

Inodes, reading and writing, and the calls that make and take away processes.  `Inv.step` says that every
step of every process keeps the invariant of `References`.
-/

namespace SystemsProjects.Xv6.Files

open Ledger

namespace Inv

variable {s s' : State} {i : Slot} {pt : Point}

/-! ## Inodes -/

/-- An inode that the loop of `iget` finds. -/
theorem igetLoop_inl {inode : IRef → Inode} {dev inum : BitVec 32} {empty : Option IRef} {l : List IRef} {ip : IRef}
    (hloop : igetLoop inode dev inum empty l = .inl ip) :
    0 < (inode ip).ref ∧ (inode ip).dev = dev ∧ (inode ip).inum = inum := by
  induction l generalizing empty with
  | nil => cases hloop
  | cons a l ih =>
    rw [igetLoop] at hloop
    split_ifs at hloop with ha
    · obtain rfl := Sum.inl.inj hloop
      exact ha
    all_goals exact ih hloop

/-- The loop of `iget` finds nothing: the empty slot is empty, and the inode is in none of the slots. -/
theorem igetLoop_inr {inode : IRef → Inode} {dev inum : BitVec 32} {empty : Option IRef} {l : List IRef}
    {r : Option IRef} (hempty : ∀ ip, empty = some ip → (inode ip).ref = 0)
    (hloop : igetLoop inode dev inum empty l = .inr r) :
    (∀ ip, r = some ip → (inode ip).ref = 0) ∧
      ∀ ip ∈ l, ¬(0 < (inode ip).ref ∧ (inode ip).dev = dev ∧ (inode ip).inum = inum) := by
  induction l generalizing empty with
  | nil =>
    obtain rfl := Sum.inr.inj hloop
    exact ⟨hempty, by simp⟩
  | cons a l ih =>
    rw [igetLoop] at hloop
    by_cases ha : 0 < (inode a).ref ∧ (inode a).dev = dev ∧ (inode a).inum = inum
    · rw [if_pos ha] at hloop
      cases hloop
    · rw [if_neg ha] at hloop
      obtain ⟨hr, hl⟩ := ih (fun ip hip => by
        split_ifs at hip with hslot
        · rw [← Option.some.inj hip]
          exact hslot.2
        · exact hempty ip hip) hloop
      exact ⟨hr, List.forall_mem_cons.2 ⟨ha, hl⟩⟩

/-- `iget` in a system call. -/
theorem iget (h : Inv s) (hat : s.At i .user) (dev inum : BitVec 32) (k : IRef → Point)
    (hun : ∀ ip, (k ip).unsettled = none) (hl : ∀ ip, (k ip).leaves = false)
    (htokens : ∀ ip, (k ip).tokens = {.inode ip}) (hok : ∀ ip file ofile, (k ip).Ok file ofile)
    (hchild : ∀ ip, (k ip).child = none) : Inv (s.iget dev inum fun ip s => s.goto i (k ip)) := by
  have hset : (s.proc i).point.Settled := hat.settled ⟨rfl, rfl, rfl⟩
  -- one more reference to an inode that has the number in `x`
  have hone : ∀ ip x, x.ref = (s.inode ip).ref + 1 → Cached (s.setInode ip x).inode →
      Inv ((s.setInode ip x).goto i (k ip)) := by
    intro ip x hx hcached
    refine h.own_of_file_eq rfl rfl rfl ?_ hcached ((h.proc i).goto hat.state hset (hok ip _ _)) (h.not_mine hat) ?_
    · intro t
      have hgoto := Proc.count_tokens_goto hset (k ip) (hun ip) (hl ip) t
      have hcount := s.count_setInode t ip x
      have hpt : (s.proc i).point.tokens.count t = 0 := by
        rw [hat.point]
        exact Multiset.count_zero t
      have hproc : (s.setInode ip x).proc = s.proc := rfl
      rw [htokens ip, hpt, Multiset.count_singleton] at hgoto
      rw [State.count_goto, hproc]
      split_ifs at hgoto hcount <;> omega
    · intro np l hk
      have hk' : (k ip).child = some (np, l) := hk
      rw [hchild] at hk'
      cases hk'
  rw [State.iget]
  cases hloop : igetLoop s.inode dev inum none (List.finRange NINODE) with
  | inl ip =>
    exact hone ip (s.inode ip).dup rfl (h.cached.update rfl rfl fun _ => (igetLoop_inl hloop).1)
  | inr r =>
    obtain ⟨hr, hnone⟩ := igetLoop_inr (by simp) hloop
    cases r with
    | none => exact h.crash (Or.inr rfl)
    | some ip =>
      exact hone ip ⟨dev, inum, 1⟩ (by rw [hr ip rfl]) (h.cached.recycle ip fun a => hnone a (List.mem_finRange a))

/-- `ilock` of an inode that the system call holds. -/
theorem ilock_eq (h : Inv s) (hat : s.At i pt) {ip : IRef} (hmem : .inode ip ∈ pt.tokens) (k : State → State) :
    s.ilock ip k = k s := by
  have hpos := h.inode_pos (Proc.mem_tokens_of_point (p := s.proc i) (by rw [hat.point]; exact hmem))
  rw [State.ilock, if_neg (by omega)]

/-! ## Reading and writing -/

theorem fileIo (h : Inv s) (hat : s.At i .user) (n : ℤ) (allowed : File → Bool) (text : String) :
    Inv (s.fileIo i n allowed text) := by
  have hret := fun v => h.ret hat ⟨rfl, rfl, rfl⟩ [] rfl v
  rw [State.fileIo]
  cases harg : argfd (s.proc i).ofile n with
  | none => exact hret (-1)
  | some q =>
    obtain ⟨fd, f⟩ := q
    have hf := ofile_of_argfd harg
    have htype := (h.proc i).type_ne (hat.settled ⟨rfl, rfl, rfl⟩) hf
    cases hallowed : allowed (s.file f) with
    | false => simpa [hallowed] using hret (-1)
    | true =>
      cases hty : (s.file f).type with
      | pipe =>
        simpa [hallowed, hty] using
          h.goto hat ⟨rfl, rfl, rfl⟩ (.pipeIo fd (s.file f).pipe) rfl rfl rfl ⟨f, hf, hty, rfl⟩ (fun np k hk => by cases hk)
      | inode =>
        simpa [hallowed, hty] using
          h.goto hat ⟨rfl, rfl, rfl⟩ (.inodeIo fd f) rfl rfl rfl ⟨hf, hty⟩ (fun np k hk => by cases hk)
      | none => exact absurd hty htype

/-- A process in `piperead` or `pipewrite` has the pipe. -/
theorem exists_page_of_pipeIo (h : Inv s) {fd : Fd} {p : Page} (hpt : (s.proc i).point = .pipeIo fd p) :
    ∃ f x, (s.proc i).ofile fd = some f ∧ (s.file f).type = .pipe ∧ (s.file f).pipe = p ∧ s.page p = some x ∧
      (if (s.file f).writable then x.writeopen else x.readopen) = true := by
  have hpoint := (h.proc i).point
  rw [hpt] at hpoint
  obtain ⟨f, hf, htype, hpipe⟩ := hpoint
  have hmem : Token.pipeEnd p (s.file f).writable ∈ s.hold (.inr f) := by
    have htokens : s.hold (.inr f) = (s.file f).tokens := rfl
    rw [htokens, File.tokens, htype, hpipe]
    exact Multiset.mem_singleton_self _
  obtain ⟨x, hx, hopen⟩ := exists_page h hmem
  exact ⟨f, x, hf, htype, hpipe, hx, hopen⟩

theorem inode_pos_of_file (h : Inv s) {f : FileRef} (htype : (s.file f).type = .inode) :
    0 < (s.inode (s.file f).ip).ref := by
  have hmem : Token.inode (s.file f).ip ∈ s.hold (.inr f) := by
    have htokens : s.hold (.inr f) = (s.file f).tokens := rfl
    rw [htokens, File.tokens, htype]
    exact Multiset.mem_singleton_self _
  exact h.balanced.pos hmem

/-! ## Processes -/

/-- A field that no reference depends on. -/
theorem congr (h : Inv s) (hfault : s'.fault = s.fault) (hfile : s'.file = s.file) (hpage : s'.page = s.page)
    (hinode : s'.inode = s.inode) (hproc : s'.proc = s.proc) : Inv s' := by
  have hhold : s'.hold = s.hold := by rw [State.hold, State.hold, hproc, hfile]
  have hcount : s'.count = s.count := by
    funext t
    cases t <;> simp [State.count, hfile, hpage, hinode]
  refine ⟨?_, ?_, ?_, ?_, ?_, ?_⟩
  · rw [hfault]
    exact h.fault
  · rw [hhold, hcount]
    exact h.balanced
  · rw [hfile]
    exact h.free
  · rw [hinode]
    exact h.cached
  · rw [hproc, hfile]
    exact h.proc
  · rw [hproc]
    exact h.children

/-- `allocproc` in `fork` and `wait` change only what no reference depends on. -/
theorem relabel (h : Inv s) {np : Slot} {p : Proc} (hnp : (s.proc np).state = .unused ∨ (s.proc np).state = .zombie)
    (hp : p.state ≠ .runnable) (hofile : p.ofile = (s.proc np).ofile) (hcwd : p.cwd = (s.proc np).cwd)
    (hpoint : p.point = (s.proc np).point) (hclosing : p.closing = (s.proc np).closing) : Inv (s.setProc np p) := by
  have hidle : (s.proc np).closing = [] ∧ (s.proc np).point = .user :=
    (h.proc np).idle (by rcases hnp with hnp | hnp <;> rw [hnp] <;> simp)
  have hbare := (h.proc np).bare hnp
  refine h.setProc ?_ ?_ (h.not_child (by rcases hnp with hnp | hnp <;> rw [hnp] <;> simp)) ?_
  · intro t
    have hcongr := Proc.count_tokens_congr (s.proc np) p (by rw [hpoint]) hofile t
    have hcwd' : p.cwdTokens = (s.proc np).cwdTokens := by rw [Proc.cwdTokens, Proc.cwdTokens, hpoint, hcwd]
    have hclosing' : p.closingTokens = (s.proc np).closingTokens := by
      rw [Proc.closingTokens, Proc.closingTokens, hclosing]
    rw [hcwd', hclosing', hpoint] at hcongr
    omega
  · refine ⟨fun _ => ⟨hclosing.trans hidle.1, hpoint.trans hidle.2⟩, fun _ => ⟨fun fd => ?_, hcwd.trans hbare.2⟩,
      fun hrun => absurd hrun hp, fun fd f hf _ => ?_, ?_⟩
    · rw [hofile]
      exact hbare.1 fd
    · rw [hofile, hbare.1 fd] at hf
      cases hf
    · rw [hpoint, hidle.2]
      trivial
  · intro q k hchild
    rw [hpoint, hidle.2] at hchild
    cases hchild

theorem ne_of_state (hat : s.At i pt) {np : Slot} (hnp : (s.proc np).state ≠ .runnable) : i ≠ np := by
  rintro rfl
  exact hnp hat.state

theorem allocproc_state {np : Slot} (hnp : s.allocproc = some np) : (s.proc np).state = .unused := by
  simpa using List.find?_some hnp

/-- A process without descriptors becomes the child of `i`. -/
theorem adopt (h : Inv s) (hat : s.At i .user) {np : Slot} (hstate : (s.proc np).state = .embryo)
    (hofile : ∀ fd, (s.proc np).ofile fd = none) (hcwd : (s.proc np).cwd = none)
    (hnone : ∀ j k, (s.proc j).point.child ≠ some (np, k)) : Inv (s.goto i (.forkVm np)) := by
  have hne : i ≠ np := ne_of_state hat (by rw [hstate]; simp)
  have hself : (s.goto i (.forkVm np)).proc i = (s.proc i).goto (.forkVm np) := Function.update_self ..
  have hother : ∀ j, j ≠ i → (s.goto i (.forkVm np)).proc j = s.proc j := fun j hj => Function.update_of_ne hj _ _
  have hset : (s.proc i).point.Settled := hat.settled ⟨rfl, rfl, rfl⟩
  refine h.of_step i h.fault ?_ (fun f => Or.inl (File.Stable.refl _)) h.free h.cached ?_ ?_
  · exact State.balanced_goto h.balanced i _ hset rfl rfl (by rw [hat.point]; rfl)
  · intro j
    by_cases hj : j = i
    · subst hj
      refine Or.inr ?_
      rw [hself]
      exact (h.proc j).goto hat.state hset trivial
    · exact Or.inl ⟨hj, hother j hj⟩
  · refine h.children.making i np 0 (fun j q k hk => ?_) ?_ fun q _ hembryo => ?_
    · by_cases hj : j = i
      · subst hj
        rw [hself] at hk
        obtain ⟨rfl, rfl⟩ := Prod.mk.inj (Option.some.inj hk)
        exact Or.inl ⟨rfl, rfl, rfl⟩
      · rw [hother j hj] at hk
        refine Or.inr ⟨hj, ?_, hk⟩
        rintro rfl
        exact hnone j k hk
    · rw [hother np hne.symm]
      exact ⟨hstate, fun fd _ => hofile fd, hcwd⟩
    · have hqi : i ≠ q := ne_of_state hat (by rw [hembryo]; simp)
      exact hother q hqi.symm

/-- After the end of `fork` the child has no parent that is making it. -/
theorem orphan (h : Inv s) {np : Slot} {k : ℕ} (hchild : (s.proc i).point.child = some (np, k))
    (cs : List Closing) (v : ℤ) : ∀ j l, ((s.ret i cs v).proc j).point.child ≠ some (np, l) := by
  intro j l hl
  by_cases hj : j = i
  · subst hj
    rw [show (s.ret j cs v).proc j = (s.proc j).ret cs v from Function.update_self ..] at hl
    cases hl
  · rw [show (s.ret i cs v).proc j = s.proc j from Function.update_of_ne hj _ _] at hl
    exact hj (h.children.parent j i np l k hl hchild)

theorem fork (h : Inv s) (hat : s.At i .user) (kstack : Bool) : Inv (s.fork i kstack) := by
  rw [State.fork]
  cases hnp : s.allocproc with
  | none => exact h.ret hat ⟨rfl, rfl, rfl⟩ [] rfl (-1)
  | some np =>
    have hstate := allocproc_state hnp
    have hne : i ≠ np := ne_of_state hat (by rw [hstate]; simp)
    have hpid : Inv s.nextPid := h.congr rfl rfl rfl rfl rfl
    cases kstack with
    | false =>
      have hset : Inv (s.nextPid.setProc np ((s.proc np).setPid s.nextpid)) :=
        hpid.relabel (Or.inl hstate) (by rw [Proc.setPid, hstate]; simp) rfl rfl rfl rfl
      exact hset.ret (hat.congr (Function.update_of_ne hne _ _)) ⟨rfl, rfl, rfl⟩ [] rfl (-1)
    | true =>
      -- the child has no descriptor, and no other parent
      have hset : Inv (s.nextPid.setProc np (((s.proc np).setPid s.nextpid).setState .embryo)) :=
        hpid.relabel (Or.inl hstate) (by simp [Proc.setState]) rfl rfl rfl rfl
      have hat' : (s.nextPid.setProc np (((s.proc np).setPid s.nextpid).setState .embryo)).At i .user :=
        hat.congr (Function.update_of_ne hne _ _)
      have hbare := (h.proc np).bare (Or.inl hstate)
      have hself : (s.nextPid.setProc np (((s.proc np).setPid s.nextpid).setState .embryo)).proc np =
          ((s.proc np).setPid s.nextpid).setState .embryo := Function.update_self ..
      refine hset.adopt hat' (by rw [hself]; rfl) (fun fd => by rw [hself]; exact hbare.1 fd)
        (by rw [hself]; exact hbare.2) ?_
      intro j k hchild
      have hold : (s.proc j).point.child = some (np, k) := by
        by_cases hj : j = np
        · subst hj
          rw [hself] at hchild
          exact hchild
        · rw [show (s.nextPid.setProc np (((s.proc np).setPid s.nextpid).setState .embryo)).proc j = s.proc j from
            Function.update_of_ne hj _ _] at hchild
          exact hchild
      exact h.not_child (by rw [hstate]; simp) j k hold

theorem wait (h : Inv s) (hat : s.At i .user) : Inv (s.wait i) := by
  rw [State.wait]
  cases hj : s.zombieChild i with
  | none =>
    simp only
    split_ifs
    · exact h
    · exact h.ret hat ⟨rfl, rfl, rfl⟩ [] rfl (-1)
  | some j =>
    have hstate : (s.proc j).state = .zombie := by
      have := List.find?_some hj
      simp only [decide_eq_true_eq] at this
      exact this.2
    have hne : i ≠ j := ne_of_state hat (by rw [hstate]; simp)
    have hset : Inv (s.setProc j (((s.proc j).setState .unused).setPid 0)) :=
      h.relabel (Or.inr hstate) (by simp [Proc.setPid, Proc.setState]) rfl rfl rfl rfl
    have hparent : Inv ((s.setProc j (((s.proc j).setState .unused).setPid 0)).setParent j none) :=
      hset.congr rfl rfl rfl rfl rfl
    exact hparent.ret (hat.congr (Function.update_of_ne hne _ _)) ⟨rfl, rfl, rfl⟩ [] rfl _

/-- `fork` when `cowuvm` fails. -/
theorem forkFail (h : Inv s) {np : Slot} (hat : s.At i (.forkVm np)) :
    Inv ((s.setProc np ((s.proc np).setState .unused)).ret i [] (-1)) := by
  have hchild : (s.proc i).point.child = some (np, 0) := by rw [hat.point]; rfl
  obtain ⟨hstate, hofile, hcwd⟩ := h.children.embryo i np 0 hchild
  have hne : i ≠ np := ne_of_state hat (by rw [hstate]; simp)
  -- the parent lets the child go first
  have hret : Inv (s.ret i [] (-1)) := h.ret hat ⟨rfl, rfl, rfl⟩ [] rfl (-1)
  have hnp : (s.ret i [] (-1)).proc np = s.proc np := Function.update_of_ne hne.symm _ _
  have horphan := h.orphan hchild [] (-1)
  have heq : (s.setProc np ((s.proc np).setState .unused)).ret i [] (-1) =
      (s.ret i [] (-1)).setProc np ((s.proc np).setState .unused) := by
    have hi : (s.setProc np ((s.proc np).setState .unused)).proc i = s.proc i := Function.update_of_ne hne _ _
    rw [State.ret, hi]
    simp only [State.setProc, State.ret]
    rw [Function.update_comm hne.symm]
  rw [heq]
  refine hret.setProc ?_ ?_ horphan ?_
  · intro t
    rw [hnp]
    rfl
  · have hidle := (h.proc np).idle (by rw [hstate]; simp)
    refine ⟨fun _ => hidle, fun _ => ⟨fun fd => hofile fd (Nat.zero_le _), hcwd⟩, fun hrun => ?_, fun fd f hf _ => ?_, ?_⟩
    · cases hrun
    · cases (hofile fd (Nat.zero_le _)).symm.trans hf
    · exact (show ((s.proc np).setState .unused).point = .user from hidle.2) ▸ trivial
  · intro q k hk
    have hidle := (h.proc np).idle (by rw [hstate]; simp)
    have hk' : (s.proc np).point.child = some (q, k) := hk
    rw [hidle.2] at hk'
    cases hk'

/-- A child that is being made gets a descriptor, and the file one more reference. -/
theorem balanced_copyFd (h : Inv s) {np : Slot} (fd : Fd) (hun : (s.proc np).point.unsettled = none)
    (hnone : (s.proc np).ofile fd = none) (f : FileRef) :
    Balanced ((s.setFile f (s.file f).dup).setProc np ((s.proc np).setFd fd (some f))).hold
      ((s.setFile f (s.file f).dup).setProc np ((s.proc np).setFd fd (some f))).count := by
  have hun' : ((s.proc np).setFd fd (some f)).point.unsettled = none := hun
  have hbefore : (s.proc np).entry fd = 0 := by
    rw [Proc.entry_of_settled (by rw [hun]; simp), hnone]
    rfl
  have hafter : ((s.proc np).setFd fd (some f)).entry fd = {.file f} := by
    rw [Proc.entry_of_settled (by rw [hun']; simp)]
    simp [Proc.setFd]
  rw [State.hold_setProc, State.hold_setFile, State.count_setProc]
  refine h.balanced.update₂ (by simp) fun t => ?_
  have hcount := Proc.count_tokens_fd (s.proc np) ((s.proc np).setFd fd (some f)) fd (Or.inl hun) (Or.inl hun')
    (fun fd' hfd' => Function.update_of_ne hfd' _ _) rfl t
  have hpt : ((s.proc np).setFd fd (some f)).point = (s.proc np).point := rfl
  have hcl : ((s.proc np).setFd fd (some f)).closingTokens = (s.proc np).closingTokens := rfl
  have hx := s.count_setFile t f (s.file f).dup
  have hdup : (s.file f).dup.ref = (s.file f).ref + 1 := rfl
  have htok : (s.file f).dup.tokens = s.hold (.inr f) := rfl
  have hhold : s.hold (.inl np) = (s.proc np).tokens := rfl
  rw [hbefore, hafter, hpt, hcl, Multiset.count_singleton, Multiset.count_zero] at hcount
  rw [htok, hhold]
  split_ifs at hx hcount <;> omega

/-- What `fork` relies on of a child that gets a descriptor. -/
theorem ok_copyFd (h : Inv s) {np : Slot} (hstate : (s.proc np).state = .embryo) (fd : Fd) {f : FileRef}
    (htype : (s.file f).type ≠ .none) : ((s.proc np).setFd fd (some f)).Ok s.file := by
  have hidle := (h.proc np).idle (by rw [hstate]; simp)
  have hstate' : ((s.proc np).setFd fd (some f)).state = .embryo := hstate
  refine ⟨fun _ => hidle, fun hno => ?_, fun hrun => ?_, fun fd' g hg _ => Or.inl ?_, ?_⟩
  · rw [hstate'] at hno
    simp at hno
  · rw [hstate'] at hrun
    cases hrun
  · by_cases hfd' : fd' = fd
    · subst hfd'
      have hself : ((s.proc np).setFd fd' (some f)).ofile fd' = some f := Function.update_self ..
      rw [hself] at hg
      rw [← Option.some.inj hg]
      exact htype
    · have hkeep : ((s.proc np).setFd fd (some f)).ofile fd' = (s.proc np).ofile fd' := Function.update_of_ne hfd' _ _
      rw [hkeep] at hg
      exact (h.proc np).type_ne (by rw [hidle.2]; exact ⟨rfl, rfl, rfl⟩) hg
  · rw [show ((s.proc np).setFd fd (some f)).point = .user from hidle.2]
    trivial

theorem free_dup (h : Inv s) (f g : FileRef) (hzero : ((s.setFile f (s.file f).dup).file g).ref = 0) :
    ((s.setFile f (s.file f).dup).file g).type = .none := by
  by_cases hg : g = f
  · subst hg
    rw [State.file_setFile_self] at hzero
    cases hzero
  · rw [State.file_setFile_of_ne _ hg] at hzero ⊢
    exact h.free g hzero

/-- One more descriptor has been copied. -/
theorem children_copyFd (h : Inv s) {np : Slot} {k : ℕ} (hk : k < NOFILE) (hat : s.At i (.forkFd np k)) {f : FileRef}
    (hi : s'.proc i = (s.proc i).goto (.forkFd np (k + 1)))
    (hnp : s'.proc np = (s.proc np).setFd ⟨k, hk⟩ (some f))
    (hother : ∀ j, j ≠ i → j ≠ np → s'.proc j = s.proc j) : Children s'.proc := by
  have hchild : (s.proc i).point.child = some (np, k) := by rw [hat.point]; rfl
  obtain ⟨hstate, hofile, hcwd⟩ := h.children.embryo i np k hchild
  have hidle := (h.proc np).idle (by rw [hstate]; simp)
  refine h.children.making i np (k + 1) (fun j q l hl => ?_) ?_ fun q hq hembryo => ?_
  · by_cases hji : j = i
    · subst hji
      rw [hi] at hl
      obtain ⟨rfl, rfl⟩ := Prod.mk.inj (Option.some.inj hl)
      exact Or.inl ⟨rfl, rfl, rfl⟩
    · have hjnp : j ≠ np := by
        rintro rfl
        rw [hnp, show ((s.proc j).setFd ⟨k, hk⟩ (some f)).point = .user from hidle.2] at hl
        cases hl
      rw [hother j hji hjnp] at hl
      refine Or.inr ⟨hji, ?_, hl⟩
      rintro rfl
      exact hji (h.children.parent j i q l k hl hchild)
  · rw [hnp]
    refine ⟨hstate, fun fd hfd => ?_, hcwd⟩
    have hfd' : fd ≠ ⟨k, hk⟩ := by
      rintro rfl
      exact absurd hfd (by simp)
    rw [show ((s.proc np).setFd ⟨k, hk⟩ (some f)).ofile fd = (s.proc np).ofile fd from Function.update_of_ne hfd' _ _]
    exact hofile fd (by omega)
  · have hqi : i ≠ q := ne_of_state hat (by rw [hembryo]; simp)
    exact hother q hqi.symm hq

/-- The body of the loop of `fork`. -/
theorem forkFd (h : Inv s) {np : Slot} {k : ℕ} (hk : k < NOFILE) (hat : s.At i (.forkFd np k)) {f : FileRef}
    (hf : (s.proc i).ofile ⟨k, hk⟩ = some f) :
    Inv (s.filedup f fun s =>
      (s.setProc np ((s.proc np).setFd ⟨k, hk⟩ (some f))).goto i (.forkFd np (k + 1))) := by
  have hchild : (s.proc i).point.child = some (np, k) := by rw [hat.point]; rfl
  obtain ⟨hstate, hofile, -⟩ := h.children.embryo i np k hchild
  have hset : (s.proc i).point.Settled := hat.settled ⟨rfl, rfl, rfl⟩
  have hne : i ≠ np := ne_of_state hat (by rw [hstate]; simp)
  have hidle := (h.proc np).idle (by rw [hstate]; simp)
  have htype := (h.proc i).type_ne hset hf
  have hpos := h.ref_pos (Proc.mem_tokens_of_entry hf (by rw [hset.unsettled]; simp))
  rw [State.filedup, if_neg (by omega)]
  have hmid : ((s.setFile f (s.file f).dup).setProc np ((s.proc np).setFd ⟨k, hk⟩ (some f))).proc i = s.proc i :=
    Function.update_of_ne hne _ _
  have hbal := State.balanced_goto (h.balanced_copyFd ⟨k, hk⟩ (by rw [hidle.2]; rfl) (hofile _ le_rfl) f) i
    (.forkFd np (k + 1)) (by rw [hmid]; exact hset) rfl rfl (by rw [hmid, hat.point]; rfl)
  obtain ⟨s', hs'⟩ : ∃ s', s' = (((s.setFile f (s.file f).dup).setProc np ((s.proc np).setFd ⟨k, hk⟩ (some f))).goto i
      (.forkFd np (k + 1))) := ⟨_, rfl⟩
  have hi : s'.proc i = (s.proc i).goto (.forkFd np (k + 1)) := by
    rw [hs', State.goto]
    exact (Function.update_self ..).trans (congrArg (Proc.goto · (.forkFd np (k + 1))) (Function.update_of_ne hne _ _))
  have hnp : s'.proc np = (s.proc np).setFd ⟨k, hk⟩ (some f) := by
    rw [hs', State.goto]
    exact (Function.update_of_ne hne.symm _ _).trans (Function.update_self ..)
  have hother : ∀ j, j ≠ i → j ≠ np → s'.proc j = s.proc j := fun j hji hjnp => by
    rw [hs', State.goto]
    exact (Function.update_of_ne hji _ _).trans (Function.update_of_ne hjnp _ _)
  have hfile : s'.file = (s.setFile f (s.file f).dup).file := by rw [hs']; rfl
  have hstable : ∀ g, (s.file g).Stable (s'.file g) := fun g => by
    rw [hfile]
    exact stable_dup htype g
  refine hs' ▸ h.of_step i ?_ (hs' ▸ hbal) (fun g => Or.inl (hstable g)) ?_ ?_ ?_ (h.children_copyFd hk hat hi hnp hother)
  · rw [hs']
    exact h.fault
  · rw [hfile]
    exact h.free_dup f
  · rw [hs']
    exact h.cached
  · intro j
    by_cases hji : j = i
    · subst hji
      refine Or.inr ?_
      rw [hi]
      exact Proc.Ok.frame ((h.proc j).goto hat.state hset trivial) fun g _ => hstable g
    · by_cases hjnp : j = np
      · subst hjnp
        refine Or.inr ?_
        rw [hnp]
        exact (h.ok_copyFd hstate ⟨k, hk⟩ htype).frame fun g _ => hstable g
      · exact Or.inl ⟨hji, hother j hji hjnp⟩

/-- The end of `fork`: the child gets the working directory and runs. -/
theorem forkEnd (h : Inv s) {np : Slot} {k : ℕ} (hat : s.At i (.forkFd np k)) {ip : IRef}
    (hcwd : (s.proc i).cwd = some ip) :
    Inv (((s.setInode ip (s.inode ip).dup).setProc np
      ((((s.proc np).setCwd (some ip)).setState .runnable).ret [] 0)).ret i [] (s.proc np).pid) := by
  have hchild : (s.proc i).point.child = some (np, k) := by rw [hat.point]; rfl
  obtain ⟨hstate, hofile, hnocwd⟩ := h.children.embryo i np k hchild
  have hne : i ≠ np := ne_of_state hat (by rw [hstate]; simp)
  have hidle := (h.proc np).idle (by rw [hstate]; simp)
  have hret : Inv (s.ret i [] (s.proc np).pid) := h.ret hat ⟨rfl, rfl, rfl⟩ [] rfl _
  have hnp : (s.ret i [] (s.proc np).pid).proc np = s.proc np := Function.update_of_ne hne.symm _ _
  have horphan := h.orphan hchild [] (s.proc np).pid
  have hpos : 0 < (s.inode ip).ref :=
    h.inode_pos (Proc.mem_tokens_of_cwd hcwd (by rw [hat.point]; rfl))
  have heq : ((s.setInode ip (s.inode ip).dup).setProc np
        ((((s.proc np).setCwd (some ip)).setState .runnable).ret [] 0)).ret i [] (s.proc np).pid =
      ((s.ret i [] (s.proc np).pid).setInode ip (s.inode ip).dup).setProc np
        ((((s.proc np).setCwd (some ip)).setState .runnable).ret [] 0) := by
    have hi : ((s.setInode ip (s.inode ip).dup).setProc np
        ((((s.proc np).setCwd (some ip)).setState .runnable).ret [] 0)).proc i = s.proc i :=
      Function.update_of_ne hne _ _
    rw [State.ret, hi]
    simp only [State.setProc, State.setInode, State.ret]
    rw [Function.update_comm hne.symm]
  rw [heq]
  refine hret.own_of_file_eq rfl rfl rfl ?_ ?_ ?_ horphan ?_
  · intro t
    have hcongr := Proc.count_tokens_congr (s.proc np) ((((s.proc np).setCwd (some ip)).setState .runnable).ret [] 0)
      (by rw [hidle.2]; rfl) rfl t
    have hbefore : (s.proc np).cwdTokens = 0 := by
      rw [Proc.cwdTokens, hidle.2, hnocwd]
      rfl
    have hafter : ((((s.proc np).setCwd (some ip)).setState .runnable).ret [] 0).cwdTokens = {.inode ip} := rfl
    have hpt : ((((s.proc np).setCwd (some ip)).setState .runnable).ret [] 0).point.tokens = 0 := rfl
    have hcl : ((((s.proc np).setCwd (some ip)).setState .runnable).ret [] 0).closingTokens = 0 := rfl
    have hpt' : (s.proc np).point.tokens = 0 := by rw [hidle.2]; rfl
    have hinode := (s.ret i [] (s.proc np).pid).count_setInode t ip (s.inode ip).dup
    have hdup : (s.inode ip).dup.ref = (s.inode ip).ref + 1 := rfl
    have hsame : ((s.ret i [] (s.proc np).pid).inode ip).ref = (s.inode ip).ref := rfl
    rw [hbefore, hafter, hpt, hcl, hpt', Proc.closingTokens_nil hidle.1, Multiset.count_zero, Multiset.count_singleton]
      at hcongr
    rw [hsame] at hinode
    rw [State.count_setProc, hnp]
    split_ifs at hinode hcongr <;> omega
  · exact h.cached.update rfl rfl fun _ => hpos
  · refine ⟨fun hno => absurd rfl hno, fun hno => ?_, fun _ => rfl, fun fd f hf _ => Or.inl ?_, trivial⟩
    · rcases hno with hno | hno <;> cases hno
    · exact (h.proc np).type_ne (by rw [hidle.2]; exact ⟨rfl, rfl, rfl⟩) hf
  · intro q l hl
    cases hl

/-! ## Steps -/

theorem call (h : Inv s) (hat : s.At i .user) (c : Call) : Inv (s.call i c) := by
  have hret := fun v => h.ret hat ⟨rfl, rfl, rfl⟩ [] rfl v
  have hno : ∀ {pt' : Point}, pt'.child = none → ∀ np k, pt'.child = some (np, k) → ∃ l ≤ k, Point.child .user = some (np, l) :=
    fun hc np k hk => by rw [hc] at hk; cases hk
  cases c with
  | dup n =>
    rw [State.call]
    cases harg : argfd (s.proc i).ofile n with
    | none => exact hret (-1)
    | some q =>
      cases hfd : fdalloc (s.proc i).ofile with
      | none => exact hret (-1)
      | some fd => exact h.sys_dup hat harg hfd
  | close n =>
    rw [State.call]
    cases harg : argfd (s.proc i).ofile n with
    | none => exact hret (-1)
    | some q => exact h.sys_close hat harg
  | read n => exact h.fileIo hat n _ _
  | write n => exact h.fileIo hat n _ _
  | pipe => exact h.goto hat ⟨rfl, rfl, rfl⟩ .pipe0 rfl rfl rfl trivial (hno rfl)
  | open_ found omode =>
    cases found with
    | none => exact hret (-1)
    | some q =>
      exact h.iget hat q.1 q.2 (fun ip => .open_ ip omode) (fun _ => rfl) (fun _ => rfl) (fun _ => rfl)
        (fun _ _ _ => trivial) fun _ => rfl
  | chdir found =>
    cases found with
    | none => exact hret (-1)
    | some q =>
      exact h.iget hat q.1 q.2 (fun ip => .chdir ip) (fun _ => rfl) (fun _ => rfl) (fun _ => rfl) (fun _ _ _ => trivial)
        fun _ => rfl
  | fork kstack => exact h.fork hat kstack
  | exit =>
    rw [State.call]
    split_ifs
    · exact h.crash (Or.inl rfl)
    · exact h.goto hat ⟨rfl, rfl, rfl⟩ (.exit 0) rfl rfl rfl (fun fd hfd => absurd hfd (Nat.not_lt_zero _)) (hno rfl)
  | wait => exact h.wait hat

/-- The second file of `pipealloc` is not the first one. -/
theorem pipe1 (h : Inv s) {f0 f1 : FileRef} (hat : s.At i (.pipe1 f0)) (hf : s.filealloc = some f1) :
    Inv ((s.setFile f1 (s.file f1).alloc).goto i (.pipePage f0 f1)) := by
  have hok := (h.proc i).point
  rw [hat.point] at hok
  have hne : f0 ≠ f1 := by
    rintro rfl
    have hone := hok.1
    rw [ref_of_filealloc hf] at hone
    cases hone
  refine h.filealloc hat ⟨rfl, rfl, rfl⟩ hf (.pipePage f0 f1) rfl rfl rfl ⟨?_, h.fresh_alloc hf⟩ rfl
  rw [State.file_setFile_of_ne _ hne]
  exact hok

/-- `fork` goes on to the next descriptor. -/
theorem forkNext (h : Inv s) {np : Slot} {k l : ℕ} (hat : s.At i pt) (hset : pt.Settled) (htokens : pt.tokens = 0)
    (hchild : pt.child = some (np, k)) (hl : k ≤ l) : Inv (s.goto i (.forkFd np l)) := by
  refine h.goto hat hset (.forkFd np l) rfl rfl htokens.symm trivial fun q m hm => ⟨k, ?_⟩
  obtain ⟨rfl, rfl⟩ := Prod.mk.inj (Option.some.inj hm)
  exact ⟨hl, hchild⟩

/-- `exit` passes over a descriptor that is free. -/
theorem exitNext (h : Inv s) {k : ℕ} (hk : k < NOFILE) (hat : s.At i (.exit k))
    (hf : (s.proc i).ofile ⟨k, hk⟩ = none) : Inv (s.goto i (.exit (k + 1))) := by
  have hok := (h.proc i).point
  rw [hat.point] at hok
  refine h.goto hat ⟨rfl, rfl, rfl⟩ (.exit (k + 1)) rfl rfl rfl (fun fd hfd => ?_) fun q l hl => by cases hl
  by_cases heq : fd = ⟨k, hk⟩
  · rw [heq, hf]
  · have hne : fd.val ≠ k := fun hval => heq (Fin.ext hval)
    exact hok fd (by omega)

theorem resume (h : Inv s) (hat : s.At i pt) (a : Answer) (hpage : ∀ p, a.page = some p → s.page p = none) :
    Inv (s.resume i a pt) := by
  have hok := (h.proc i).point
  rw [hat.point] at hok
  cases pt with
  | user => exact h
  | dup f fd => exact h.filedup hat
  | pipeIo fd p =>
    obtain ⟨f, x, -, -, -, hx, -⟩ := h.exists_page_of_pipeIo hat.point
    rw [State.resume, hx]
    simp only
    split_ifs
    · exact h.ret hat ⟨rfl, rfl, rfl⟩ [] rfl a.moved
    · exact h
  | inodeIo fd f =>
    have hpos := h.inode_pos_of_file hok.2
    rw [State.resume, State.ilock, if_neg (by omega)]
    exact h.ret hat ⟨rfl, rfl, rfl⟩ [] rfl a.moved
  | open_ ip omode =>
    rw [State.resume, h.ilock_eq hat (Multiset.mem_singleton_self _)]
    split_ifs
    · exact h.ret hat ⟨rfl, rfl, rfl⟩ [.iput ip] rfl (-1)
    · cases hf : s.filealloc with
      | none => exact h.ret hat ⟨rfl, rfl, rfl⟩ [.iput ip] rfl (-1)
      | some f =>
        exact h.filealloc hat ⟨rfl, rfl, rfl⟩ hf (.openFd ip omode f) rfl rfl rfl (h.fresh_alloc hf) rfl
  | openFd ip omode f =>
    rw [State.resume]
    cases hfd : fdalloc (s.proc i).ofile with
    | none => exact h.ret hat ⟨rfl, rfl, rfl⟩ [.fileclose f, .iput ip] (add_comm _ _) (-1)
    | some fd => exact h.openFd hat hfd
  | openSet ip omode f fd => exact h.openSet hat
  | pipe0 =>
    rw [State.resume]
    cases hf : s.filealloc with
    | none => exact h.ret hat ⟨rfl, rfl, rfl⟩ [] rfl (-1)
    | some f0 =>
      exact h.filealloc hat ⟨rfl, rfl, rfl⟩ hf (.pipe1 f0) rfl rfl rfl (h.fresh_alloc hf) rfl
  | pipe1 f0 =>
    rw [State.resume]
    cases hf : s.filealloc with
    | none => exact h.ret hat ⟨rfl, rfl, rfl⟩ [.fileclose f0] rfl (-1)
    | some f1 => exact h.pipe1 hat hf
  | pipePage f0 f1 =>
    rw [State.resume]
    cases hp : a.page with
    | none => exact h.ret hat ⟨rfl, rfl, rfl⟩ [.fileclose f0, .fileclose f1] rfl (-1)
    | some p => exact h.fillPipe hat (hpage p hp)
  | pipeFd rf wf =>
    rw [State.resume]
    cases hfd0 : fdalloc (s.proc i).ofile with
    | none => exact h.ret hat ⟨rfl, rfl, rfl⟩ [.fileclose rf, .fileclose wf] rfl (-1)
    | some fd0 =>
      simp only
      cases hfd1 : fdalloc ((s.proc i).setFd fd0 (some rf)).ofile with
      | none =>
        simp only
        rw [Proc.setFd_setFd_none (ofile_of_fdalloc hfd0)]
        exact h.ret hat ⟨rfl, rfl, rfl⟩ [.fileclose rf, .fileclose wf] rfl (-1)
      | some fd1 => exact h.pipeFd hat hfd0 hfd1
  | forkVm np =>
    rw [State.resume]
    split_ifs
    · exact h.forkFail hat
    · have hparent : Inv (s.setParent np (some i)) := h.congr rfl rfl rfl rfl rfl
      exact hparent.forkNext (hat.congr rfl) ⟨rfl, rfl, rfl⟩ rfl rfl (Nat.le_refl 0)
  | forkFd np k =>
    rw [State.resume]
    split_ifs with hk
    · cases hf : (s.proc i).ofile ⟨k, hk⟩ with
      | none => exact h.forkNext hat ⟨rfl, rfl, rfl⟩ rfl rfl (Nat.le_succ k)
      | some f => exact h.forkFd hk hat hf
    · obtain ⟨ip, hip⟩ := Option.isSome_iff_exists.1 ((h.proc i).cwd hat.state)
      rw [hip]
      exact h.forkEnd hat hip
  | exit k =>
    rw [State.resume]
    split_ifs with hk
    · cases hf : (s.proc i).ofile ⟨k, hk⟩ with
      | none => exact h.exitNext hk hat hf
      | some f => exact h.exitFd hk hat hf
    · obtain ⟨ip, hip⟩ := Option.isSome_iff_exists.1 ((h.proc i).cwd hat.state)
      rw [hip]
      exact h.exitIput hk hat hip
  | clear fd => exact h.clear hat
  | exitCwd => exact h.zombie hat
  | chdir ip =>
    rw [State.resume, h.ilock_eq hat (Multiset.mem_singleton_self _)]
    split_ifs
    · exact h.ret hat ⟨rfl, rfl, rfl⟩ [.iput ip] rfl (-1)
    · obtain ⟨old, hold⟩ := Option.isSome_iff_exists.1 ((h.proc i).cwd hat.state)
      rw [hold]
      exact h.chdir hat hold
  | setCwd ip => exact h.setCwd hat

/-- A step of any process keeps the invariant. -/
theorem step (h : Inv s) {e : Slot × Event} (hstep : step s e = some s') : Inv s' := by
  obtain ⟨i, e⟩ := e
  rw [Files.step] at hstep
  split_ifs at hstep with hguard
  simp only [not_or] at hguard
  have hrun : (s.proc i).state = .runnable := not_not.1 hguard.2
  cases hclosing : (s.proc i).closing with
  | cons c cs =>
    cases e with
    | call c' => simp [hclosing] at hstep
    | next a =>
      simp only [hclosing, Option.some.injEq] at hstep
      exact hstep ▸ h.close hclosing
  | nil =>
    have hat : s.At i (s.proc i).point := ⟨hrun, hclosing, rfl⟩
    cases e with
    | call c =>
      cases hpt : (s.proc i).point with
      | user =>
        simp only [hclosing, hpt, Option.some.injEq] at hstep
        exact hstep ▸ h.call (hpt ▸ hat) c
      | _ => simp [hclosing, hpt] at hstep
    | next a =>
      simp only [hclosing] at hstep
      split_ifs at hstep with hused
      obtain rfl := Option.some.inj hstep
      refine h.resume hat a fun p hp => ?_
      rw [hp] at hused
      simpa using hused

end Inv

end SystemsProjects.Xv6.Files
