import SystemsProjects.Xv6.Files

/-!
# References to files, pipes and inodes

A descriptor, a working directory, an open file and a system call under way hold references; each is a
`Token`.  In every state that can be reached the reference counts of `ftable` and `icache`, the two flags of
each pipe and the pages that are pipes agree with the tokens that are held.
-/

namespace SystemsProjects.Xv6.Files

open Ledger

inductive Token where
  | file (f : FileRef)
  /-- The reading or the writing end of a pipe that has not been closed. -/
  | pipeEnd (p : Page) (writable : Bool)
  /-- The page of a pipe with both ends closed. -/
  | page (p : Page)
  | inode (ip : IRef)
  deriving DecidableEq

def File.tokens (x : File) : Multiset Token :=
  match x.type with
  | .none => 0
  | .pipe => {.pipeEnd x.pipe x.writable}
  | .inode => {.inode x.ip}

def Closing.tokens : Closing → Multiset Token
  | .fileclose f => {.file f}
  | .last ff => ff.tokens
  | .kfree p => {.page p}
  | .iput ip => {.inode ip}

/-- What a system call holds that is in no descriptor yet. -/
def Point.tokens : Point → Multiset Token
  | .open_ ip _ => {.inode ip}
  | .openFd ip _ f => {.inode ip} + {.file f}
  | .openSet ip _ _ _ => {.inode ip}
  | .pipe1 f0 => {.file f0}
  | .pipePage f0 f1 => {.file f0} + {.file f1}
  | .pipeFd rf wf => {.file rf} + {.file wf}
  | .chdir ip => {.inode ip}
  | .setCwd ip => {.inode ip}
  | _ => 0

/-- The descriptor whose reference is not counted: not yet in `sys_dup`, no more in `exit`. -/
def Point.unsettled : Point → Option Fd
  | .dup _ fd => some fd
  | .clear fd => some fd
  | _ => none

/-- The reference of `proc->cwd` has been dropped. -/
def Point.leaves : Point → Bool
  | .exitCwd => true
  | .setCwd _ => true
  | _ => false

namespace Proc

variable (p : Proc)

def entry (fd : Fd) : Multiset Token :=
  if p.point.unsettled = some fd then 0 else (p.ofile fd).elim 0 fun f => {.file f}

def cwdTokens : Multiset Token := if p.point.leaves then 0 else p.cwd.elim 0 fun ip => {.inode ip}

def closingTokens : Multiset Token := (p.closing.map Closing.tokens).sum

def tokens : Multiset Token := ∑ fd, p.entry fd + p.cwdTokens + p.point.tokens + p.closingTokens

end Proc

/-- What the flags of a pipe stand for. -/
def pageTokens (p : Page) : Option Pipe → Multiset Token
  | none => 0
  | some x =>
    (if x.readopen then {.pipeEnd p false} else 0) + (if x.writeopen then {.pipeEnd p true} else 0) +
      if !x.readopen && !x.writeopen then {.page p} else 0

/-- Closing an end takes its token away, and leaves the page when the other end is closed. -/
theorem pageTokens_close {p : Page} {x : Pipe} {w : Bool} (h : (if w then x.writeopen else x.readopen) = true) :
    pageTokens p (some (x.close w)) + {.pipeEnd p w} =
      pageTokens p (some x) + if !(x.close w).readopen && !(x.close w).writeopen then {.page p} else 0 := by
  rcases x with ⟨_ | _, _ | _⟩ <;> cases w <;> simp [pageTokens, Pipe.close, add_comm] at h ⊢

namespace State

variable (s : State)

def hold : Slot ⊕ FileRef → Multiset Token := Sum.elim (fun i => (s.proc i).tokens) fun f => (s.file f).tokens

def count : Token → ℕ
  | .file f => (s.file f).ref
  | .pipeEnd p w => (pageTokens p (s.page p)).count (.pipeEnd p w)
  | .page p => (pageTokens p (s.page p)).count (.page p)
  | .inode ip => (s.inode ip).ref

end State

/-! ## Tokens of a process -/

namespace Proc

variable {p p' : Proc}

theorem count_tokens (p : Proc) (t : Token) :
    p.tokens.count t = ∑ fd, (p.entry fd).count t + p.cwdTokens.count t + p.point.tokens.count t +
      p.closingTokens.count t := by
  rw [tokens, Multiset.count_add, Multiset.count_add, Multiset.count_add, Multiset.count_sum']

/-- A change of one descriptor, the working directory and the system call. -/
theorem count_tokens_change (p p' : Proc) (fd : Fd) (hentry : ∀ fd', fd' ≠ fd → p'.entry fd' = p.entry fd') (t : Token) :
    p'.tokens.count t + ((p.entry fd).count t + p.cwdTokens.count t + p.point.tokens.count t +
        p.closingTokens.count t) =
      p.tokens.count t + ((p'.entry fd).count t + p'.cwdTokens.count t + p'.point.tokens.count t +
        p'.closingTokens.count t) := by
  have hrest : ∑ x ∈ Finset.univ.erase fd, (p'.entry x).count t = ∑ x ∈ Finset.univ.erase fd, (p.entry x).count t :=
    Finset.sum_congr rfl fun x hx => by rw [hentry x (Finset.ne_of_mem_erase hx)]
  rw [count_tokens, count_tokens, ← Finset.add_sum_erase _ (fun x => (p'.entry x).count t) (Finset.mem_univ fd),
    ← Finset.add_sum_erase _ (fun x => (p.entry x).count t) (Finset.mem_univ fd), hrest]
  omega

theorem entry_congr (hun : p'.point.unsettled = p.point.unsettled) (hofile : p'.ofile = p.ofile) (fd : Fd) :
    p'.entry fd = p.entry fd := by
  rw [entry, entry, hun, hofile]

/-- The descriptors stay as they are. -/
theorem count_tokens_congr (p p' : Proc) (hun : p'.point.unsettled = p.point.unsettled) (hofile : p'.ofile = p.ofile) (t : Token) :
    p'.tokens.count t + (p.cwdTokens.count t + p.point.tokens.count t + p.closingTokens.count t) =
      p.tokens.count t + (p'.cwdTokens.count t + p'.point.tokens.count t + p'.closingTokens.count t) := by
  rw [count_tokens, count_tokens, Finset.sum_congr rfl fun fd _ => by rw [entry_congr hun hofile fd]]
  omega

theorem mem_tokens_of_entry {fd : Fd} {f : FileRef} (hf : p.ofile fd = some f) (hun : p.point.unsettled ≠ some fd) :
    .file f ∈ p.tokens := by
  have hentry : p.entry fd = {.file f} := by
    rw [entry, if_neg hun, hf]
    rfl
  rw [tokens, Multiset.mem_add, Multiset.mem_add, Multiset.mem_add, Multiset.mem_sum]
  exact Or.inl (Or.inl (Or.inl ⟨fd, Finset.mem_univ fd, by rw [hentry, Multiset.mem_singleton]⟩))

theorem mem_tokens_of_point {t : Token} (ht : t ∈ p.point.tokens) : t ∈ p.tokens := by
  rw [tokens, Multiset.mem_add, Multiset.mem_add]
  exact Or.inl (Or.inr ht)

theorem mem_tokens_of_cwd {ip : IRef} (hcwd : p.cwd = some ip) (hl : p.point.leaves = false) : .inode ip ∈ p.tokens := by
  have hc : p.cwdTokens = {.inode ip} := by
    rw [cwdTokens, hl, hcwd]
    rfl
  rw [tokens, Multiset.mem_add, Multiset.mem_add, Multiset.mem_add, hc, Multiset.mem_singleton]
  exact Or.inl (Or.inl (Or.inr rfl))

theorem mem_tokens_of_closing {t : Token} {c : Closing} {cs : List Closing} (hc : p.closing = c :: cs)
    (ht : t ∈ c.tokens) : t ∈ p.tokens := by
  rw [tokens, Multiset.mem_add, closingTokens, hc, List.map_cons, List.sum_cons]
  exact Or.inr (Multiset.mem_add.2 (Or.inl ht))

end Proc

/-! ## Counts -/

namespace State

variable (s : State) (t : Token)

theorem file_setFile_self (f : FileRef) (x : File) : (s.setFile f x).file f = x := Function.update_self ..

theorem file_setFile_of_ne {f g : FileRef} (h : g ≠ f) (x : File) : (s.setFile f x).file g = s.file g :=
  Function.update_of_ne h _ _

@[simp] theorem proc_setFile (f : FileRef) (x : File) : (s.setFile f x).proc = s.proc := rfl

theorem inode_setInode_self (ip : IRef) (x : Inode) : (s.setInode ip x).inode ip = x := Function.update_self ..

theorem inode_setInode_of_ne {ip jp : IRef} (h : jp ≠ ip) (x : Inode) : (s.setInode ip x).inode jp = s.inode jp :=
  Function.update_of_ne h _ _

@[simp] theorem inode_owe (i : Slot) (cs : List Closing) : (s.owe i cs).inode = s.inode := rfl

@[simp] theorem file_setProc (i : Slot) (p : Proc) : (s.setProc i p).file = s.file := rfl

@[simp] theorem file_owe (i : Slot) (cs : List Closing) : (s.owe i cs).file = s.file := rfl

@[simp] theorem file_ret (i : Slot) (cs : List Closing) (v : ℤ) : (s.ret i cs v).file = s.file := rfl

@[simp] theorem file_goto (i : Slot) (pt : Point) : (s.goto i pt).file = s.file := rfl

theorem hold_update {s' : State} {i : Slot} {p : Proc} (hproc : s'.proc = Function.update s.proc i p)
    (hfile : s'.file = s.file) : s'.hold = Function.update s.hold (.inl i) p.tokens := by
  funext k
  rcases k with j | f
  · by_cases hj : j = i
    · subst hj
      simp [hold, hproc]
    · simp [hold, hproc, hj]
  · simp [hold, hfile]

theorem hold_update_file {s' : State} {f : FileRef} {x : File} (hproc : s'.proc = s.proc)
    (hfile : s'.file = Function.update s.file f x) : s'.hold = Function.update s.hold (.inr f) x.tokens := by
  funext k
  rcases k with j | g
  · simp [hold, hproc]
  · by_cases hg : g = f
    · subst hg
      simp [hold, hfile]
    · simp [hold, hfile, hg]

theorem hold_setFile (f : FileRef) (x : File) : (s.setFile f x).hold = Function.update s.hold (.inr f) x.tokens :=
  s.hold_update_file rfl rfl

theorem hold_setProc (i : Slot) (p : Proc) : (s.setProc i p).hold = Function.update s.hold (.inl i) p.tokens :=
  s.hold_update rfl rfl

@[simp] theorem hold_setPage (p : Page) (x : Option Pipe) : (s.setPage p x).hold = s.hold := rfl

@[simp] theorem hold_setInode (ip : IRef) (x : Inode) : (s.setInode ip x).hold = s.hold := rfl

@[simp] theorem count_setProc (i : Slot) (p : Proc) : (s.setProc i p).count = s.count := by
  funext t
  cases t <;> rfl

@[simp] theorem count_owe (i : Slot) (cs : List Closing) : (s.owe i cs).count = s.count := s.count_setProc i _

@[simp] theorem count_ret (i : Slot) (cs : List Closing) (v : ℤ) : (s.ret i cs v).count = s.count :=
  s.count_setProc i _

@[simp] theorem count_goto (i : Slot) (pt : Point) : (s.goto i pt).count = s.count := s.count_setProc i _

theorem count_setFile (f : FileRef) (x : File) :
    (s.setFile f x).count t + (if t = .file f then (s.file f).ref else 0) =
      s.count t + if t = .file f then x.ref else 0 := by
  cases t with
  | file g =>
    by_cases hg : g = f
    · subst hg
      simp [count, setFile, Nat.add_comm]
    · simp [count, setFile, hg]
  | _ => simp [count, setFile]

theorem count_setInode (ip : IRef) (x : Inode) :
    (s.setInode ip x).count t + (if t = .inode ip then (s.inode ip).ref else 0) =
      s.count t + if t = .inode ip then x.ref else 0 := by
  cases t with
  | inode jp =>
    by_cases hj : jp = ip
    · subst hj
      simp [count, setInode, Nat.add_comm]
    · simp [count, setInode, hj]
  | _ => simp [count, setInode]

theorem count_setPage (p : Page) (x : Option Pipe) :
    (s.setPage p x).count t + (pageTokens p (s.page p)).count t = s.count t + (pageTokens p x).count t := by
  have hother : ∀ (q : Page) (y : Option Pipe) (t : Token), (∀ w, t ≠ .pipeEnd q w) → t ≠ .page q →
      (pageTokens q y).count t = 0 := by
    intro q y t hend hpage
    cases y with
    | none => rfl
    | some y =>
      rw [pageTokens]
      split_ifs <;> simp [hend, hpage]
  cases t with
  | file g => rw [hother p _ _ (by simp) (by simp), hother p _ _ (by simp) (by simp)]; rfl
  | inode jp => rw [hother p _ _ (by simp) (by simp), hother p _ _ (by simp) (by simp)]; rfl
  | pipeEnd q w =>
    by_cases hq : q = p
    · subst hq
      simp [count, setPage, Nat.add_comm]
    · have hne : ∀ w', Token.pipeEnd q w ≠ .pipeEnd p w' := by simp [hq]
      rw [hother p _ _ hne (by simp), hother p _ _ hne (by simp)]
      simp [count, setPage, hq]
  | page q =>
    by_cases hq : q = p
    · subst hq
      simp [count, setPage, Nat.add_comm]
    · have hne : Token.page q ≠ .page p := by simp [hq]
      rw [hother p _ _ (by simp) hne, hother p _ _ (by simp) hne]
      simp [count, setPage, hq]

end State

/-! ## The invariant -/

/-- A file that `filealloc` has just returned. -/
def File.Fresh (x : File) : Prop := x.ref = 1 ∧ x.type = .none

/-- What the holder of a reference to a file relies on. -/
structure File.Stable (x x' : File) : Prop where
  type : x'.type = x.type
  readable : x'.readable = x.readable
  writable : x'.writable = x.writable
  pipe : x'.pipe = x.pipe
  ip : x'.ip = x.ip
  fresh : x.Fresh → x'.ref = 1

def Point.opening : Point → Option (FileRef × Fd)
  | .openSet _ _ f fd => some (f, fd)
  | _ => none

/-- What a process knows of its descriptors and files. -/
def Point.Ok (file : FileRef → File) (ofile : Fd → Option FileRef) : Point → Prop
  | .dup f fd => ofile fd = some f ∧ ∃ fd0, fd0 ≠ fd ∧ ofile fd0 = some f
  | .pipeIo fd p => ∃ f, ofile fd = some f ∧ (file f).type = .pipe ∧ (file f).pipe = p
  | .inodeIo fd f => ofile fd = some f ∧ (file f).type = .inode
  | .openFd _ _ f => (file f).Fresh
  | .openSet _ _ f fd => (file f).Fresh ∧ ofile fd = some f
  | .pipe1 f0 => (file f0).Fresh
  | .pipePage f0 f1 => (file f0).Fresh ∧ (file f1).Fresh
  | .pipeFd rf wf => (file rf).type ≠ .none ∧ (file wf).type ≠ .none
  | .exit k => ∀ fd : Fd, fd.val < k → ofile fd = none
  | .clear fd => ∀ fd' : Fd, fd'.val < fd.val → ofile fd' = none
  | .exitCwd => ∀ fd, ofile fd = none
  | _ => True

structure Proc.Ok (file : FileRef → File) (p : Proc) : Prop where
  idle : p.state ≠ .runnable → p.closing = [] ∧ p.point = .user
  bare : p.state = .unused ∨ p.state = .zombie → (∀ fd, p.ofile fd = none) ∧ p.cwd = none
  cwd : p.state = .runnable → p.cwd.isSome
  typed : ∀ fd f, p.ofile fd = some f → p.point.unsettled ≠ some fd →
    (file f).type ≠ .none ∨ p.point.opening = some (f, fd)
  point : p.point.Ok file p.ofile

/-- The child that `fork` is making, with the first descriptor that has not been copied. -/
def Point.child : Point → Option (Slot × ℕ)
  | .forkVm np => some (np, 0)
  | .forkFd np k => some (np, k)
  | _ => none

/-- A child in the making has one parent, and nothing but the descriptors that were copied. -/
structure Children (proc : Slot → Proc) : Prop where
  embryo : ∀ i np k, (proc i).point.child = some (np, k) →
    (proc np).state = .embryo ∧ (∀ fd : Fd, k ≤ fd.val → (proc np).ofile fd = none) ∧ (proc np).cwd = none
  parent : ∀ i j np k l, (proc i).point.child = some (np, k) → (proc j).point.child = some (np, l) → i = j

/-- No inode is in two slots of `icache`. -/
def Cached (inode : IRef → Inode) : Prop :=
  ∀ a b, 0 < (inode a).ref → 0 < (inode b).ref → (inode a).dev = (inode b).dev → (inode a).inum = (inode b).inum → a = b

structure Inv (s : State) : Prop where
  fault : s.fault = none ∨ s.fault = some (.panic "init exiting") ∨ s.fault = some (.panic "iget: no inodes")
  balanced : Balanced s.hold s.count
  free : ∀ f, (s.file f).ref = 0 → (s.file f).type = .none
  cached : Cached s.inode
  proc : ∀ i, (s.proc i).Ok s.file
  children : Children s.proc

/-- A change of a reference count. -/
theorem Cached.update {inode : IRef → Inode} (h : Cached inode) {ip : IRef} {x : Inode} (hdev : x.dev = (inode ip).dev)
    (hinum : x.inum = (inode ip).inum) (hpos : 0 < x.ref → 0 < (inode ip).ref) :
    Cached (Function.update inode ip x) := by
  have hsame : ∀ a, (Function.update inode ip x a).dev = (inode a).dev ∧
      (Function.update inode ip x a).inum = (inode a).inum ∧
      (0 < (Function.update inode ip x a).ref → 0 < (inode a).ref) := by
    intro a
    by_cases ha : a = ip
    · subst ha
      rw [Function.update_self]
      exact ⟨hdev, hinum, hpos⟩
    · rw [Function.update_of_ne ha]
      exact ⟨rfl, rfl, id⟩
  intro a b hposa hposb hdev hinum
  rw [(hsame a).1, (hsame b).1] at hdev
  rw [(hsame a).2.1, (hsame b).2.1] at hinum
  exact h a b ((hsame a).2.2 hposa) ((hsame b).2.2 hposb) hdev hinum

/-- A slot for an inode that is in none. -/
theorem Cached.recycle {inode : IRef → Inode} (h : Cached inode) (ip : IRef) {x : Inode}
    (hnone : ∀ a, ¬(0 < (inode a).ref ∧ (inode a).dev = x.dev ∧ (inode a).inum = x.inum)) :
    Cached (Function.update inode ip x) := by
  intro a b hposa hposb hdev hinum
  by_cases ha : a = ip
  · by_cases hb : b = ip
    · rw [ha, hb]
    · subst ha
      rw [Function.update_of_ne hb] at hposb hdev hinum
      rw [Function.update_self] at hdev hinum
      exact absurd ⟨hposb, hdev.symm, hinum.symm⟩ (hnone b)
  · rw [Function.update_of_ne ha] at hposa hdev hinum
    by_cases hb : b = ip
    · subst hb
      rw [Function.update_self] at hdev hinum
      exact absurd ⟨hposa, hdev, hinum⟩ (hnone a)
    · rw [Function.update_of_ne hb] at hposb hdev hinum
      exact h a b hposa hposb hdev hinum

theorem File.Stable.refl (x : File) : x.Stable x := ⟨rfl, rfl, rfl, rfl, rfl, fun h => h.1⟩

theorem File.Stable.isFresh {x x' : File} (h : x.Stable x') (hx : x.Fresh) : x'.Fresh := ⟨h.fresh hx, h.type.trans hx.2⟩

/-- A process does not notice what leaves its files stable. -/
theorem Proc.Ok.frame {file file' : FileRef → File} {p : Proc} (h : p.Ok file)
    (hfile : ∀ f, .file f ∈ p.tokens → (file f).Stable (file' f)) : p.Ok file' := by
  refine ⟨h.idle, h.bare, h.cwd, fun fd f hf hun => ?_, ?_⟩
  · rw [(hfile f (mem_tokens_of_entry hf hun)).type]
    exact h.typed fd f hf hun
  have hpoint := h.point
  have hmine : ∀ f, .file f ∈ p.point.tokens → (file f).Stable (file' f) := fun f hf =>
    hfile f (mem_tokens_of_point hf)
  have hentry : ∀ fd f, p.ofile fd = some f → p.point.unsettled = none → (file f).Stable (file' f) :=
    fun fd f hf hun => hfile f (mem_tokens_of_entry hf (by simp [hun]))
  cases hpt : p.point with
  | pipeIo fd q =>
    rw [hpt] at hpoint
    obtain ⟨f, hf, htype, hpipe⟩ := hpoint
    have hs := hentry fd f hf (by rw [hpt]; rfl)
    exact ⟨f, hf, hs.type.trans htype, hs.pipe.trans hpipe⟩
  | inodeIo fd f =>
    rw [hpt] at hpoint
    have hs := hentry fd f hpoint.1 (by rw [hpt]; rfl)
    exact ⟨hpoint.1, hs.type.trans hpoint.2⟩
  | openFd ip omode f =>
    rw [hpt] at hpoint hmine
    exact (hmine f (by simp [Point.tokens])).isFresh hpoint
  | openSet ip omode f fd =>
    rw [hpt] at hpoint
    exact ⟨(hentry fd f hpoint.2 (by rw [hpt]; rfl)).isFresh hpoint.1, hpoint.2⟩
  | pipe1 f0 =>
    rw [hpt] at hpoint hmine
    exact (hmine f0 (by simp [Point.tokens])).isFresh hpoint
  | pipePage f0 f1 =>
    rw [hpt] at hpoint hmine
    exact ⟨(hmine f0 (by simp [Point.tokens])).isFresh hpoint.1,
      (hmine f1 (by simp [Point.tokens])).isFresh hpoint.2⟩
  | pipeFd rf wf =>
    rw [hpt] at hpoint hmine
    refine ⟨?_, ?_⟩
    · rw [(hmine rf (by simp [Point.tokens])).type]
      exact hpoint.1
    · rw [(hmine wf (by simp [Point.tokens])).type]
      exact hpoint.2
  | _ =>
    rw [hpt] at hpoint
    exact hpoint

/-- The process `i` changes a file: one that is free, or one that it holds. -/
def Touches (s s' : State) (i : Slot) : Prop :=
  ∀ f, (s.file f).Stable (s'.file f) ∨ (s.file f).ref = 0 ∨ (.file f ∈ (s.proc i).tokens ∧ (s.file f).ref = 1)

namespace Inv

variable {s s' : State} {i j : Slot}

theorem ref_pos (h : Inv s) {f : FileRef} (hf : .file f ∈ (s.proc i).tokens) : 0 < (s.file f).ref :=
  h.balanced.pos (show Token.file f ∈ s.hold (.inl i) from hf)

theorem inode_pos (h : Inv s) {ip : IRef} (hip : .inode ip ∈ (s.proc i).tokens) : 0 < (s.inode ip).ref :=
  h.balanced.pos (show Token.inode ip ∈ s.hold (.inl i) from hip)

/-- The files of the other processes stay as they are. -/
theorem stable_of_touches (h : Inv s) (hfile : Touches s s' i) (hj : j ≠ i) {f : FileRef}
    (hf : .file f ∈ (s.proc j).tokens) : (s.file f).Stable (s'.file f) := by
  rcases hfile f with hstable | hzero | ⟨hmine, hone⟩
  · exact hstable
  · have := h.ref_pos hf
    omega
  · have hne : (Sum.inl j : Slot ⊕ FileRef) ≠ .inl i := by simpa using hj
    have hlt : 1 < (s.file f).ref := h.balanced.one_lt hne hf hmine
    omega

/-- A step of the process `i`: the others keep their invariant. -/
theorem of_step (h : Inv s) (i : Slot)
    (hfault : s'.fault = none ∨ s'.fault = some (.panic "init exiting") ∨ s'.fault = some (.panic "iget: no inodes"))
    (hbal : Balanced s'.hold s'.count) (hfile : Touches s s' i) (hfree : ∀ f, (s'.file f).ref = 0 → (s'.file f).type = .none)
    (hcached : Cached s'.inode)
    (hproc : ∀ j, (j ≠ i ∧ s'.proc j = s.proc j) ∨ (s'.proc j).Ok s'.file) (hchildren : Children s'.proc) : Inv s' := by
  refine ⟨hfault, hbal, hfree, hcached, fun j => ?_, hchildren⟩
  rcases hproc j with ⟨hj, heq⟩ | hok
  · rw [heq]
    exact (h.proc j).frame fun f hf => h.stable_of_touches hfile hj hf
  · exact hok

end Inv

/-- A process that is nobody's child in the making changes, and makes no new child. -/
theorem Children.update {proc : Slot → Proc} {i : Slot} {p : Proc} (h : Children proc)
    (hmine : ∀ j k, (proc j).point.child ≠ some (i, k))
    (hnew : ∀ np k, p.point.child = some (np, k) → ∃ l ≤ k, (proc i).point.child = some (np, l)) :
    Children (Function.update proc i p) := by
  have hold : ∀ j np k, (Function.update proc i p j).point.child = some (np, k) →
      ∃ l ≤ k, (proc j).point.child = some (np, l) := by
    intro j np k hj
    by_cases hji : j = i
    · subst hji
      rw [Function.update_self] at hj
      exact hnew np k hj
    · rw [Function.update_of_ne hji] at hj
      exact ⟨k, le_rfl, hj⟩
  refine ⟨fun j np k hj => ?_, fun j j' np k l hj hj' => ?_⟩
  · obtain ⟨l, hl, hchild⟩ := hold j np k hj
    have hne : np ≠ i := by
      rintro rfl
      exact hmine j l hchild
    obtain ⟨hstate, hofile, hcwd⟩ := h.embryo j np l hchild
    rw [Function.update_of_ne hne]
    exact ⟨hstate, fun fd hfd => hofile fd (hl.trans hfd), hcwd⟩
  · obtain ⟨a, -, ha⟩ := hold j np k hj
    obtain ⟨b, -, hb⟩ := hold j' np l hj'
    exact h.parent j j' np a b ha hb

/-- The process `i` is making `np`, which has no descriptor from `k` on; the other children stay as they are. -/
theorem Children.making {proc proc' : Slot → Proc} (h : Children proc) (i np : Slot) (k : ℕ)
    (hchild : ∀ j q l, (proc' j).point.child = some (q, l) →
      j = i ∧ q = np ∧ l = k ∨ j ≠ i ∧ q ≠ np ∧ (proc j).point.child = some (q, l))
    (hnp : (proc' np).state = .embryo ∧ (∀ fd : Fd, k ≤ fd.val → (proc' np).ofile fd = none) ∧ (proc' np).cwd = none)
    (hother : ∀ q, q ≠ np → (proc q).state = .embryo → proc' q = proc q) : Children proc' where
  embryo := by
    intro j q l hl
    rcases hchild j q l hl with ⟨-, rfl, rfl⟩ | ⟨-, hq, hold⟩
    · exact hnp
    · have hembryo := h.embryo j q l hold
      rw [hother q hq hembryo.1]
      exact hembryo
  parent := by
    intro j j' q l m hl hm
    rcases hchild j q l hl with ⟨rfl, rfl, -⟩ | ⟨-, hq, hold⟩
    · rcases hchild j' q m hm with ⟨rfl, -, -⟩ | ⟨-, hq, -⟩
      · rfl
      · exact absurd rfl hq
    · rcases hchild j' q m hm with ⟨-, rfl, -⟩ | ⟨-, -, hold'⟩
      · exact absurd rfl hq
      · exact h.parent j j' q l m hold hold'

namespace Proc

variable {p p' : Proc} {file file' : FileRef → File}

@[simp] theorem closingTokens_nil (h : p.closing = []) : p.closingTokens = 0 := by
  rw [closingTokens, h]
  rfl

theorem closingTokens_cons {c : Closing} {cs : List Closing} (h : p.closing = c :: cs) :
    p.closingTokens = c.tokens + (cs.map Closing.tokens).sum := by
  rw [closingTokens, h, List.map_cons, List.sum_cons]

/-- Other things to give back. -/
theorem count_tokens_closed {c : Closing} {cs : List Closing} (h : p.closing = c :: cs) (cs' : List Closing)
    (t : Token) :
    (p.owe cs').tokens.count t + (c.tokens.count t + (cs.map Closing.tokens).sum.count t) =
      p.tokens.count t + (cs'.map Closing.tokens).sum.count t := by
  have hcongr : (p.owe cs').tokens.count t +
        (p.cwdTokens.count t + p.point.tokens.count t + p.closingTokens.count t) =
      p.tokens.count t +
        (p.cwdTokens.count t + p.point.tokens.count t + (cs'.map Closing.tokens).sum.count t) :=
    count_tokens_congr p (p.owe cs') rfl rfl t
  rw [closingTokens_cons h, Multiset.count_add] at hcongr
  omega

/-- Another point of the system call. -/
theorem Ok.moved (h : p.Ok file) (hrun : p.state = .runnable) (hun : p.point.unsettled = none)
    (hop : p.point.opening = none) (hstate : p'.state = p.state) (hofile : p'.ofile = p.ofile) (hcwd : p'.cwd = p.cwd)
    (hpoint : p'.point.Ok file p'.ofile) : p'.Ok file where
  idle := fun hno => absurd (hstate.trans hrun) hno
  bare := fun hno => by
    rw [hstate, hrun] at hno
    simp at hno
  cwd := fun _ => by
    rw [hcwd]
    exact h.cwd hrun
  typed := fun fd f hf _ => by
    rw [hofile] at hf
    have := h.typed fd f hf (by simp [hun])
    rw [hop] at this
    exact Or.inl (this.resolve_right (by simp))
  point := hpoint

/-- Less to give back. -/
theorem Ok.closed {c : Closing} {cs cs' : List Closing} (h : p.Ok file) (hc : p.closing = c :: cs) :
    (p.owe cs').Ok file where
  idle := fun hno => by
    have := (h.idle hno).1
    rw [hc] at this
    cases this
  bare := h.bare
  cwd := h.cwd
  typed := h.typed
  point := h.point

/-- A process that is giving something back is running. -/
theorem Ok.state_of_closing {c : Closing} {cs : List Closing} (h : p.Ok file) (hc : p.closing = c :: cs) :
    p.state = .runnable := by
  by_contra hno
  have := (h.idle hno).1
  rw [hc] at this
  cases this

end Proc

namespace Inv

variable {s s' : State} {i j : Slot}

theorem crash (h : Inv s) {x : Fault} (hx : x = .panic "init exiting" ∨ x = .panic "iget: no inodes") :
    Inv (s.crash x) where
  fault := Or.inr (hx.imp (congrArg some) (congrArg some))
  balanced := h.balanced
  free := h.free
  cached := h.cached
  proc := h.proc
  children := h.children

/-- A process that is no child in the making. -/
theorem not_child (h : Inv s) (hi : (s.proc i).state ≠ .embryo) (j : Slot) (k : ℕ) :
    (s.proc j).point.child ≠ some (i, k) := fun hj => hi (h.children.embryo j i k hj).1

/-- One process changes, and at most one file with it. -/
theorem own (h : Inv s) {p : Proc} (f : FileRef) (x : File) (hproc : s'.proc = Function.update s.proc i p)
    (hfile : s'.file = Function.update s.file f x)
    (hfault : s'.fault = s.fault)
    (hbal : ∀ t, p.tokens.count t + x.tokens.count t + s.count t =
      (s.proc i).tokens.count t + (s.file f).tokens.count t + s'.count t)
    (htouch : (s.file f).Stable x ∨ (s.file f).ref = 0 ∨ (.file f ∈ (s.proc i).tokens ∧ (s.file f).ref = 1))
    (hfree : x.ref = 0 → x.type = .none)
    (hcached : Cached s'.inode)
    (hok : p.Ok s'.file) (hmine : ∀ j k, (s.proc j).point.child ≠ some (i, k))
    (hnew : ∀ np k, p.point.child = some (np, k) → ∃ l ≤ k, (s.proc i).point.child = some (np, l)) : Inv s' := by
  have hhold : s'.hold = Function.update (Function.update s.hold (.inl i) p.tokens) (.inr f) x.tokens := by
    rw [(s.setProc i p).hold_update_file hproc hfile, State.hold_setProc]
  have hupdate : ∀ g, s'.file g = if g = f then x else s.file g := fun g => by
    rw [hfile, Function.update_apply]
  refine h.of_step i ?_ ?_ ?_ ?_ hcached ?_ ?_
  · rw [hfault]
    exact h.fault
  · rw [hhold]
    exact h.balanced.update₂ (by simp) hbal
  · intro g
    rw [hupdate]
    by_cases hg : g = f
    · subst hg
      rw [if_pos rfl]
      exact htouch
    · rw [if_neg hg]
      exact Or.inl (File.Stable.refl _)
  · intro g
    rw [hupdate]
    by_cases hg : g = f
    · rw [if_pos hg]
      exact hfree
    · rw [if_neg hg]
      exact h.free g
  · intro j
    by_cases hj : j = i
    · subst hj
      refine Or.inr ?_
      rw [hproc, Function.update_self]
      exact hok
    · exact Or.inl ⟨hj, by rw [hproc, Function.update_of_ne hj]⟩
  · rw [hproc]
    exact h.children.update hmine hnew

/-- One process changes, and no file. -/
theorem own_of_file_eq (h : Inv s) {p : Proc} (hproc : s'.proc = Function.update s.proc i p) (hfile : s'.file = s.file)
    (hfault : s'.fault = s.fault)
    (hbal : ∀ t, p.tokens.count t + s.count t = (s.proc i).tokens.count t + s'.count t)
    (hcached : Cached s'.inode)
    (hok : p.Ok s.file) (hmine : ∀ j k, (s.proc j).point.child ≠ some (i, k))
    (hnew : ∀ np k, p.point.child = some (np, k) → ∃ l ≤ k, (s.proc i).point.child = some (np, l)) : Inv s' := by
  have f : FileRef := ⟨0, by decide⟩
  apply h.own f (s.file f) hproc (hfile.trans (Function.update_eq_self f s.file).symm) hfault
  · intro t
    have := hbal t
    omega
  · exact Or.inl (File.Stable.refl _)
  · exact h.free f
  · exact hcached
  · rw [hfile]
    exact hok
  · exact hmine
  · exact hnew

theorem setProc (h : Inv s) {p : Proc} (htokens : ∀ t, p.tokens.count t = (s.proc i).tokens.count t)
    (hok : p.Ok s.file) (hmine : ∀ j k, (s.proc j).point.child ≠ some (i, k))
    (hnew : ∀ np k, p.point.child = some (np, k) → ∃ l ≤ k, (s.proc i).point.child = some (np, l)) :
    Inv (s.setProc i p) := by
  have hproc : (s.setProc i p).proc = Function.update s.proc i p := rfl
  apply h.own_of_file_eq hproc rfl rfl
  · intro t
    rw [htokens, State.count_setProc]
  · exact h.cached
  · exact hok
  · exact hmine
  · exact hnew

/-! ### Giving back -/

theorem fileclose (h : Inv s) {f : FileRef} {cs : List Closing} (hc : (s.proc i).closing = .fileclose f :: cs) :
    Inv (s.fileclose i f cs) := by
  have hmem : Token.file f ∈ (s.proc i).tokens :=
    Proc.mem_tokens_of_closing hc (by rw [Closing.tokens, Multiset.mem_singleton])
  have hpos := h.ref_pos hmem
  have hrun := (h.proc i).state_of_closing hc
  rw [State.fileclose, if_neg (by omega)]
  have hdrop : (s.file f).drop.ref = (s.file f).ref - 1 := rfl
  rw [hdrop]
  split_ifs with hlast
  · -- somebody else has the file too
    have hstable : ∀ g, (s.file g).Stable ((s.setFile f (s.file f).drop).file g) := by
      intro g
      by_cases hg : g = f
      · subst hg
        rw [State.file_setFile_self]
        refine ⟨rfl, rfl, rfl, rfl, rfl, fun hfresh => ?_⟩
        have := hfresh.1
        omega
      · rw [State.file_setFile_of_ne _ hg]
        exact File.Stable.refl _
    refine h.own f (s.file f).drop rfl rfl rfl ?_ ?_ ?_ ?_ ?_ ?_ ?_
    · intro t
      have hproc := Proc.count_tokens_closed hc cs t
      have hcount := s.count_setFile t f (s.file f).drop
      rw [Closing.tokens, Multiset.count_singleton] at hproc
      rw [State.count_owe, State.proc_setFile]
      have htokens : (s.file f).drop.tokens = (s.file f).tokens := rfl
      rw [htokens]
      split_ifs at hproc hcount <;> omega
    · have := hstable f
      rw [State.file_setFile_self] at this
      exact Or.inl this
    · intro hzero
      have : (s.file f).ref - 1 = 0 := hzero
      omega
    · exact h.cached
    · exact ((h.proc i).closed hc).frame fun g _ => hstable g
    · exact h.not_child (by rw [hrun]; simp)
    · exact fun np k hchild => ⟨k, le_rfl, hchild⟩
  · -- the last reference: the tokens of the file pass to the copy
    have hone : (s.file f).ref = 1 := by omega
    have hzeroref : (s.file f).free.ref = 0 := rfl
    have htokens : ∀ t, ((s.proc i).owe (.last (s.file f).drop :: cs)).tokens.count t +
        ({Token.file f} : Multiset Token).count t = (s.proc i).tokens.count t + (s.file f).tokens.count t := by
      intro t
      have hproc := Proc.count_tokens_closed hc (.last (s.file f).drop :: cs) t
      rw [List.map_cons, List.sum_cons, Multiset.count_add] at hproc
      have hlast : (Closing.last (s.file f).drop).tokens = (s.file f).tokens := rfl
      rw [hlast, Closing.tokens] at hproc
      omega
    refine h.own f (s.file f).free rfl rfl rfl ?_ ?_ ?_ ?_ ?_ ?_ ?_
    · intro t
      have hproc := htokens t
      have hcount := s.count_setFile t f (s.file f).free
      rw [Multiset.count_singleton] at hproc
      rw [State.count_owe, State.proc_setFile]
      have hzero : (s.file f).free.tokens = 0 := rfl
      rw [hzero, Multiset.count_zero]
      split_ifs at hproc hcount <;> omega
    · exact Or.inr (Or.inr ⟨hmem, hone⟩)
    · exact fun _ => rfl
    · exact h.cached
    · refine ((h.proc i).closed hc).frame fun g hg => ?_
      have hne : g ≠ f := by
        rintro rfl
        have hproc := htokens (.file g)
        have hle := h.balanced.count_le (.inl i) (.file g)
        have hpos' := Multiset.count_pos.2 hg
        have hle' : (s.proc i).tokens.count (.file g) ≤ (s.file g).ref := hle
        have hnone : (s.file g).tokens.count (.file g) = 0 := by
          rw [File.tokens]
          cases (s.file g).type <;> simp
        rw [Multiset.count_singleton_self] at hproc
        omega
      rw [State.file_owe, State.file_setFile_of_ne _ hne]
      exact File.Stable.refl _
    · exact h.not_child (by rw [hrun]; simp)
    · exact fun np k hchild => ⟨k, le_rfl, hchild⟩

/-- A process gives something back that is no reference to a file. -/
theorem owe (h : Inv s) {c : Closing} {cs cs' : List Closing} (hc : (s.proc i).closing = c :: cs)
    (hproc : s'.proc = Function.update s.proc i ((s.proc i).owe cs')) (hfile : s'.file = s.file)
    (hfault : s'.fault = s.fault)
    (hcount : ∀ t, (cs'.map Closing.tokens).sum.count t + s.count t =
      c.tokens.count t + (cs.map Closing.tokens).sum.count t + s'.count t)
    (hcached : Cached s'.inode) : Inv s' := by
  refine h.own_of_file_eq hproc hfile hfault ?_ hcached ((h.proc i).closed hc) ?_ ?_
  · intro t
    have := Proc.count_tokens_closed hc cs' t
    have := hcount t
    omega
  · exact h.not_child (by rw [(h.proc i).state_of_closing hc]; simp)
  · exact fun np k hchild => ⟨k, le_rfl, hchild⟩

/-- An end that somebody has is open. -/
theorem exists_page (h : Inv s) {k : Slot ⊕ FileRef} {p : Page} {w : Bool} (hmem : .pipeEnd p w ∈ s.hold k) :
    ∃ x, s.page p = some x ∧ (if w then x.writeopen else x.readopen) = true := by
  have hpos : 0 < (pageTokens p (s.page p)).count (.pipeEnd p w) := h.balanced.pos hmem
  cases hpage : s.page p with
  | none =>
    rw [hpage] at hpos
    simp [pageTokens] at hpos
  | some x =>
    refine ⟨x, rfl, ?_⟩
    rw [hpage] at hpos
    rcases x with ⟨_ | _, _ | _⟩ <;> cases w <;> simp [pageTokens] at hpos ⊢

theorem pipeclose (h : Inv s) {ff : File} {cs : List Closing} (hc : (s.proc i).closing = .last ff :: cs)
    (htype : ff.type = .pipe) : Inv (s.pipeclose i ff.pipe ff.writable cs) := by
  have htokens : (Closing.last ff).tokens = {.pipeEnd ff.pipe ff.writable} := by
    rw [Closing.tokens, File.tokens, htype]
  have hmem : Token.pipeEnd ff.pipe ff.writable ∈ s.hold (.inl i) :=
    Proc.mem_tokens_of_closing hc (by rw [htokens, Multiset.mem_singleton])
  obtain ⟨x, hpage, hopen⟩ := h.exists_page hmem
  rw [State.pipeclose, hpage]
  refine h.owe hc rfl rfl rfl ?_ h.cached
  intro t
  have hcount := s.count_setPage t ff.pipe (some (x.close ff.writable))
  have hclose := congrArg (Multiset.count t) (pageTokens_close (p := ff.pipe) hopen)
  rw [Multiset.count_add, Multiset.count_add] at hclose
  rw [State.count_owe, htokens]
  rw [hpage] at hcount
  split_ifs at hclose ⊢ with hboth
  · rw [List.map_cons, List.sum_cons, Multiset.count_add, Closing.tokens]
    omega
  · rw [Multiset.count_zero] at hclose
    omega

theorem kfree (h : Inv s) {p : Page} {cs : List Closing} (hc : (s.proc i).closing = .kfree p :: cs) :
    Inv (s.kfree i p cs) := by
  have hmem : Token.page p ∈ s.hold (.inl i) :=
    Proc.mem_tokens_of_closing hc (by rw [Closing.tokens, Multiset.mem_singleton])
  have hpos : 0 < (pageTokens p (s.page p)).count (.page p) := h.balanced.pos hmem
  cases hpage : s.page p with
  | none =>
    rw [hpage] at hpos
    simp [pageTokens] at hpos
  | some x =>
    have htokens : pageTokens p (some x) = {.page p} := by
      rw [hpage] at hpos
      rcases x with ⟨_ | _, _ | _⟩ <;> simp [pageTokens] at hpos ⊢
    rw [State.kfree, hpage]
    refine h.owe hc rfl rfl rfl ?_ h.cached
    intro t
    have hcount := s.count_setPage t p none
    have hnone : (pageTokens p none).count t = 0 := rfl
    rw [hpage, htokens, hnone] at hcount
    rw [State.count_owe, Closing.tokens]
    omega

/-- Dropping a reference to an inode, which `c` stands for. -/
theorem iput (h : Inv s) {c : Closing} {ip : IRef} {cs : List Closing} (hc : (s.proc i).closing = c :: cs)
    (htokens : c.tokens = {.inode ip}) : Inv (s.iput i ip cs) := by
  have hpos := h.inode_pos (Proc.mem_tokens_of_closing hc (by rw [htokens, Multiset.mem_singleton]))
  rw [State.iput, if_neg (by omega)]
  refine h.owe hc rfl rfl rfl ?_ ?_
  · intro t
    have hcount := s.count_setInode t ip (s.inode ip).drop
    have hdrop : (s.inode ip).drop.ref = (s.inode ip).ref - 1 := rfl
    rw [State.count_owe, htokens, Multiset.count_singleton]
    split_ifs at hcount ⊢ <;> omega
  · exact h.cached.update rfl rfl fun _ => hpos

theorem close (h : Inv s) {c : Closing} {cs : List Closing} (hc : (s.proc i).closing = c :: cs) :
    Inv (s.close i cs c) := by
  cases c with
  | fileclose f => exact h.fileclose hc
  | last ff =>
    rw [State.close]
    cases htype : ff.type with
    | pipe => exact h.pipeclose hc htype
    | inode =>
      refine h.iput hc ?_
      rw [Closing.tokens, File.tokens, htype]
    | none =>
      refine h.owe hc rfl rfl rfl ?_ h.cached
      intro t
      have htokens : (Closing.last ff).tokens = 0 := by rw [Closing.tokens, File.tokens, htype]
      rw [State.count_owe, htokens, Multiset.count_zero, Nat.zero_add]
  | kfree p => exact h.kfree hc
  | iput ip => exact h.iput hc rfl

end Inv

end SystemsProjects.Xv6.Files
