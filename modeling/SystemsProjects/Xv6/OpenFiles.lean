import SystemsProjects.Xv6.References

/-!
# Descriptors and open files

What a system call does to the files, the descriptors and the working directory of its own process keeps the
invariant of `References`.
-/

namespace SystemsProjects.Xv6.Files

open Ledger

/-- A process that runs and has nothing to give back. -/
structure State.At (s : State) (i : Slot) (pt : Point) : Prop where
  state : (s.proc i).state = .runnable
  closing : (s.proc i).closing = []
  point : (s.proc i).point = pt

/-- The process does not notice a change of another one. -/
theorem State.At.congr {s s' : State} {i : Slot} {pt : Point} (h : s.At i pt) (hproc : s'.proc i = s.proc i) :
    s'.At i pt := ⟨hproc ▸ h.state, hproc ▸ h.closing, hproc ▸ h.point⟩

/-- Every reference that the process holds is counted. -/
structure Point.Settled (pt : Point) : Prop where
  unsettled : pt.unsettled = none
  opening : pt.opening = none
  leaves : pt.leaves = false

theorem State.At.settled {s : State} {i : Slot} {pt : Point} (h : s.At i pt) (hset : pt.Settled) :
    (s.proc i).point.Settled := h.point ▸ hset

namespace Proc

variable {p p' : Proc} {file : FileRef → File}

theorem entry_of_settled {fd : Fd} (h : p.point.unsettled ≠ some fd) :
    p.entry fd = (p.ofile fd).elim 0 fun f => {.file f} := if_neg h

theorem entry_of_unsettled {fd : Fd} (h : p.point.unsettled = some fd) : p.entry fd = 0 := if_pos h

/-- A change of one descriptor. -/
theorem count_tokens_fd (p p' : Proc) (fd : Fd) (hun : p.point.unsettled = none ∨ p.point.unsettled = some fd)
    (hun' : p'.point.unsettled = none ∨ p'.point.unsettled = some fd)
    (hofile : ∀ fd', fd' ≠ fd → p'.ofile fd' = p.ofile fd') (hcwd : p'.cwdTokens = p.cwdTokens) (t : Token) :
    p'.tokens.count t + ((p.entry fd).count t + p.point.tokens.count t + p.closingTokens.count t) =
      p.tokens.count t + ((p'.entry fd).count t + p'.point.tokens.count t + p'.closingTokens.count t) := by
  have hne : ∀ {q : Proc}, q.point.unsettled = none ∨ q.point.unsettled = some fd →
      ∀ fd', fd' ≠ fd → q.point.unsettled ≠ some fd' := by
    intro q hq fd' hfd' heq
    rcases hq with hq | hq
    · rw [hq] at heq
      cases heq
    · rw [hq] at heq
      exact hfd' (Option.some.inj heq).symm
  have hchange := count_tokens_change p p' fd (fun fd' hfd' => by
    rw [entry_of_settled (hne hun' fd' hfd'), entry_of_settled (hne hun fd' hfd'), hofile fd' hfd']) t
  rw [hcwd] at hchange
  omega

theorem count_tokens_ret (hclosing : p.closing = []) (hun : p.point.unsettled = none) (hl : p.point.leaves = false)
    (cs : List Closing) (v : ℤ) (t : Token) :
    (p.ret cs v).tokens.count t + p.point.tokens.count t =
      p.tokens.count t + (cs.map Closing.tokens).sum.count t := by
  have hcwd : (p.ret cs v).cwdTokens = p.cwdTokens := by
    rw [cwdTokens, cwdTokens, hl]
    rfl
  have hcongr := count_tokens_congr p (p.ret cs v) hun.symm rfl t
  have hpoint : (p.ret cs v).point.tokens = 0 := rfl
  have hret : (p.ret cs v).closingTokens = (cs.map Closing.tokens).sum := rfl
  rw [hcwd, hpoint, hret, closingTokens_nil hclosing, Multiset.count_zero] at hcongr
  omega

theorem count_tokens_goto (hset : p.point.Settled) (pt : Point) (hun : pt.unsettled = none) (hl : pt.leaves = false)
    (t : Token) :
    (p.goto pt).tokens.count t + p.point.tokens.count t = p.tokens.count t + pt.tokens.count t := by
  have hcwd : (p.goto pt).cwdTokens = p.cwdTokens := by
    have hgoto : (p.goto pt).point.leaves = false := hl
    rw [cwdTokens, cwdTokens, hset.leaves, hgoto]
    rfl
  have hcongr := count_tokens_congr p (p.goto pt) (hun.trans hset.unsettled.symm) rfl t
  have hpoint : (p.goto pt).point = pt := rfl
  have hret : (p.goto pt).closingTokens = p.closingTokens := rfl
  rw [hcwd, hpoint, hret] at hcongr
  omega

theorem Ok.ret (h : p.Ok file) (hrun : p.state = .runnable) (hset : p.point.Settled) (cs : List Closing) (v : ℤ) :
    (p.ret cs v).Ok file :=
  h.moved hrun hset.unsettled hset.opening rfl rfl rfl trivial

theorem Ok.goto (h : p.Ok file) (hrun : p.state = .runnable) (hset : p.point.Settled) {pt : Point}
    (hpt : pt.Ok file p.ofile) : (p.goto pt).Ok file :=
  h.moved hrun hset.unsettled hset.opening rfl rfl rfl hpt

/-- `proc->ofile[fd0] = 0` in `sys_pipe`. -/
theorem setFd_setFd_none {fd : Fd} {f : Option FileRef} (h : p.ofile fd = none) : (p.setFd fd f).setFd fd none = p := by
  have hofile : Function.update (Function.update p.ofile fd f) fd none = p.ofile := by
    rw [Function.update_idem, ← h, Function.update_eq_self]
  cases p
  simp only [setFd] at hofile ⊢
  rw [hofile]

/-- What a descriptor of a process between two parts of a system call refers to. -/
theorem Ok.type_ne (h : p.Ok file) (hset : p.point.Settled) {fd : Fd} {f : FileRef} (hf : p.ofile fd = some f) :
    (file f).type ≠ .none := by
  have := h.typed fd f hf (by rw [hset.unsettled]; simp)
  rw [hset.opening] at this
  exact this.resolve_right (by simp)

end Proc

/-- `filedup` of a file that has been used already. -/
theorem File.stable_dup {x : File} (htype : x.type ≠ .none) : x.Stable x.dup :=
  ⟨rfl, rfl, rfl, rfl, rfl, fun hfresh => absurd hfresh.2 htype⟩

theorem ofile_of_argfd {ofile : Fd → Option FileRef} {n : ℤ} {fd : Fd} {f : FileRef} (h : argfd ofile n = some (fd, f)) :
    ofile fd = some f := by
  rw [argfd] at h
  split_ifs at h with hn
  obtain ⟨g, hg, heq⟩ := Option.map_eq_some_iff.1 h
  obtain ⟨rfl, rfl⟩ := Prod.mk.inj heq
  exact hg

theorem ofile_of_fdalloc {ofile : Fd → Option FileRef} {fd : Fd} (h : fdalloc ofile = some fd) : ofile fd = none :=
  Option.isNone_iff_eq_none.1 (by simpa using List.find?_some h)

theorem ref_of_filealloc {s : State} {f : FileRef} (h : s.filealloc = some f) : (s.file f).ref = 0 := by
  simpa using List.find?_some h

/-- A process goes on at a point that holds the same. -/
theorem State.balanced_goto {s : State} (h : Balanced s.hold s.count) (i : Slot) (pt : Point)
    (hset : (s.proc i).point.Settled) (hun : pt.unsettled = none) (hl : pt.leaves = false)
    (htokens : pt.tokens = (s.proc i).point.tokens) :
    Balanced (s.goto i pt).hold (s.goto i pt).count := by
  rw [State.goto, State.hold_setProc, State.count_setProc]
  refine h.update fun t => ?_
  have hgoto := Proc.count_tokens_goto hset pt hun hl t
  have hhold : s.hold (.inl i) = (s.proc i).tokens := rfl
  rw [htokens] at hgoto
  rw [hhold]
  omega

namespace Inv

variable {s s' : State} {i : Slot} {pt : Point}

theorem not_mine (h : Inv s) (hat : s.At i pt) : ∀ j k, (s.proc j).point.child ≠ some (i, k) :=
  h.not_child (by rw [hat.state]; simp)

theorem ret (h : Inv s) (hat : s.At i pt) (hset : pt.Settled) (cs : List Closing)
    (hcs : pt.tokens = (cs.map Closing.tokens).sum) (v : ℤ) : Inv (s.ret i cs v) := by
  rw [← hat.point] at hset hcs
  refine h.setProc ?_ ((h.proc i).ret hat.state hset cs v) (h.not_mine hat) ?_
  · intro t
    have hcount := Proc.count_tokens_ret hat.closing hset.unsettled hset.leaves cs v t
    rw [hcs] at hcount
    omega
  · intro np k hchild
    cases hchild

theorem goto (h : Inv s) (hat : s.At i pt) (hset : pt.Settled) (pt' : Point) (hun : pt'.unsettled = none)
    (hl : pt'.leaves = false) (htokens : pt'.tokens = pt.tokens) (hok : pt'.Ok s.file (s.proc i).ofile)
    (hnew : ∀ np k, pt'.child = some (np, k) → ∃ l ≤ k, pt.child = some (np, l)) : Inv (s.goto i pt') := by
  rw [← hat.point] at hset htokens hnew
  refine h.setProc ?_ ((h.proc i).goto hat.state hset hok) (h.not_mine hat) hnew
  intro t
  have hcount := Proc.count_tokens_goto hset _ hun hl t
  rw [htokens] at hcount
  omega

/-! ### Files -/

theorem fresh_alloc (h : Inv s) {f : FileRef} (hf : s.filealloc = some f) :
    ((s.setFile f (s.file f).alloc).file f).Fresh := by
  rw [State.file_setFile_self]
  exact ⟨rfl, h.free f (ref_of_filealloc hf)⟩

theorem filealloc (h : Inv s) (hat : s.At i pt) (hset : pt.Settled) {f : FileRef} (hf : s.filealloc = some f)
    (pt' : Point) (hun : pt'.unsettled = none) (hl : pt'.leaves = false) (htokens : pt'.tokens = pt.tokens + {.file f})
    (hok : pt'.Ok (s.setFile f (s.file f).alloc).file (s.proc i).ofile) (hchild : pt'.child = none) :
    Inv ((s.setFile f (s.file f).alloc).goto i pt') := by
  rw [← hat.point] at hset htokens
  have hzero := ref_of_filealloc hf
  have hone : (s.file f).alloc.ref = 1 := rfl
  refine h.own f (s.file f).alloc rfl rfl rfl ?_ (Or.inr (Or.inl hzero)) ?_ h.cached ?_ (h.not_mine hat) ?_
  · intro t
    have hcount := s.count_setFile t f (s.file f).alloc
    have hgoto := Proc.count_tokens_goto hset _ hun hl t
    have halloc : (s.file f).alloc.tokens = (s.file f).tokens := rfl
    rw [htokens, Multiset.count_add, Multiset.count_singleton] at hgoto
    rw [State.count_goto, State.proc_setFile, halloc]
    split_ifs at hcount hgoto <;> omega
  · intro hno
    omega
  · refine Proc.Ok.goto (((h.proc i)).frame fun g hg => ?_) hat.state hset hok
    have hne : g ≠ f := by
      rintro rfl
      have := h.ref_pos hg
      omega
    rw [State.file_goto, State.file_setFile_of_ne _ hne]
    exact File.Stable.refl _
  · intro np k hk
    have hk' : pt'.child = some (np, k) := hk
    rw [hchild] at hk'
    cases hk'

theorem stable_dup {f : FileRef} (htype : (s.file f).type ≠ .none) (g : FileRef) :
    (s.file g).Stable ((s.setFile f (s.file f).dup).file g) := by
  by_cases hg : g = f
  · subst hg
    rw [State.file_setFile_self]
    exact File.stable_dup htype
  · rw [State.file_setFile_of_ne _ hg]
    exact File.Stable.refl _

/-! ### Descriptors -/

/-- A change of one descriptor. -/
theorem fd (h : Inv s) (hat : s.At i pt) (fd : Fd) {p : Proc} (hstate : p.state = (s.proc i).state)
    (hcwd : p.cwd = (s.proc i).cwd) (hl : pt.leaves = false) (hl' : p.point.leaves = false)
    (hun : pt.unsettled = none ∨ pt.unsettled = some fd) (hun' : p.point.unsettled = none ∨ p.point.unsettled = some fd)
    (hop : pt.opening = none) (hofile : ∀ fd', fd' ≠ fd → p.ofile fd' = (s.proc i).ofile fd')
    (htokens : p.entry fd + p.point.tokens + p.closingTokens = (s.proc i).entry fd + pt.tokens)
    (hself : ∀ f, p.ofile fd = some f → p.point.unsettled ≠ some fd →
      (s.file f).type ≠ .none ∨ p.point.opening = some (f, fd))
    (hok : p.point.Ok s.file p.ofile) (hchild : p.point.child = none) : Inv (s.setProc i p) := by
  rw [← hat.point] at hl hun hop htokens
  have hrun : p.state = .runnable := hstate.trans hat.state
  refine h.setProc ?_ ?_ (h.not_mine hat) ?_
  · intro t
    have hcwd' : p.cwdTokens = (s.proc i).cwdTokens := by rw [Proc.cwdTokens, Proc.cwdTokens, hl, hl', hcwd]
    have hcount := Proc.count_tokens_fd (s.proc i) p fd hun hun' hofile hcwd' t
    have hsame := congrArg (Multiset.count t) htokens
    rw [Multiset.count_add, Multiset.count_add, Multiset.count_add] at hsame
    rw [Proc.closingTokens_nil hat.closing, Multiset.count_zero] at hcount
    omega
  · refine ⟨fun hno => absurd hrun hno, fun hno => ?_, fun _ => ?_, fun fd' f hf hset => ?_, hok⟩
    · rw [hrun] at hno
      simp at hno
    · rw [hcwd]
      exact (h.proc i).cwd hat.state
    · by_cases hfd : fd' = fd
      · subst hfd
        exact hself f hf hset
      · rw [hofile fd' hfd] at hf
        have hold : (s.proc i).point.unsettled ≠ some fd' := by
          rcases hun with hun | hun <;> rw [hun]
          · simp
          · simpa using Ne.symm hfd
        have := (h.proc i).typed fd' f hf hold
        rw [hop] at this
        exact Or.inl (this.resolve_right (by simp))
  · intro np k hk
    rw [hchild] at hk
    cases hk

theorem sys_dup (h : Inv s) (hat : s.At i .user) {n : ℤ} {fd0 fd : Fd} {f : FileRef}
    (harg : argfd (s.proc i).ofile n = some (fd0, f)) (hfd : fdalloc (s.proc i).ofile = some fd) :
    Inv (s.setProc i (((s.proc i).setFd fd (some f)).goto (.dup f fd))) := by
  have hfd0 := ofile_of_argfd harg
  have hnone := ofile_of_fdalloc hfd
  have hother : ∀ fd', fd' ≠ fd → (((s.proc i).setFd fd (some f)).goto (.dup f fd)).ofile fd' = (s.proc i).ofile fd' :=
    fun fd' hfd' => Function.update_of_ne hfd' _ _
  have hne : fd0 ≠ fd := by
    rintro rfl
    rw [hfd0] at hnone
    cases hnone
  refine h.fd hat fd rfl rfl rfl rfl (Or.inl rfl) (Or.inr rfl) rfl hother ?_ ?_ ?_ rfl
  · have hbefore : (s.proc i).entry fd = 0 := by
      rw [Proc.entry_of_settled (by rw [hat.point]; simp [Point.unsettled]), hnone]
      rfl
    have hclosing : (((s.proc i).setFd fd (some f)).goto (.dup f fd)).closingTokens = 0 :=
      Proc.closingTokens_nil hat.closing
    rw [hbefore, hclosing, Proc.entry_of_unsettled rfl]
    rfl
  · exact fun g _ hno => absurd rfl hno
  · exact ⟨Function.update_self .., fd0, hne, (hother fd0 hne).trans hfd0⟩

/-- The end of `sys_dup`. -/
theorem filedup (h : Inv s) {f : FileRef} {fd : Fd} (hat : s.At i (.dup f fd)) :
    Inv (s.filedup f fun s => s.ret i [] fd) := by
  have hpoint := (h.proc i).point
  rw [hat.point] at hpoint
  obtain ⟨hf, fd0, hne, hfd0⟩ := hpoint
  have hfd0' : (s.proc i).point.unsettled ≠ some fd0 := by
    rw [hat.point]
    simpa [Point.unsettled] using hne.symm
  have hpos := h.ref_pos (Proc.mem_tokens_of_entry hfd0 hfd0')
  have htype : (s.file f).type ≠ .none := by
    have := (h.proc i).typed fd0 f hfd0 hfd0'
    rw [hat.point] at this
    exact this.resolve_right (by simp [Point.opening])
  rw [State.filedup, if_neg (by omega)]
  have hdup : (s.file f).dup.ref = (s.file f).ref + 1 := rfl
  have hstable := stable_dup htype f
  rw [State.file_setFile_self] at hstable
  refine h.own f (s.file f).dup rfl rfl rfl ?_ (Or.inl hstable) ?_ h.cached ?_ (h.not_mine hat) ?_
  · intro t
    have hcwd : ((s.proc i).ret [] fd).cwdTokens = (s.proc i).cwdTokens := by
      rw [Proc.cwdTokens, Proc.cwdTokens, hat.point]
      rfl
    have hcount := Proc.count_tokens_fd (s.proc i) ((s.proc i).ret [] fd) fd (Or.inr (by rw [hat.point]; rfl))
      (Or.inl rfl) (fun _ _ => rfl) hcwd t
    have hafter : ((s.proc i).ret [] fd).entry fd = {.file f} := by
      rw [Proc.entry_of_settled (by simp [Proc.ret, Point.unsettled])]
      exact congrArg (fun o : Option FileRef => o.elim 0 fun f => ({.file f} : Multiset Token)) hf
    have hclosing : ((s.proc i).ret [] fd).closingTokens = 0 := rfl
    have hpt : ((s.proc i).ret [] fd).point.tokens = 0 := rfl
    have hpt' : (s.proc i).point.tokens = 0 := by rw [hat.point]; rfl
    rw [hafter, hclosing, hpt, hpt', Proc.entry_of_unsettled (by rw [hat.point]; rfl),
      Proc.closingTokens_nil hat.closing, Multiset.count_singleton, Multiset.count_zero] at hcount
    have hfile := s.count_setFile t f (s.file f).dup
    have htokens : (s.file f).dup.tokens = (s.file f).tokens := rfl
    rw [State.count_ret, State.proc_setFile, htokens]
    split_ifs at hfile hcount <;> omega
  · intro hno
    omega
  · refine (show ((s.proc i).ret [] fd).Ok s.file from ?_).frame fun g _ => stable_dup htype g
    refine ⟨fun hno => absurd hat.state hno, fun hno => ?_, fun _ => (h.proc i).cwd hat.state, fun fd' g hg _ => ?_,
      trivial⟩
    · have hstate : ((s.proc i).ret [] fd).state = .runnable := hat.state
      rw [hstate] at hno
      simp at hno
    · by_cases hfd' : fd' = fd
      · subst hfd'
        have : some f = some g := hf.symm.trans hg
        rw [Option.some.inj this] at htype
        exact Or.inl htype
      · have := (h.proc i).typed fd' g hg (by rw [hat.point]; simpa [Point.unsettled] using Ne.symm hfd')
        rw [hat.point] at this
        exact Or.inl (this.resolve_right (by simp [Point.opening]))
  · intro np k hchild
    cases hchild

theorem sys_close (h : Inv s) (hat : s.At i .user) {n : ℤ} {fd : Fd} {f : FileRef}
    (harg : argfd (s.proc i).ofile n = some (fd, f)) :
    Inv (s.setProc i (((s.proc i).setFd fd none).ret [.fileclose f] 0)) := by
  have hf := ofile_of_argfd harg
  refine h.fd hat fd rfl rfl rfl rfl (Or.inl rfl) (Or.inl rfl) rfl (fun fd' hfd' => Function.update_of_ne hfd' _ _) ?_ ?_
    trivial rfl
  · have hbefore : (s.proc i).entry fd = {.file f} := by
      rw [Proc.entry_of_settled (by rw [hat.point]; simp [Point.unsettled]), hf]
      rfl
    have hafter : (((s.proc i).setFd fd none).ret [.fileclose f] 0).entry fd = 0 := by
      rw [Proc.entry_of_settled (by simp [Proc.ret, Point.unsettled])]
      simp [Proc.ret, Proc.setFd]
    rw [hbefore, hafter]
    rfl
  · intro g hg
    simp [Proc.ret, Proc.setFd] at hg

theorem openFd (h : Inv s) {ip : IRef} {omode : BitVec 32} {f : FileRef} (hat : s.At i (.openFd ip omode f)) {fd : Fd}
    (hfd : fdalloc (s.proc i).ofile = some fd) :
    Inv (s.setProc i (((s.proc i).setFd fd (some f)).goto (.openSet ip omode f fd))) := by
  have hpoint := (h.proc i).point
  rw [hat.point] at hpoint
  have hnone := ofile_of_fdalloc hfd
  refine h.fd hat fd rfl rfl rfl rfl (Or.inl rfl) (Or.inl rfl) rfl (fun fd' hfd' => Function.update_of_ne hfd' _ _) ?_ ?_
    ⟨hpoint, Function.update_self ..⟩ rfl
  · have hbefore : (s.proc i).entry fd = 0 := by
      rw [Proc.entry_of_settled (by rw [hat.point]; simp [Point.unsettled]), hnone]
      rfl
    have hafter : (((s.proc i).setFd fd (some f)).goto (.openSet ip omode f fd)).entry fd = {.file f} := by
      rw [Proc.entry_of_settled (by simp [Proc.goto, Point.unsettled])]
      simp [Proc.goto, Proc.setFd]
    have hclosing : (((s.proc i).setFd fd (some f)).goto (.openSet ip omode f fd)).closingTokens = 0 :=
      Proc.closingTokens_nil hat.closing
    rw [hbefore, hafter, hclosing]
    simp only [Proc.goto, Point.tokens, add_zero, zero_add]
    exact add_comm _ _
  · intro g hg _
    have hself : (((s.proc i).setFd fd (some f)).goto (.openSet ip omode f fd)).ofile fd = some f :=
      Function.update_self ..
    rw [hself] at hg
    obtain rfl := Option.some.inj hg
    exact Or.inr rfl

/-- The body of the loop of `exit`. -/
theorem exitFd (h : Inv s) {k : ℕ} (hk : k < NOFILE) (hat : s.At i (.exit k)) {f : FileRef}
    (hf : (s.proc i).ofile ⟨k, hk⟩ = some f) :
    Inv (s.setProc i (((s.proc i).goto (.clear ⟨k, hk⟩)).owe [.fileclose f])) := by
  have hpoint := (h.proc i).point
  rw [hat.point] at hpoint
  refine h.fd hat ⟨k, hk⟩ rfl rfl rfl rfl (Or.inl rfl) (Or.inr rfl) rfl (fun _ _ => rfl) ?_ ?_ hpoint rfl
  · have hbefore : (s.proc i).entry ⟨k, hk⟩ = {.file f} := by
      rw [Proc.entry_of_settled (by rw [hat.point]; simp [Point.unsettled]), hf]
      rfl
    rw [hbefore, Proc.entry_of_unsettled rfl]
    rfl
  · exact fun g _ hno => absurd rfl hno

/-- `proc->ofile[fd] = 0` in `exit`. -/
theorem clear (h : Inv s) {fd : Fd} (hat : s.At i (.clear fd)) :
    Inv (s.setProc i (((s.proc i).setFd fd none).goto (.exit (fd + 1)))) := by
  have hpoint := (h.proc i).point
  rw [hat.point] at hpoint
  have hself : (((s.proc i).setFd fd none).goto (.exit (fd + 1))).ofile fd = none := Function.update_self ..
  have hother : ∀ fd', fd' ≠ fd → (((s.proc i).setFd fd none).goto (.exit (fd + 1))).ofile fd' = (s.proc i).ofile fd' :=
    fun fd' hfd' => Function.update_of_ne hfd' _ _
  refine h.fd hat fd rfl rfl rfl rfl (Or.inr rfl) (Or.inl rfl) rfl hother ?_ ?_ ?_ rfl
  · have hafter : (((s.proc i).setFd fd none).goto (.exit (fd + 1))).entry fd = 0 := by
      rw [Proc.entry_of_settled (by simp [Proc.goto, Point.unsettled]), hself]
      rfl
    have hclosing : (((s.proc i).setFd fd none).goto (.exit (fd + 1))).closingTokens = 0 :=
      Proc.closingTokens_nil hat.closing
    rw [hafter, hclosing, Proc.entry_of_unsettled (by rw [hat.point]; rfl)]
    rfl
  · intro g hg
    rw [hself] at hg
    cases hg
  · intro fd' hlt
    by_cases hfd' : fd' = fd
    · rw [hfd']
      exact hself
    · rw [hother fd' hfd']
      have hne : fd'.val ≠ fd.val := fun heq => hfd' (Fin.ext heq)
      exact hpoint fd' (by omega)

/-- The two `fdalloc` of `sys_pipe`. -/
theorem pipeFd (h : Inv s) {rf wf : FileRef} (hat : s.At i (.pipeFd rf wf)) {fd0 fd1 : Fd}
    (hfd0 : fdalloc (s.proc i).ofile = some fd0) (hfd1 : fdalloc ((s.proc i).setFd fd0 (some rf)).ofile = some fd1) :
    Inv (s.setProc i (((((s.proc i).setFd fd0 (some rf)).setFd fd1 (some wf)).setFds fd0 fd1).ret [] 0)) := by
  have hpoint := (h.proc i).point
  rw [hat.point] at hpoint
  have hnone0 := ofile_of_fdalloc hfd0
  have hnone1 := ofile_of_fdalloc hfd1
  have hself0 : ((s.proc i).setFd fd0 (some rf)).ofile fd0 = some rf := Function.update_self ..
  have hother0 : ∀ fd', fd' ≠ fd0 → ((s.proc i).setFd fd0 (some rf)).ofile fd' = (s.proc i).ofile fd' :=
    fun fd' hfd' => Function.update_of_ne hfd' _ _
  have hun : (s.proc i).point.unsettled = none := by rw [hat.point]; rfl
  have hun1 : ((s.proc i).setFd fd0 (some rf)).point.unsettled = none := hun
  obtain ⟨p, hp⟩ : ∃ p, p = ((((s.proc i).setFd fd0 (some rf)).setFd fd1 (some wf)).setFds fd0 fd1).ret [] 0 := ⟨_, rfl⟩
  have hofile : p.ofile = Function.update ((s.proc i).setFd fd0 (some rf)).ofile fd1 (some wf) := by rw [hp]; rfl
  have hppoint : p.point = .user := by rw [hp]; rfl
  have hself1 : p.ofile fd1 = some wf := by rw [hofile, Function.update_self]
  have hother1 : ∀ fd', fd' ≠ fd1 → p.ofile fd' = ((s.proc i).setFd fd0 (some rf)).ofile fd' := fun fd' hfd' => by
    rw [hofile, Function.update_of_ne hfd']
  rw [← hp]
  refine h.setProc ?_ ?_ (h.not_mine hat) ?_
  · intro t
    have hcwd0 : ((s.proc i).setFd fd0 (some rf)).cwdTokens = (s.proc i).cwdTokens := rfl
    have hcwd1 : p.cwdTokens = ((s.proc i).setFd fd0 (some rf)).cwdTokens := by
      rw [hcwd0, Proc.cwdTokens, Proc.cwdTokens, hat.point, hppoint, hp]
      rfl
    have hcount0 := Proc.count_tokens_fd (s.proc i) ((s.proc i).setFd fd0 (some rf)) fd0 (Or.inl hun) (Or.inl hun1) hother0
      hcwd0 t
    have hcount1 := Proc.count_tokens_fd ((s.proc i).setFd fd0 (some rf)) p fd1 (Or.inl hun1)
      (Or.inl (by rw [hppoint]; rfl)) hother1 hcwd1 t
    have hentry0 : (s.proc i).entry fd0 = 0 := by
      rw [Proc.entry_of_settled (by rw [hun]; simp), hnone0]
      rfl
    have hentry0' : ((s.proc i).setFd fd0 (some rf)).entry fd0 = {.file rf} := by
      rw [Proc.entry_of_settled (by rw [hun1]; simp), hself0]
      rfl
    have hentry1 : ((s.proc i).setFd fd0 (some rf)).entry fd1 = 0 := by
      rw [Proc.entry_of_settled (by rw [hun1]; simp), hnone1]
      rfl
    have hentry1' : p.entry fd1 = {.file wf} := by
      rw [Proc.entry_of_settled (by rw [hppoint]; simp [Point.unsettled]), hself1]
      rfl
    have hpt : ((s.proc i).setFd fd0 (some rf)).point.tokens = (s.proc i).point.tokens := rfl
    have hcl : ((s.proc i).setFd fd0 (some rf)).closingTokens = 0 := Proc.closingTokens_nil hat.closing
    have hcl' : p.closingTokens = 0 := by
      rw [hp]
      rfl
    rw [hentry0, hentry0', hpt, hcl, Proc.closingTokens_nil hat.closing] at hcount0
    rw [hentry1, hentry1', hpt, hcl, hcl', hppoint, hat.point, Point.tokens, Multiset.count_add] at hcount1
    have hzero : Multiset.count t (Point.tokens .user) = 0 := Multiset.count_zero t
    rw [hzero] at hcount1
    simp only [Multiset.count_zero] at hcount0 hcount1
    omega
  · have hstate : p.state = .runnable := by rw [hp]; exact hat.state
    refine ⟨fun hno => absurd hstate hno, fun hno => ?_, fun _ => ?_, fun fd' g hg _ => Or.inl ?_, by rw [hppoint]; trivial⟩
    · rw [hstate] at hno
      simp at hno
    · rw [hp]
      exact (h.proc i).cwd hat.state
    · by_cases hfd1' : fd' = fd1
      · rw [hfd1', hself1] at hg
        rw [← Option.some.inj hg]
        exact hpoint.2
      · rw [hother1 fd' hfd1'] at hg
        by_cases hfd0' : fd' = fd0
        · rw [hfd0', hself0] at hg
          rw [← Option.some.inj hg]
          exact hpoint.1
        · rw [hother0 fd' hfd0'] at hg
          exact (h.proc i).type_ne (hat.settled ⟨rfl, rfl, rfl⟩) hg
  · intro np k hchild
    rw [hppoint] at hchild
    cases hchild

/-- The end of `sys_open`. -/
theorem openSet (h : Inv s) {ip : IRef} {omode : BitVec 32} {f : FileRef} {fd : Fd}
    (hat : s.At i (.openSet ip omode f fd)) :
    Inv ((s.setFile f ((s.file f).toInode ip omode)).ret i [] fd) := by
  have hpoint := (h.proc i).point
  rw [hat.point] at hpoint
  obtain ⟨hfresh, hf⟩ := hpoint
  have hun : (s.proc i).point.unsettled = none := by rw [hat.point]; rfl
  have hmem := Proc.mem_tokens_of_entry hf (by rw [hun]; simp)
  have hstate : ((s.proc i).ret [] fd).state = .runnable := hat.state
  refine h.own f ((s.file f).toInode ip omode) rfl rfl rfl ?_ (Or.inr (Or.inr ⟨hmem, hfresh.1⟩)) ?_ h.cached ?_
    (h.not_mine hat) ?_
  · intro t
    have hret := Proc.count_tokens_ret hat.closing hun (by rw [hat.point]; rfl) [] fd t
    have hfile := s.count_setFile t f ((s.file f).toInode ip omode)
    have href : ((s.file f).toInode ip omode).ref = (s.file f).ref := rfl
    have hbefore : (s.file f).tokens = 0 := by rw [File.tokens, hfresh.2]
    have hafter : ((s.file f).toInode ip omode).tokens = {.inode ip} := rfl
    have hpt : (s.proc i).point.tokens = {.inode ip} := by rw [hat.point]; rfl
    rw [hpt, List.map_nil, List.sum_nil, Multiset.count_zero] at hret
    rw [href] at hfile
    rw [State.count_ret, State.proc_setFile, hbefore, hafter, Multiset.count_zero]
    omega
  · intro hno
    have href : ((s.file f).toInode ip omode).ref = (s.file f).ref := rfl
    rw [href, hfresh.1] at hno
    cases hno
  · refine ⟨fun hno => absurd hstate hno, fun hno => ?_, fun _ => (h.proc i).cwd hat.state, fun fd' g hg _ => Or.inl ?_,
      trivial⟩
    · rw [State.proc_setFile, hstate] at hno
      simp at hno
    · rw [State.file_ret]
      by_cases hgf : g = f
      · rw [hgf, State.file_setFile_self]
        simp [File.toInode]
      · rw [State.file_setFile_of_ne _ hgf]
        have := (h.proc i).typed fd' g hg (by rw [hun]; simp)
        rw [hat.point] at this
        refine this.resolve_right fun heq => hgf ?_
        exact (Prod.mk.inj (Option.some.inj heq)).1.symm
  · intro np k hchild
    cases hchild

/-- The files of a new pipe are two. -/
theorem ne_of_pipePage (h : Inv s) {f0 f1 : FileRef} (hat : s.At i (.pipePage f0 f1)) : f1 ≠ f0 := by
  rintro rfl
  have hpoint := (h.proc i).point
  rw [hat.point] at hpoint
  have htokens : (s.proc i).point.tokens = {.file f1} + {.file f1} := by rw [hat.point]; rfl
  have hle : (s.proc i).tokens.count (.file f1) ≤ (s.file f1).ref := h.balanced.count_le (.inl i) (.file f1)
  have htwo := Proc.count_tokens (s.proc i) (.file f1)
  rw [htokens, Multiset.count_add, Multiset.count_singleton_self] at htwo
  have := hpoint.1.1
  omega

theorem file_fillPipe_left {f0 f1 : FileRef} (hne : f1 ≠ f0) (p : Page) :
    (s.fillPipe f0 f1 p).file f0 = (s.file f0).toPipe p false := by
  rw [State.fillPipe, State.file_setFile_of_ne _ hne.symm, State.file_setFile_self]

theorem file_fillPipe_right {f0 f1 : FileRef} (hne : f1 ≠ f0) (p : Page) :
    (s.fillPipe f0 f1 p).file f1 = (s.file f1).toPipe p true := by
  rw [State.fillPipe, State.file_setFile_self, State.file_setFile_of_ne _ hne]
  rfl

theorem file_fillPipe_of_ne {f0 f1 g : FileRef} (hg0 : g ≠ f0) (hg1 : g ≠ f1) (p : Page) :
    (s.fillPipe f0 f1 p).file g = s.file g := by
  rw [State.fillPipe, State.file_setFile_of_ne _ hg1, State.file_setFile_of_ne _ hg0]
  rfl

/-- The two ends pass to the files. -/
theorem balanced_fillPipe (h : Inv s) {f0 f1 : FileRef} (hne : f1 ≠ f0) (hfresh0 : (s.file f0).Fresh)
    (hfresh1 : (s.file f1).Fresh) {p : Page} (hpage : s.page p = none) :
    Balanced (s.fillPipe f0 f1 p).hold (s.fillPipe f0 f1 p).count := by
  have hhold : (s.fillPipe f0 f1 p).hold = Function.update (Function.update s.hold (.inr f0)
      ((s.file f0).toPipe p false).tokens) (.inr f1) ((s.file f1).toPipe p true).tokens := by
    rw [State.fillPipe, State.hold_setFile, State.hold_setFile, State.hold_setPage, State.file_setFile_of_ne _ hne]
    rfl
  have hbefore : ∀ {f}, (s.file f).Fresh → s.hold (.inr f) = 0 := fun {f} hf => by
    have : s.hold (.inr f) = (s.file f).tokens := rfl
    rw [this, File.tokens, hf.2]
  have hs1 : ((s.setPage p (some ⟨true, true⟩)).setFile f0 ((s.file f0).toPipe p false)).file f1 = s.file f1 := by
    rw [State.file_setFile_of_ne _ hne]
    rfl
  have hends : pageTokens p (some ⟨true, true⟩) = {.pipeEnd p false} + {.pipeEnd p true} := by simp [pageTokens]
  rw [hhold]
  refine h.balanced.update₂ (by simpa using hne.symm) fun t => ?_
  have hcount0 := s.count_setPage t p (some ⟨true, true⟩)
  have hcount1 := (s.setPage p (some ⟨true, true⟩)).count_setFile t f0 ((s.file f0).toPipe p false)
  have hcount2 := ((s.setPage p (some ⟨true, true⟩)).setFile f0 ((s.file f0).toPipe p false)).count_setFile t f1
    ((s.file f1).toPipe p true)
  have href0 : ((s.file f0).toPipe p false).ref = (s.file f0).ref := rfl
  have href1 : ((s.file f1).toPipe p true).ref = (s.file f1).ref := rfl
  have hs0 : (s.setPage p (some ⟨true, true⟩)).file f0 = s.file f0 := rfl
  have hnone : (pageTokens p none).count t = 0 := rfl
  have ht0 : ((s.file f0).toPipe p false).tokens = {.pipeEnd p false} := rfl
  have ht1 : ((s.file f1).toPipe p true).tokens = {.pipeEnd p true} := rfl
  rw [hpage, hnone, hends, Multiset.count_add] at hcount0
  rw [hs0, href0] at hcount1
  rw [hs1, href1] at hcount2
  rw [hbefore hfresh0, hbefore hfresh1, Multiset.count_zero, ht0, ht1, State.fillPipe, hs1]
  omega

/-- Nobody else has the files of a new pipe. -/
theorem touches_fillPipe (h : Inv s) {f0 f1 : FileRef} (hat : s.At i (.pipePage f0 f1)) (p : Page) (pt : Point) :
    Touches s ((s.fillPipe f0 f1 p).goto i pt) i := by
  have hpoint := (h.proc i).point
  rw [hat.point] at hpoint
  have htokens : (s.proc i).point.tokens = {.file f0} + {.file f1} := by rw [hat.point]; rfl
  intro g
  rw [State.file_goto]
  by_cases hg0 : g = f0
  · subst hg0
    exact Or.inr (Or.inr ⟨Proc.mem_tokens_of_point (by rw [htokens]; simp), hpoint.1.1⟩)
  · by_cases hg1 : g = f1
    · subst hg1
      exact Or.inr (Or.inr ⟨Proc.mem_tokens_of_point (by rw [htokens]; simp), hpoint.2.1⟩)
    · rw [file_fillPipe_of_ne hg0 hg1]
      exact Or.inl (File.Stable.refl _)

/-- The process after `pipealloc`. -/
theorem ok_pipeFd (h : Inv s) {f0 f1 : FileRef} (hat : s.At i (.pipePage f0 f1)) (hne : f1 ≠ f0) (p : Page) :
    ((s.proc i).goto (.pipeFd f0 f1)).Ok (s.fillPipe f0 f1 p).file := by
  have hstate : ((s.proc i).goto (.pipeFd f0 f1)).state = .runnable := hat.state
  refine ⟨fun hno => absurd hstate hno, fun hno => ?_, fun _ => (h.proc i).cwd hat.state,
    fun fd g hg _ => Or.inl ?_, ?_, ?_⟩
  · rw [hstate] at hno
    simp at hno
  · by_cases hg0 : g = f0
    · rw [hg0, file_fillPipe_left hne]
      simp [File.toPipe]
    · by_cases hg1 : g = f1
      · rw [hg1, file_fillPipe_right hne]
        simp [File.toPipe]
      · rw [file_fillPipe_of_ne hg0 hg1]
        exact (h.proc i).type_ne (hat.settled ⟨rfl, rfl, rfl⟩) hg
  · rw [file_fillPipe_left hne]
    simp [File.toPipe]
  · rw [file_fillPipe_right hne]
    simp [File.toPipe]

/-- The pipe in `pipealloc`. -/
theorem fillPipe (h : Inv s) {f0 f1 : FileRef} (hat : s.At i (.pipePage f0 f1)) {p : Page} (hpage : s.page p = none) :
    Inv ((s.fillPipe f0 f1 p).goto i (.pipeFd f0 f1)) := by
  have hpoint := (h.proc i).point
  rw [hat.point] at hpoint
  obtain ⟨hfresh0, hfresh1⟩ := hpoint
  have hne := h.ne_of_pipePage hat
  have htokens : (s.proc i).point.tokens = (Point.pipeFd f0 f1).tokens := by rw [hat.point]; rfl
  refine h.of_step i h.fault ?_ (h.touches_fillPipe hat p _) ?_ h.cached ?_ ?_
  · have hset : ((s.fillPipe f0 f1 p).proc i).point.Settled := hat.settled ⟨rfl, rfl, rfl⟩
    exact State.balanced_goto (h.balanced_fillPipe hne hfresh0 hfresh1 hpage) i _ hset rfl rfl htokens.symm
  · intro g hzero
    rw [State.file_goto] at hzero ⊢
    by_cases hg0 : g = f0
    · rw [hg0, file_fillPipe_left hne] at hzero
      have : (s.file f0).ref = 0 := hzero
      rw [hfresh0.1] at this
      cases this
    · by_cases hg1 : g = f1
      · rw [hg1, file_fillPipe_right hne] at hzero
        have : (s.file f1).ref = 0 := hzero
        rw [hfresh1.1] at this
        cases this
      · rw [file_fillPipe_of_ne hg0 hg1] at hzero ⊢
        exact h.free g hzero
  · intro j
    by_cases hj : j = i
    · subst hj
      refine Or.inr ?_
      have hproc : ((s.fillPipe f0 f1 p).goto j (.pipeFd f0 f1)).proc j = (s.proc j).goto (.pipeFd f0 f1) :=
        Function.update_self ..
      rw [hproc, State.file_goto]
      exact h.ok_pipeFd hat hne p
    · exact Or.inl ⟨hj, Function.update_of_ne hj _ _⟩
  · exact h.children.update (h.not_mine hat) fun np k hchild => by cases hchild

/-! ### Working directories -/

/-- The descriptors stay as they are. -/
theorem move (h : Inv s) (hat : s.At i pt) {p : Proc} (hun : pt.unsettled = none) (hun' : p.point.unsettled = none)
    (hofile : p.ofile = (s.proc i).ofile)
    (htokens : p.cwdTokens + p.point.tokens + p.closingTokens = (s.proc i).cwdTokens + pt.tokens) (hok : p.Ok s.file)
    (hchild : p.point.child = none) : Inv (s.setProc i p) := by
  rw [← hat.point] at hun htokens
  refine h.setProc ?_ hok (h.not_mine hat) ?_
  · intro t
    have hcongr := Proc.count_tokens_congr (s.proc i) p (hun'.trans hun.symm) hofile t
    have hsame := congrArg (Multiset.count t) htokens
    rw [Multiset.count_add, Multiset.count_add, Multiset.count_add] at hsame
    rw [Proc.closingTokens_nil hat.closing, Multiset.count_zero] at hcongr
    omega
  · intro np k hk
    rw [hchild] at hk
    cases hk

theorem cwdTokens_of_at (hat : s.At i pt) (hl : pt.leaves = false) {ip : IRef} (hcwd : (s.proc i).cwd = some ip) :
    (s.proc i).cwdTokens = {.inode ip} := by
  rw [Proc.cwdTokens, hat.point, hl, hcwd]
  rfl

theorem cwdTokens_of_leaves (hat : s.At i pt) (hl : pt.leaves = true) : (s.proc i).cwdTokens = 0 := by
  rw [Proc.cwdTokens, hat.point, hl]
  rfl

/-- `iput(proc->cwd)` in `exit`. -/
theorem exitIput (h : Inv s) {k : ℕ} (hk : ¬k < NOFILE) (hat : s.At i (.exit k)) {ip : IRef}
    (hcwd : (s.proc i).cwd = some ip) : Inv (s.setProc i (((s.proc i).goto .exitCwd).owe [.iput ip])) := by
  have hpoint := (h.proc i).point
  rw [hat.point] at hpoint
  refine h.move hat rfl rfl rfl ?_ ?_ rfl
  · rw [cwdTokens_of_at hat rfl hcwd]
    have hafter : (((s.proc i).goto .exitCwd).owe [.iput ip]).cwdTokens = 0 := rfl
    rw [hafter]
    rfl
  · refine (h.proc i).moved hat.state (by rw [hat.point]; rfl) (by rw [hat.point]; rfl) rfl rfl rfl ?_
    exact fun fd => hpoint fd (lt_of_lt_of_le fd.isLt (not_lt.1 hk))

/-- The end of `exit`. -/
theorem zombie (h : Inv s) (hat : s.At i .exitCwd) :
    Inv ((s.setProc i ((((s.proc i).setCwd none).setState .zombie).goto .user)).abandon i) := by
  have hpoint := (h.proc i).point
  rw [hat.point] at hpoint
  have hset : Inv (s.setProc i ((((s.proc i).setCwd none).setState .zombie).goto .user)) := by
    refine h.move hat rfl rfl rfl ?_ ?_ rfl
    · rw [cwdTokens_of_leaves hat rfl]
      have hclosing : ((((s.proc i).setCwd none).setState .zombie).goto .user).closingTokens = 0 :=
        Proc.closingTokens_nil hat.closing
      rw [hclosing]
      rfl
    · refine ⟨fun _ => ⟨hat.closing, rfl⟩, fun _ => ⟨hpoint, rfl⟩, fun hno => ?_, fun fd f hf _ => ?_, trivial⟩
      · cases hno
      · cases (hpoint fd).symm.trans hf
  exact ⟨hset.fault, hset.balanced, hset.free, hset.cached, hset.proc, hset.children⟩

/-- `iput(proc->cwd)` in `sys_chdir`. -/
theorem chdir (h : Inv s) {ip old : IRef} (hat : s.At i (.chdir ip)) (hcwd : (s.proc i).cwd = some old) :
    Inv (s.setProc i (((s.proc i).goto (.setCwd ip)).owe [.iput old])) := by
  refine h.move hat rfl rfl rfl ?_ ?_ rfl
  · rw [cwdTokens_of_at hat rfl hcwd]
    have hafter : (((s.proc i).goto (.setCwd ip)).owe [.iput old]).cwdTokens = 0 := rfl
    have hclosing : (((s.proc i).goto (.setCwd ip)).owe [.iput old]).closingTokens = {.inode old} := rfl
    rw [hafter, hclosing, zero_add]
    exact add_comm _ _
  · exact (h.proc i).moved hat.state (by rw [hat.point]; rfl) (by rw [hat.point]; rfl) rfl rfl rfl trivial

/-- `proc->cwd = ip` in `sys_chdir`. -/
theorem setCwd (h : Inv s) {ip : IRef} (hat : s.At i (.setCwd ip)) :
    Inv (s.setProc i (((s.proc i).setCwd (some ip)).ret [] 0)) := by
  have hstate : (((s.proc i).setCwd (some ip)).ret [] 0).state = .runnable := hat.state
  refine h.move hat rfl rfl rfl ?_ ?_ rfl
  · rw [cwdTokens_of_leaves hat rfl]
    have hafter : (((s.proc i).setCwd (some ip)).ret [] 0).cwdTokens = {.inode ip} := rfl
    have hclosing : (((s.proc i).setCwd (some ip)).ret [] 0).closingTokens = 0 := rfl
    rw [hafter, hclosing, add_zero]
    exact add_comm _ _
  · refine ⟨fun hno => absurd hstate hno, fun hno => ?_, fun _ => rfl, fun fd f hf _ => ?_, trivial⟩
    · rw [hstate] at hno
      simp at hno
    · have := (h.proc i).typed fd f hf (by rw [hat.point]; simp [Point.unsettled])
      rw [hat.point] at this
      exact Or.inl (this.resolve_right (by simp [Point.opening]))

end Inv

end SystemsProjects.Xv6.Files
