import SystemsProjects.Rpc.AtMostOnce

/-!
# What the replies of the server carry

The one `returnValue` cell of a client is written by the workers of all its gets and read by the main
loop for every retransmission, and a worker answers a put with `0` whatever `put` returned.  `Observed`
is the server with a record of what each executed operation returned; `AnswerOk` says, event by event,
when the cell belongs to the request that is answered, and `repliesCorrect_of_answerOk` that every reply
of such a run carries the value its own request returned.
-/

namespace SystemsProjects.Rpc

/-! ## The values returned by the operations -/

/-- The key is outside the store, as `get` and `put` test it. -/
def OutOfBounds (key : ℤ) : Prop := key > NUMKEYS ∨ key < 0

instance (key : ℤ) : Decidable (OutOfBounds key) := inferInstanceAs (Decidable (_ ∨ _))

/-- The value the operation of a request returns: `get(key)`, or the status of `put(key, value)`;
`idle` returns nothing. -/
def returned (datastore : ℤ → ℤ) (attr : Payload) : Option ℤ :=
  if attr.funcType = 2 then some (get datastore attr.key)
  else if attr.funcType = 3 then some (put datastore attr.key attr.value).1
  else none

/-- The request is for an operation that returns a value. -/
def Returns (p : Payload) : Prop := p.funcType = 2 ∨ p.funcType = 3

/-- The two datagrams are the same request: they differ at most in `ack` and `returnValue`. -/
structure SameRequest (p d : Payload) : Prop where
  funcType : p.funcType = d.funcType
  clientId : p.clientId = d.clientId
  seqNumber : p.seqNumber = d.seqNumber
  time : p.time = d.time
  key : p.key = d.key
  value : p.value = d.value

/-- A request and a reply to it. -/
theorem SameRequest.reply {p d : Payload} (h : SameRequest p d) (ack returnValue : ℤ) :
    SameRequest p { d with ack := ack, returnValue := returnValue } :=
  ⟨h.funcType, h.clientId, h.seqNumber, h.time, h.key, h.value⟩

theorem sameRequest_refl (p : Payload) : SameRequest p p := ⟨rfl, rfl, rfl, rfl, rfl, rfl⟩

/-! ## The server with its results -/

structure Observed where
  server : Server
  /-- The executed requests that return a value, each with the value it returned. -/
  results : List (Payload × ℤ)

def Observed.init (junk : ℤ → Payload) : Observed where
  server := Server.init junk
  results := []

/-- What the next step of a worker adds to the results. -/
def workerResult (datastore : ℤ → ℤ) (w : Worker) : List (Payload × ℤ) :=
  match w.pc with
  | .ready => (returned datastore w.attr).toList.map fun v => (w.attr, v)
  | _ => []

/-- What an event adds to the results. -/
def newResults (s : Server) : ServerEvent → List (Payload × ℤ)
  | .receive _ => []
  | .work i => (s.workers[i]?).toList.flatMap (workerResult s.datastore)

def observe (o : Observed) (e : ServerEvent) : Option Observed :=
  (serverStep o.server e).map fun s => ⟨s, o.results ++ newResults o.server e⟩

/-- A reply carries a result if it answers a get or a put and is not the acknowledgement that the
result is not ready. -/
def CarriesResult (d : Payload) : Prop := Returns d ∧ (d.ack = 1 → d.returnValue ≠ -1)

/-- Every reply that carries a result carries the value that executing its own request returned. -/
def RepliesCorrect (o : Observed) : Prop :=
  ∀ d ∈ o.server.sent, CarriesResult d → ∃ p, SameRequest p d ∧ (p, d.returnValue) ∈ o.results

/-! ## The condition on events -/

/-- The worker is past the write of `returnValue` into the table. -/
def WorkerPc.hasStored : WorkerPc → Bool
  | .ready | .executed _ => false
  | .stored _ | .replied => true

/-- A worker that has stored the result of a get of client `c`. -/
def StoredGet (c : ℤ) (w : Worker) : Prop :=
  w.attr.clientId = c ∧ w.attr.funcType = 2 ∧ w.pc.hasStored = true

/-- The record of the client is the result of the request `attr` with the recorded number. -/
def RecordedFor (s : Server) (attr : Payload) (returnValue : ℤ) : Prop :=
  ∃ w ∈ s.workers, SameRequest w.attr attr ∧
    -- The worker of the get has stored its value.
    (attr.funcType = 2 → w.pc.hasStored = true) ∧
    -- The put is done, and the cell, which no put writes, happens to hold the status of a put.
    (attr.funcType = 3 → w.pc ≠ .ready ∧ ¬ OutOfBounds attr.key ∧ returnValue = 0)

/-- What has to hold, in the state before each event, for the replies to be correct. -/
def AnswerOk (o : Observed) : ServerEvent → Prop
  | .receive attr =>
    let slot := contact o.server.payloadTable attr attr.clientId
    Returns attr → slot.seqNumber = attr.seqNumber → slot.returnValue ≠ -1 →
      RecordedFor o.server attr slot.returnValue
  | .work i => ∀ w, o.server.workers[i]? = some w →
    -- A put that is answered had a key of the store.
    (w.attr.funcType = 3 → w.pc.hasStored = true → ¬ OutOfBounds w.attr.key) ∧
    -- No later get of the client has stored its value before this one does.
    (∀ r, w.pc = .executed r → w.attr.funcType = 2 →
      ∀ v ∈ o.server.workers, StoredGet w.attr.clientId v → v.attr.seqNumber < w.attr.seqNumber)

/-! ## The invariant -/

/-- What is known of the value `v` returned by the request of worker `w`. -/
structure Ran (w : Worker) (v : ℤ) : Prop where
  put : w.attr.funcType = 3 → v = if OutOfBounds w.attr.key then -1 else 0
  getKept : ∀ r, w.pc = .executed r ∨ w.pc = .stored r → w.attr.funcType = 2 → r = v
  putKept : ∀ r, w.pc = .executed r ∨ w.pc = .stored r → w.attr.funcType = 3 → r = 0

structure ReplyInv (o : Observed) : Prop where
  server : ServerInv o.server
  ran : ∀ w ∈ o.server.workers, w.pc ≠ .ready → Returns w.attr →
    ∃ v, (w.attr, v) ∈ o.results ∧ Ran w v
  /-- The cell of a client holds the result of its latest get that has stored one. -/
  cell : ∀ c, ∀ w ∈ o.server.workers, StoredGet c w →
    (∀ v ∈ o.server.workers, StoredGet c v → v.attr.seqNumber ≤ w.attr.seqNumber) →
    (w.attr, (o.server.payloadTable c).returnValue) ∈ o.results
  replies : RepliesCorrect o

theorem replyInv_init (junk : ℤ → Payload) : ReplyInv (Observed.init junk) where
  server := serverInv_init junk
  ran _ h := nomatch h
  cell _ _ h := nomatch h
  replies _ h := nomatch h

variable {s s' : Server} {o : Observed} {attr : Payload}

/-! ### A packet -/

/-- The slot of a client that is in use stays as it is in the first-contact branch. -/
theorem ServerInv.contact_eq (h : ServerInv s) (attr : Payload) {c : ℤ} (hc : InTable c)
    (hused : (s.payloadTable c).clientId = c) : contact s.payloadTable attr c = s.payloadTable c := by
  unfold contact
  split_ifs with hnone
  · by_cases hca : c = attr.clientId
    · subst hca
      exact absurd hused ((h.numClient_eq_none_iff hc).1 hnone)
    · exact Function.update_of_ne hca _ _
  · rfl

/-- The main loop keeps the `returnValue` of every slot in use. -/
theorem ServerInv.mainLoop_returnValue (h : ServerInv s) (hstep : Rpc.mainLoop s attr = some s')
    {c : ℤ}
    (hc : InTable c) (hused : (s.payloadTable c).clientId = c) :
    (s'.payloadTable c).returnValue = (s.payloadTable c).returnValue := by
  have hcontact := h.contact_eq attr hc hused
  simp only [Rpc.mainLoop] at hstep
  split_ifs at hstep
  · obtain rfl := Option.some.inj hstep
    by_cases hca : c = attr.clientId
    · subst hca
      simp [hcontact]
    · simp [hca, hcontact]
  · obtain rfl := Option.some.inj hstep
    simp [hcontact]
  · obtain rfl := Option.some.inj hstep
    simp [hcontact]

/-- The answer to a retransmission is correct when the record belongs to the request. -/
theorem ReplyInv.acknowledge (h : ReplyInv o) (hc : InTable attr.clientId)
    (equal : attr.seqNumber = latest o.server attr.clientId) (hok : AnswerOk o (.receive attr))
    {d : Payload}
    (hd : d = { attr with
      ack := 1
      returnValue := (contact o.server.payloadTable attr attr.clientId).returnValue })
    (hcarries : CarriesResult d) : ∃ p, SameRequest p d ∧ (p, d.returnValue) ∈ o.results := by
  subst hd
  obtain ⟨-, hseq, -⟩ := h.server.contact_spec hc
  obtain ⟨w, hw, hsame, hget, hput⟩ :=
    hok hcarries.1 (hseq.trans equal.symm) (hcarries.2 rfl)
  refine ⟨w.attr, hsame.reply _ _, ?_⟩
  rcases hcarries.1 with htype | htype
  · -- The get is the latest one of its client, so the cell holds its value.
    have hid : w.attr.clientId = attr.clientId := hsame.clientId
    have hused : (o.server.payloadTable attr.clientId).clientId = attr.clientId :=
      hid ▸ (h.server.started w hw).2
    have hcontact : contact o.server.payloadTable attr = o.server.payloadTable := by
      unfold contact
      rw [if_neg fun hnone => (h.server.numClient_eq_none_iff hc).1 hnone hused]
    show (w.attr, (contact o.server.payloadTable attr attr.clientId).returnValue) ∈ _
    rw [hcontact]
    refine h.cell _ w hw ⟨hid, hsame.funcType.trans htype, hget htype⟩ fun v hv hstored => ?_
    have hbehind := h.server.behind v hv
    rw [hstored.1, ← equal, ← hsame.seqNumber] at hbehind
    exact hbehind
  · obtain ⟨hready, hkey, hzero⟩ := hput htype
    have htype' : w.attr.funcType = 3 := hsame.funcType.trans htype
    obtain ⟨v, hv, ran⟩ := h.ran w hw hready (Or.inr htype')
    have hstatus := ran.put htype'
    rw [if_neg (hsame.key ▸ hkey)] at hstatus
    show (w.attr, (contact o.server.payloadTable attr attr.clientId).returnValue) ∈ _
    rw [hzero, ← hstatus]
    exact hv

theorem ReplyInv.receive (h : ReplyInv o) (hok : AnswerOk o (.receive attr))
    (hstep : mainLoop o.server attr = some s') : ReplyInv ⟨s', o.results⟩ := by
  obtain ⟨hc, handled, -, -, -, -⟩ := h.server.mainLoop_spec hstep
  have hold : ∀ w ∈ s'.workers, w ∈ o.server.workers ∨ w.pc = .ready := by
    intro w hw
    cases handled with
    | acknowledge _ _ heq _ | drop _ _ heq _ => exact Or.inl (heq ▸ hw)
    | start _ _ heq _ =>
      rcases List.mem_append.1 (heq ▸ hw) with hw | hw
      · exact Or.inl hw
      · exact Or.inr (by rw [List.mem_singleton.1 hw])
  have hsub : ∀ w ∈ o.server.workers, w ∈ s'.workers := by
    intro w hw
    cases handled with
    | acknowledge _ _ heq _ | drop _ _ heq _ => exact heq ▸ hw
    | start _ _ heq _ => exact heq ▸ List.mem_append_left _ hw
  refine ⟨h.server.mainLoop hstep, fun w hw hready => ?_, fun c w hw hget hlast => ?_, ?_⟩
  · rcases hold w hw with hw | hpc
    · exact h.ran w hw hready
    · exact absurd hpc hready
  · rcases hold w hw with hw | hpc
    · have hstarted := h.server.started w hw
      rw [hget.1] at hstarted
      show (w.attr, (s'.payloadTable c).returnValue) ∈ o.results
      rw [h.server.mainLoop_returnValue hstep hstarted.1 hstarted.2]
      exact h.cell c w hw hget fun v hv => hlast v (hsub v hv)
    · have := hget.2.2
      simp [hpc, WorkerPc.hasStored] at this
  · intro d hd hcarries
    cases handled with
    | start _ _ _ hsent | drop _ _ _ hsent => exact h.replies d (hsent ▸ hd) hcarries
    | acknowledge equal _ _ hsent =>
      rcases List.mem_append.1 (hsent ▸ hd) with hd | hd
      · exact h.replies d hd hcarries
      · exact h.acknowledge hc equal hok (List.mem_singleton.1 hd) hcarries

/-! ### A worker step -/

/-- A worker that has not moved is still there. -/
theorem mem_set_or_eq {l : List Worker} {i : ℕ} {w v : Worker} (hw : l[i]? = some w) (hv : v ∈ l)
    (w' : Worker) : v ∈ l.set i w' ∨ v = w := by
  obtain ⟨j, hj⟩ := List.mem_iff_getElem?.1 hv
  by_cases hij : i = j
  · subst hij
    exact Or.inr (Option.some.inj (hj.symm.trans hw))
  · refine Or.inl (List.mem_iff_getElem?.2 ⟨j, ?_⟩)
    rw [List.getElem?_set_ne hij, hj]

theorem mem_set_self {l : List Worker} {i : ℕ} {w : Worker} (hw : l[i]? = some w) (w' : Worker) :
    w' ∈ l.set i w' :=
  List.mem_set (List.getElem?_eq_some_iff.1 hw).1 w'

/-- The latest stored get among the workers after a step that stores nothing is the latest before. -/
theorem last_of_set {l : List Worker} {i : ℕ} {w : Worker} (hw : l[i]? = some w) {pc : WorkerPc}
    (hpc : w.pc.hasStored = true → pc.hasStored = true) {c n : ℤ}
    (hlast : ∀ v ∈ l.set i ⟨w.attr, pc⟩, StoredGet c v → v.attr.seqNumber ≤ n) :
    ∀ v ∈ l, StoredGet c v → v.attr.seqNumber ≤ n := by
  intro v hv hget
  rcases mem_set_or_eq hw hv ⟨w.attr, pc⟩ with hmem | rfl
  · exact hlast v hmem hget
  · exact hlast ⟨v.attr, pc⟩ (mem_set_self hw _) ⟨hget.1, hget.2.1, hpc hget.2.2⟩

/-- The status of a put depends on its key alone. -/
theorem put_status (datastore : ℤ → ℤ) (key value : ℤ) :
    (put datastore key value).1 = if OutOfBounds key then -1 else 0 := by
  by_cases h : OutOfBounds key
  · have hkey : key > NUMKEYS ∨ key < 0 := h
    rw [if_pos h, put, if_pos hkey]
  · have hkey : ¬ (key > NUMKEYS ∨ key < 0) := h
    rw [if_neg h, put, if_neg hkey]

/-- What `returned` says about the value `execute` keeps. -/
theorem ran_of_returned {datastore : ℤ → ℤ} {v : ℤ} (h : returned datastore attr = some v) :
    Ran ⟨attr, .executed (execute datastore attr).1⟩ v := by
  unfold returned at h
  refine ⟨fun hput => ?_, fun r hr hget => ?_, fun r hr hput => ?_⟩
  · have htype : attr.funcType = 3 := hput
    simp only [htype] at h
    rw [← Option.some.inj h, put_status]
  · have htype : attr.funcType = 2 := hget
    simp only [htype, if_true] at h
    rcases hr with hr | hr
    · rw [← WorkerPc.executed.inj hr, ← Option.some.inj h]
      simp [execute, htype]
    · cases hr
  · have htype : attr.funcType = 3 := hput
    rcases hr with hr | hr
    · rw [← WorkerPc.executed.inj hr]
      simp [execute, htype]
    · cases hr

theorem exists_returned (datastore : ℤ → ℤ) (h : Returns attr) :
    ∃ v, returned datastore attr = some v := by
  unfold returned
  rcases h with h | h
  · exact ⟨_, by rw [if_pos h]⟩
  · refine ⟨(put datastore attr.key attr.value).1, ?_⟩
    simp [h]

/-- The operation is executed: its value is recorded. -/
theorem ReplyInv.execute (h : ReplyInv o) {i : ℕ} {w : Worker} (hw : o.server.workers[i]? = some w)
    (hpc : w.pc = .ready) (hserver : ServerInv s')
    (hworkers : s'.workers = o.server.workers.set i
      ⟨w.attr, .executed (Rpc.execute o.server.datastore w.attr).1⟩)
    (htable : s'.payloadTable = o.server.payloadTable) (hsent : s'.sent = o.server.sent) :
    ReplyInv ⟨s', o.results ++ workerResult o.server.datastore w⟩ := by
  refine ⟨hserver, fun v hv hready hreturns => ?_, fun c v hv hget hlast => ?_, ?_⟩
  · rcases List.mem_or_eq_of_mem_set (hworkers ▸ hv) with hv | rfl
    · obtain ⟨x, hx, ran⟩ := h.ran v hv hready hreturns
      exact ⟨x, List.mem_append_left _ hx, ran⟩
    · obtain ⟨x, hx⟩ := exists_returned o.server.datastore hreturns
      refine ⟨x, List.mem_append_right _ ?_, ran_of_returned hx⟩
      simp [workerResult, hpc, hx]
  · rcases List.mem_or_eq_of_mem_set (hworkers ▸ hv) with hv | rfl
    · refine List.mem_append_left _ ?_
      show (v.attr, (s'.payloadTable c).returnValue) ∈ o.results
      rw [htable]
      refine h.cell c v hv hget (last_of_set hw ?_ fun u hu => hlast u (hworkers ▸ hu))
      simp [hpc, WorkerPc.hasStored]
    · exact absurd hget.2.2 (by simp [WorkerPc.hasStored])
  · intro d hd hcarries
    obtain ⟨p, hsame, hp⟩ := h.replies d (hsent ▸ hd) hcarries
    exact ⟨p, hsame, List.mem_append_left _ hp⟩

/-- The result of a get is stored: no later get has stored one before it. -/
theorem ReplyInv.store (h : ReplyInv o) {i : ℕ} {w : Worker} (hw : o.server.workers[i]? = some w)
    {r : ℤ} (hpc : w.pc = .executed r) (hserver : ServerInv s')
    (hlater : w.attr.funcType = 2 → ∀ v ∈ o.server.workers, StoredGet w.attr.clientId v →
      v.attr.seqNumber < w.attr.seqNumber)
    (hworkers : s'.workers = o.server.workers.set i ⟨w.attr, .stored r⟩)
    (htable : ∀ c, (s'.payloadTable c).returnValue =
      if w.attr.funcType = 2 ∧ c = w.attr.clientId then r
      else (o.server.payloadTable c).returnValue)
    (hsent : s'.sent = o.server.sent) : ReplyInv ⟨s', o.results⟩ := by
  have hmem := List.mem_of_getElem? hw
  refine ⟨hserver, fun v hv hready hreturns => ?_, fun c v hv hget hlast => ?_, ?_⟩
  · rcases List.mem_or_eq_of_mem_set (hworkers ▸ hv) with hv | rfl
    · exact h.ran v hv hready hreturns
    · obtain ⟨x, hx, ran⟩ := h.ran w hmem (by simp [hpc]) hreturns
      refine ⟨x, hx, ran.put, fun r' hr' => ?_, fun r' hr' => ?_⟩
      all_goals
        obtain rfl : r = r' := by simpa using hr'
      · exact ran.getKept r (Or.inl hpc)
      · exact ran.putKept r (Or.inl hpc)
  · show (v.attr, (s'.payloadTable c).returnValue) ∈ o.results
    rw [htable]
    split_ifs with hcell
    · -- The value is that of `w`, and only `w` can be the latest get that has stored.
      obtain ⟨htype, rfl⟩ := hcell
      obtain ⟨x, hx, ran⟩ := h.ran w hmem (by simp [hpc]) (Or.inl htype)
      have hval := ran.getKept r (Or.inl hpc) htype
      rcases List.mem_or_eq_of_mem_set (hworkers ▸ hv) with hv | rfl
      · have hlt := hlater htype v hv hget
        have hle := hlast ⟨w.attr, .stored r⟩ (hworkers ▸ mem_set_self hw _) ⟨rfl, htype, rfl⟩
        exact absurd hlt (not_lt.2 hle)
      · rw [hval]
        exact hx
    · rcases List.mem_or_eq_of_mem_set (hworkers ▸ hv) with hv | rfl
      · refine h.cell c v hv hget (last_of_set hw ?_ fun u hu => hlast u (hworkers ▸ hu))
        simp [WorkerPc.hasStored]
      · exact absurd ⟨hget.2.1, hget.1.symm⟩ hcell
  · intro d hd hcarries
    exact h.replies d (hsent ▸ hd) hcarries

/-- The worker replies with the value it kept. -/
theorem ReplyInv.reply (h : ReplyInv o) {i : ℕ} {w : Worker} (hw : o.server.workers[i]? = some w)
    {r : ℤ} (hpc : w.pc = .stored r) (hserver : ServerInv s')
    (hkey : w.attr.funcType = 3 → ¬ OutOfBounds w.attr.key)
    (hworkers : s'.workers = o.server.workers.set i ⟨w.attr, .replied⟩)
    (htable : s'.payloadTable = o.server.payloadTable)
    (hsent : s'.sent = o.server.sent ++ [{ w.attr with ack := 0, returnValue := r }]) :
    ReplyInv ⟨s', o.results⟩ := by
  have hmem := List.mem_of_getElem? hw
  refine ⟨hserver, fun v hv hready hreturns => ?_, fun c v hv hget hlast => ?_, ?_⟩
  · rcases List.mem_or_eq_of_mem_set (hworkers ▸ hv) with hv | rfl
    · exact h.ran v hv hready hreturns
    · obtain ⟨x, hx, ran⟩ := h.ran w hmem (by simp [hpc]) hreturns
      exact ⟨x, hx, ran.put, fun r' hr' => by simp at hr', fun r' hr' => by simp at hr'⟩
  · show (v.attr, (s'.payloadTable c).returnValue) ∈ o.results
    rw [htable]
    have hlast' : ∀ u ∈ o.server.workers, StoredGet c u → u.attr.seqNumber ≤ v.attr.seqNumber :=
      last_of_set hw (by simp [WorkerPc.hasStored]) fun u hu => hlast u (hworkers ▸ hu)
    rcases List.mem_or_eq_of_mem_set (hworkers ▸ hv) with hv | rfl
    · exact h.cell c v hv hget hlast'
    · exact h.cell c w hmem ⟨hget.1, hget.2.1, by rw [hpc]; rfl⟩ hlast'
  · intro d hd hcarries
    rcases List.mem_append.1 (hsent ▸ hd) with hd | hd
    · exact h.replies d hd hcarries
    · obtain rfl := List.mem_singleton.1 hd
      obtain ⟨x, hx, ran⟩ := h.ran w hmem (by simp [hpc]) hcarries.1
      refine ⟨w.attr, (sameRequest_refl _).reply _ _, ?_⟩
      show (w.attr, r) ∈ o.results
      have hval : r = x := by
        rcases hcarries.1 with htype | htype
        · exact ran.getKept r (Or.inr hpc) htype
        · rw [ran.putKept r (Or.inr hpc) htype, ran.put htype, if_neg (hkey htype)]
      rw [hval]
      exact hx

theorem ReplyInv.work (h : ReplyInv o) {i : ℕ} (hok : AnswerOk o (.work i))
    (hstep : work o.server i = some s') : ReplyInv ⟨s', o.results ++ newResults o.server (.work i)⟩ := by
  have hserver := h.server.work hstep
  obtain ⟨w, hw, hstep⟩ := Option.bind_eq_some_iff.1 hstep
  have hnew : newResults o.server (.work i) = workerResult o.server.datastore w := by
    simp [newResults, hw]
  obtain ⟨hkey, hlater⟩ := hok w hw
  rw [hnew]
  unfold workStep at hstep
  cases hpc : w.pc with
  | replied => simp [hpc] at hstep
  | ready =>
    simp only [hpc, Option.some.injEq] at hstep
    subst hstep
    exact h.execute hw hpc hserver rfl rfl rfl
  | executed r =>
    simp only [hpc, Option.some.injEq] at hstep
    have hnone : workerResult o.server.datastore w = [] := by simp [workerResult, hpc]
    rw [hnone, List.append_nil]
    subst hstep
    refine h.store hw hpc hserver (hlater r hpc) rfl (fun c => ?_) rfl
    by_cases htype : w.attr.funcType = 2
    · by_cases hc : c = w.attr.clientId
      · subst hc
        simp [htype]
      · simp [htype, hc]
    · simp [htype]
  | stored r =>
    simp only [hpc, Option.some.injEq] at hstep
    have hnone : workerResult o.server.datastore w = [] := by simp [workerResult, hpc]
    rw [hnone, List.append_nil]
    subst hstep
    exact h.reply hw hpc hserver (fun htype => hkey htype (by rw [hpc]; rfl)) rfl rfl rfl

/-! ## Runs -/

theorem ReplyInv.step {o' : Observed} {e : ServerEvent} (h : ReplyInv o) (hok : AnswerOk o e)
    (hstep : observe o e = some o') : ReplyInv o' := by
  obtain ⟨s', hs', rfl⟩ := Option.map_eq_some_iff.1 hstep
  cases e with
  | receive attr =>
    have := h.receive hok hs'
    simpa [newResults] using this
  | work i => exact h.work hok hs'

/-- In every run of the server whose events all meet `AnswerOk`, every reply that carries a result
carries the value that executing its own request returned. -/
theorem repliesCorrect_of_answerOk (junk : ℤ → Payload) (es : List ServerEvent) (o : Observed)
    (hok : Trace.Along observe AnswerOk (Observed.init junk) es)
    (reached : Trace.run observe (Observed.init junk) es = some o) : RepliesCorrect o :=
  (Trace.run_invariant (fun _ _ _ h hok hstep => h.step hok hstep) (replyInv_init junk) hok
    reached).replies

/-! ## Two runs of one client -/

/-- The put and the get of key 5 of client 7 are executed and answered. -/
def answered : List ServerEvent :=
  [.receive putFive, .work 0, .work 0, .work 0, .receive getFive, .work 1, .work 1, .work 1]

theorem answerOk_work {i : ℕ} {w : Worker} (hw : o.server.workers[i]? = some w)
    (hkey : w.attr.funcType = 3 → w.pc.hasStored = true → ¬ OutOfBounds w.attr.key)
    (hlater : ∀ r, w.pc = .executed r → w.attr.funcType = 2 →
      ∀ v ∈ o.server.workers, StoredGet w.attr.clientId v →
        v.attr.seqNumber < w.attr.seqNumber) : AnswerOk o (.work i) := by
  intro v hv
  obtain rfl := Option.some.inj (hw.symm.trans hv)
  exact ⟨hkey, hlater⟩

/-- The get of key 5 is retransmitted after it was answered. -/
theorem answered_answerOk :
    Trace.Along observe AnswerOk (Observed.init zeros) (answered ++ [.receive getFive]) := by
  refine Trace.along_cons_of_eq (fun _ h => absurd h (by decide)) rfl ?_
  refine Trace.along_cons_of_eq ?_ rfl ?_
  · exact answerOk_work rfl (fun _ h => absurd h (by decide)) fun _ h => nomatch h
  refine Trace.along_cons_of_eq ?_ rfl ?_
  · exact answerOk_work rfl (fun _ h => absurd h (by decide)) fun _ _ h => absurd h (by decide)
  refine Trace.along_cons_of_eq ?_ rfl ?_
  · exact answerOk_work rfl (fun _ _ => by decide) fun _ h => nomatch h
  refine Trace.along_cons_of_eq (fun _ h => absurd h (by decide)) rfl ?_
  refine Trace.along_cons_of_eq ?_ rfl ?_
  · exact answerOk_work rfl (fun h => absurd h (by decide)) fun _ h => nomatch h
  refine Trace.along_cons_of_eq ?_ rfl ?_
  · refine answerOk_work rfl (fun h => absurd h (by decide)) fun _ _ _ v hv hget => ?_
    -- Only the put has been answered so far.
    rcases List.mem_cons.1 hv with rfl | hv
    · exact absurd hget.2.1 (by decide)
    · rw [List.mem_singleton.1 hv] at hget
      exact absurd hget.2.2 (by decide)
  refine Trace.along_cons_of_eq ?_ rfl ?_
  · exact answerOk_work rfl (fun h => absurd h (by decide)) fun _ h => nomatch h
  refine Trace.along_cons_of_eq (fun _ _ _ => ?_) rfl trivial
  exact ⟨⟨getFive, .replied⟩, by decide, sameRequest_refl _, fun _ => rfl,
    fun h => absurd h (by decide)⟩

theorem repliesCorrect_answered :
    ∃ o, Trace.run observe (Observed.init zeros) (answered ++ [.receive getFive]) = some o ∧
      RepliesCorrect o ∧ { getFive with ack := 1, returnValue := 9 } ∈ o.server.sent :=
  ⟨_, rfl, repliesCorrect_of_answerOk zeros _ _ answered_answerOk rfl, by decide⟩

/-- After the get of key 5, the get of key 6 is received twice before its worker runs: the
acknowledgement carries the value of key 5. -/
theorem not_repliesCorrect_staleRecord :
    ∃ o, Trace.run observe (Observed.init zeros)
      (answered ++ [.receive getSix, .receive getSix]) = some o ∧ ¬ RepliesCorrect o := by
  refine ⟨_, rfl, fun h => ?_⟩
  obtain ⟨p, hsame, hp⟩ := h { getSix with ack := 1, returnValue := 9 } (by decide)
    ⟨Or.inl rfl, fun _ => by decide⟩
  -- The results are those of the put and of the get of key 5.
  have hresults : (p, (9 : ℤ)) ∈ [(putFive, (0 : ℤ)), (getFive, 9)] := hp
  rcases List.mem_cons.1 hresults with heq | hmem
  · cases heq
  · obtain rfl : p = getFive := (Prod.ext_iff.1 (List.mem_singleton.1 hmem)).1
    exact absurd hsame.key (by decide)

end SystemsProjects.Rpc
