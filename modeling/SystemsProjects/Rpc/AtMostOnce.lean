import Mathlib.Algebra.Order.Ring.Int
import Mathlib.Data.List.Nodup
import SystemsProjects.Rpc.Server

/-!
# At-most-once execution

The table slot of a client is written only under the client's own id and its sequence number never
decreases, so the workers started for one client carry strictly increasing sequence numbers, whatever
packets arrive and in whatever order the workers run.
-/

namespace SystemsProjects.Rpc

/-- The sequence number recorded for client `c`; `0` before the first contact. -/
def latest (s : Server) (c : ℤ) : ℤ :=
  if (s.payloadTable c).clientId = c then (s.payloadTable c).seqNumber else 0

/-- Client ids that have a table slot. -/
def InTable (c : ℤ) : Prop := 0 ≤ c ∧ c < (TABLE_SIZE : ℤ)

/-- The sequence numbers of the workers started for client `c`, in order of start. -/
def startedFor (s : Server) (c : ℤ) : List ℤ :=
  (s.workers.filter fun w => w.attr.clientId = c).map fun w => w.attr.seqNumber

/-- The invariant of the server: a slot in use belongs to the client of its index, and no worker of
a client is ahead of the number recorded for it. -/
structure ServerInv (s : Server) : Prop where
  slot : ∀ c, InTable c → (s.payloadTable c).clientId = -1 ∨ (s.payloadTable c).clientId = c
  started : ∀ w ∈ s.workers, InTable w.attr.clientId ∧
    (s.payloadTable w.attr.clientId).clientId = w.attr.clientId
  behind : ∀ w ∈ s.workers, w.attr.seqNumber ≤ latest s w.attr.clientId
  increasing : ∀ c, (startedFor s c).Pairwise (· < ·)

theorem serverInv_init (junk : ℤ → Payload) : ServerInv (Server.init junk) where
  slot _ _ := Or.inl rfl
  started _ hw := nomatch hw
  behind _ hw := nomatch hw
  increasing _ := by simp [startedFor, Server.init]

variable {s s' : Server} {attr : Payload}

/-- The search finds a slot exactly when the client's own slot is in use. -/
theorem ServerInv.numClient_eq_none_iff (h : ServerInv s) {c : ℤ} (hc : InTable c) :
    numClient s.payloadTable c = none ↔ (s.payloadTable c).clientId ≠ c := by
  simp only [numClient, List.find?_eq_none, List.mem_range, decide_eq_true_eq]
  constructor
  · intro hnone
    have := hnone c.toNat (by unfold InTable at hc; omega)
    rwa [Int.toNat_of_nonneg hc.1] at this
  · intro hfree i hi heq
    have hi' : InTable (i : ℤ) := ⟨by omega, by exact_mod_cast hi⟩
    rcases h.slot i hi' with hslot | hslot
    · unfold InTable at hc
      omega
    · obtain rfl : (i : ℤ) = c := hslot.symm.trans heq
      exact hfree heq

/-- After the first-contact branch the client's slot is in use and holds the recorded number; the
other slots are untouched. -/
theorem ServerInv.contact_spec (h : ServerInv s) (hc : InTable attr.clientId) :
    (contact s.payloadTable attr attr.clientId).clientId = attr.clientId ∧
    (contact s.payloadTable attr attr.clientId).seqNumber = latest s attr.clientId ∧
    ∀ d, d ≠ attr.clientId → contact s.payloadTable attr d = s.payloadTable d := by
  unfold contact latest
  by_cases hused : (s.payloadTable attr.clientId).clientId = attr.clientId
  · have hfound : ¬ numClient s.payloadTable attr.clientId = none := fun hnone =>
      (h.numClient_eq_none_iff hc).1 hnone hused
    rw [if_neg hfound, if_pos hused]
    exact ⟨hused, rfl, fun _ _ => rfl⟩
  · rw [if_pos ((h.numClient_eq_none_iff hc).2 hused), if_neg hused]
    refine ⟨?_, ?_, fun d hd => Function.update_of_ne hd _ _⟩ <;> rw [Function.update_self]

/-! ## One packet -/

/-- What the main loop may do with a packet of client `c`, by its sequence number. -/
inductive Handled (s : Server) (attr : Payload) (s' : Server) : Prop
  /-- A newer number is recorded and one worker is started for the packet. -/
  | start (newer : latest s attr.clientId < attr.seqNumber)
      (recorded : latest s' attr.clientId = attr.seqNumber)
      (workers : s'.workers = s.workers ++ [⟨attr, .ready⟩]) (sent : s'.sent = s.sent)
  /-- The recorded number is acknowledged and nothing else happens. -/
  | acknowledge (equal : attr.seqNumber = latest s attr.clientId)
      (recorded : latest s' attr.clientId = latest s attr.clientId)
      (workers : s'.workers = s.workers)
      (sent : s'.sent = s.sent ++ [{ attr with
        ack := 1, returnValue := (contact s.payloadTable attr attr.clientId).returnValue }])
  /-- A smaller number is dropped. -/
  | drop (older : attr.seqNumber < latest s attr.clientId)
      (recorded : latest s' attr.clientId = latest s attr.clientId)
      (workers : s'.workers = s.workers) (sent : s'.sent = s.sent)

/-- A packet is started, acknowledged or dropped according to its number, marks its client's slot as
in use, and touches no other slot, the store or the log. -/
theorem ServerInv.mainLoop_spec (h : ServerInv s) (hstep : mainLoop s attr = some s') :
    InTable attr.clientId ∧ Handled s attr s' ∧
    (s'.payloadTable attr.clientId).clientId = attr.clientId ∧
    (∀ d, d ≠ attr.clientId → s'.payloadTable d = s.payloadTable d) ∧
    s'.datastore = s.datastore ∧ s'.log = s.log := by
  simp only [mainLoop] at hstep
  split_ifs at hstep with hrange hnewer hequal
  all_goals
    have hc : InTable attr.clientId := by unfold InTable; omega
    obtain ⟨hid, hseq, hother⟩ := h.contact_spec hc
    obtain rfl := Option.some.inj hstep
    refine ⟨hc, ?_, ?_, ?_, rfl, rfl⟩
  · refine .start (by omega) ?_ rfl rfl
    simp [latest, hid]
  · simpa using hid
  · intro d hd
    simpa [hd] using hother d hd
  · refine .acknowledge (by omega) ?_ rfl rfl
    simp [latest, hid, hseq]
  · exact hid
  · exact hother
  · refine .drop (by omega) ?_ rfl rfl
    simp [latest, hid, hseq]
  · exact hid
  · exact hother

theorem startedFor_append_ready (s : Server) (attr : Payload) (l : List Worker)
    (hl : l = s.workers ++ [⟨attr, .ready⟩]) (c : ℤ) :
    startedFor { s with workers := l } c =
      if attr.clientId = c then startedFor s c ++ [attr.seqNumber] else startedFor s c := by
  subst hl
  by_cases hc : attr.clientId = c <;> simp [startedFor, hc]

theorem mem_startedFor {c n : ℤ} :
    n ∈ startedFor s c ↔ ∃ w ∈ s.workers, w.attr.clientId = c ∧ w.attr.seqNumber = n := by
  simp [startedFor, and_assoc]

/-- `latest` only reads the slot of its client. -/
theorem latest_congr {c : ℤ} (h : s'.payloadTable c = s.payloadTable c) : latest s' c = latest s c := by
  simp [latest, h]

theorem startedFor_congr (h : s'.workers = s.workers) (c : ℤ) : startedFor s' c = startedFor s c := by
  simp [startedFor, h]

/-- The recorded number of a client never decreases. -/
theorem Handled.latest_le (h : Handled s attr s') : latest s attr.clientId ≤ latest s' attr.clientId := by
  cases h with
  | start newer recorded _ _ => omega
  | acknowledge _ recorded _ _ => exact recorded.ge
  | drop _ recorded _ _ => exact recorded.ge

theorem ServerInv.mainLoop (h : ServerInv s) (hstep : mainLoop s attr = some s') : ServerInv s' := by
  obtain ⟨hc, handled, hid, hother, -, -⟩ := h.mainLoop_spec hstep
  have hslot : ∀ c, InTable c →
      (s'.payloadTable c).clientId = -1 ∨ (s'.payloadTable c).clientId = c := by
    intro c hc'
    by_cases hca : c = attr.clientId
    · exact Or.inr (hca ▸ hid)
    · rw [hother c hca]
      exact h.slot c hc'
  have hused : ∀ c, (s.payloadTable c).clientId = c → (s'.payloadTable c).clientId = c := by
    intro c hc'
    by_cases hca : c = attr.clientId
    · exact hca ▸ hid
    · rwa [hother c hca]
  have hlatest : ∀ c, latest s c ≤ latest s' c := by
    intro c
    by_cases hca : c = attr.clientId
    · exact hca ▸ handled.latest_le
    · exact (latest_congr (hother c hca)).ge
  have same : s'.workers = s.workers → ServerInv s' := by
    intro hw
    refine ⟨hslot, ?_, ?_, fun c => ?_⟩
    · rw [hw]
      exact fun w hmem => ⟨(h.started w hmem).1, hused _ (h.started w hmem).2⟩
    · rw [hw]
      exact fun w hmem => (h.behind w hmem).trans (hlatest _)
    · rw [startedFor_congr hw]
      exact h.increasing c
  cases handled with
  | acknowledge _ _ hw _ => exact same hw
  | drop _ _ hw _ => exact same hw
  | start newer recorded hw _ =>
    refine ⟨hslot, ?_, ?_, fun c => ?_⟩
    · rw [hw]
      intro w hmem
      rcases List.mem_append.1 hmem with hmem | hmem
      · exact ⟨(h.started w hmem).1, hused _ (h.started w hmem).2⟩
      · obtain rfl := List.mem_singleton.1 hmem
        exact ⟨hc, hid⟩
    · rw [hw]
      intro w hmem
      rcases List.mem_append.1 hmem with hmem | hmem
      · exact (h.behind w hmem).trans (hlatest _)
      · obtain rfl := List.mem_singleton.1 hmem
        exact recorded.ge
    · have hlist := startedFor_append_ready s attr s'.workers hw c
      have hcongr : startedFor s' c = startedFor { s with workers := s'.workers } c :=
        startedFor_congr rfl c
      rw [hcongr, hlist]
      split_ifs with hca
      · subst hca
        refine List.pairwise_append.2 ⟨h.increasing _, List.pairwise_singleton _ _, ?_⟩
        intro n hn m hm
        obtain ⟨w, hmem, hwc, rfl⟩ := mem_startedFor.1 hn
        obtain rfl := List.mem_singleton.1 hm
        have := h.behind w hmem
        rw [hwc] at this
        omega
      · exact h.increasing c

/-! ## One worker step -/

/-- A worker step moves one worker on, keeps its request, and changes the table only in the
`returnValue` of that worker's client. -/
theorem work_spec {i : ℕ} (hstep : work s i = some s') :
    ∃ w pc', s.workers[i]? = some w ∧ s'.workers = s.workers.set i ⟨w.attr, pc'⟩ ∧
      (∀ d, d ≠ w.attr.clientId → s'.payloadTable d = s.payloadTable d) ∧
      (s'.payloadTable w.attr.clientId).clientId = (s.payloadTable w.attr.clientId).clientId ∧
      (s'.payloadTable w.attr.clientId).seqNumber =
        (s.payloadTable w.attr.clientId).seqNumber := by
  obtain ⟨w, hw, hstep⟩ := Option.bind_eq_some_iff.1 hstep
  unfold workStep at hstep
  cases hpc : w.pc with
  | replied => simp [hpc] at hstep
  | ready =>
    simp only [hpc, Option.some.injEq] at hstep
    subst hstep
    exact ⟨w, _, hw, rfl, fun _ _ => rfl, rfl, rfl⟩
  | stored r =>
    simp only [hpc, Option.some.injEq] at hstep
    subst hstep
    exact ⟨w, _, hw, rfl, fun _ _ => rfl, rfl, rfl⟩
  | executed r =>
    simp only [hpc, Option.some.injEq] at hstep
    subst hstep
    refine ⟨w, _, hw, rfl, fun d hd => ?_, ?_, ?_⟩
    · simp only
      split_ifs
      · exact Function.update_of_ne hd _ _
      · rfl
    all_goals
      simp only
      split_ifs <;> simp

theorem map_attr_set {l : List Worker} {i : ℕ} {w : Worker} (hw : l[i]? = some w) (pc : WorkerPc) :
    (l.set i ⟨w.attr, pc⟩).map (·.attr) = l.map (·.attr) := by
  rw [List.map_set]
  apply List.ext_getElem?
  intro j
  rw [List.getElem?_set]
  split_ifs with hij hlen
  · subst hij
    simp [hw]
  · subst hij
    simp_all
  · rfl

/-- The started requests, in order. -/
theorem startedFor_eq_of_attrs (h : s'.workers.map (·.attr) = s.workers.map (·.attr)) (c : ℤ) :
    startedFor s' c = startedFor s c := by
  have hmap : ∀ t : Server, startedFor t c =
      ((t.workers.map (·.attr)).filter fun a => a.clientId = c).map (·.seqNumber) := fun t => by
    simp [startedFor, List.filter_map, Function.comp_def]
  rw [hmap, hmap, h]

theorem ServerInv.work {i : ℕ} (h : ServerInv s) (hstep : work s i = some s') : ServerInv s' := by
  obtain ⟨w, pc', hw, hset, hother, hid, hseq⟩ := work_spec hstep
  have hattrs : s'.workers.map (·.attr) = s.workers.map (·.attr) := by
    rw [hset, map_attr_set hw]
  have hid' : ∀ c, (s'.payloadTable c).clientId = (s.payloadTable c).clientId := fun c => by
    by_cases hc : c = w.attr.clientId
    · rw [hc, hid]
    · rw [hother c hc]
  have hlatest : ∀ c, latest s' c = latest s c := fun c => by
    by_cases hc : c = w.attr.clientId
    · unfold latest
      rw [hc, hid, hseq]
    · exact latest_congr (hother c hc)
  have hmem : ∀ v ∈ s'.workers, ∃ u ∈ s.workers, u.attr = v.attr := fun v hv => by
    have := List.mem_map_of_mem (f := (·.attr)) hv
    rw [hattrs] at this
    exact List.mem_map.1 this
  refine ⟨fun c hc => by rw [hid']; exact h.slot c hc, fun v hv => ?_, fun v hv => ?_, fun c => ?_⟩
  · obtain ⟨u, hu, huv⟩ := hmem v hv
    rw [hid', ← huv]
    exact h.started u hu
  · obtain ⟨u, hu, huv⟩ := hmem v hv
    rw [hlatest, ← huv]
    exact h.behind u hu
  · rw [startedFor_eq_of_attrs hattrs]
    exact h.increasing c

/-- A packet of a client in the table is always handled. -/
theorem mainLoop_isSome (s : Server) (hc : InTable attr.clientId) :
    ∃ s', mainLoop s attr = some s' := by
  have hrange : ¬ (attr.clientId < 0 ∨ (TABLE_SIZE : ℤ) ≤ attr.clientId) := by
    unfold InTable at hc
    omega
  simp only [Rpc.mainLoop, if_neg hrange]
  split_ifs <;> exact ⟨_, rfl⟩

/-! ## Runs -/

theorem ServerInv.step {e : ServerEvent} (h : ServerInv s) (hstep : serverStep s e = some s') :
    ServerInv s' := by
  cases e with
  | receive attr => exact h.mainLoop hstep
  | work i => exact h.work hstep

theorem serverInv_run {junk : ℤ → Payload} {es : List ServerEvent}
    (reached : Trace.run serverStep (Server.init junk) es = some s) : ServerInv s := by
  refine Trace.run_invariant (P := fun _ _ => True) (I := ServerInv) ?_ (serverInv_init junk) ?_
    reached
  · exact fun s e s' h _ hstep => h.step hstep
  · exact Trace.along_of_forall _ (fun _ _ => trivial) _ _

/-- For every sequence of packets and worker steps: the sequence numbers started for a client are
strictly increasing, so no pair of client and number is started twice, and every further packet `attr`
is started, acknowledged or dropped by comparing its number with the recorded one, changing no slot
but its client's. -/
theorem atMostOnce (junk : ℤ → Payload) (es : List ServerEvent) (s : Server)
    (reached : Trace.run serverStep (Server.init junk) es = some s) :
    (∀ c, (startedFor s c).Pairwise (· < ·)) ∧
    (∀ c n, (startedFor s c).count n ≤ 1) ∧
    (∀ attr, InTable attr.clientId → ∃ s', serverStep s (.receive attr) = some s' ∧
      Handled s attr s' ∧ ∀ d, d ≠ attr.clientId → s'.payloadTable d = s.payloadTable d) ∧
    ∀ i s', serverStep s (.work i) = some s' → ∃ w, s.workers[i]? = some w ∧
      s'.workers.length = s.workers.length ∧
      ∀ d, d ≠ w.attr.clientId → s'.payloadTable d = s.payloadTable d := by
  have hinv := serverInv_run reached
  refine ⟨hinv.increasing, fun c n => ?_, fun attr hc => ?_, fun i s' hstep => ?_⟩
  · exact List.nodup_iff_count_le_one.1 ((hinv.increasing c).imp fun h => ne_of_lt h) n
  · obtain ⟨s', hs'⟩ := mainLoop_isSome s hc
    obtain ⟨-, handled, -, hother, -, -⟩ := hinv.mainLoop_spec hs'
    exact ⟨s', hs', handled, hother⟩
  · obtain ⟨w, pc', hw, hset, hother, -, -⟩ := work_spec hstep
    exact ⟨w, hw, by rw [hset, List.length_set], hother⟩

/-- A `put` of client 7 with number 1, then a `get` with the same number. -/
def duplicateRequest : List ServerEvent :=
  [.receive putFive, .receive { getFive with seqNumber := 1 }, .work 0]

theorem atMostOnce_duplicateRequest :
    ∃ s, Trace.run serverStep (Server.init zeros) duplicateRequest = some s ∧
      (startedFor s 7).Pairwise (· < ·) ∧ startedFor s 7 = [1] :=
  ⟨_, rfl, (atMostOnce zeros duplicateRequest _ rfl).1 7, rfl⟩

end SystemsProjects.Rpc
