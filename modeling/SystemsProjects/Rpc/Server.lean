import Mathlib.Data.Int.Basic
import Mathlib.Data.List.Basic
import Mathlib.Logic.Function.Basic
import SystemsProjects.Lib.Trace

/-!
# The RPC server

`P8/server.c` and `P8/server_functions.c`: the main loop that receives one datagram at a time, the
table with one slot per client id, and the detached worker threads, which run concurrently with the
main loop and with each other.  Every access of a worker to shared data is one step (`work`): the
operation on the store, the write of `returnValue` into the table, and the reply.
-/

namespace SystemsProjects.Rpc

/-- `struct st_payload`: the eight integers of a datagram, and the contents of a table slot. -/
structure Payload where
  funcType : ℤ
  clientId : ℤ
  seqNumber : ℤ
  time : ℤ
  key : ℤ
  value : ℤ
  ack : ℤ
  returnValue : ℤ
  deriving DecidableEq, Repr

def NUMKEYS : ℤ := 1024

/-- The keys of the store. -/
def InStore (key : ℤ) : Prop := 0 ≤ key ∧ key < NUMKEYS

instance (key : ℤ) : Decidable (InStore key) := inferInstanceAs (Decidable (_ ∧ _))

/-- The number of slots of `payloadTable`. -/
def TABLE_SIZE : ℕ := 100

/-- Where a worker thread stands in `threadTasks`. -/
inductive WorkerPc where
  /-- Created; the requested operation has not been executed. -/
  | ready
  | executed (retVal : ℤ)
  /-- Past the write of `returnValue` into the table. -/
  | stored (retVal : ℤ)
  | replied
  deriving DecidableEq, Repr

/-- A worker thread with its own copy of the request. -/
structure Worker where
  attr : Payload
  pc : WorkerPc
  deriving DecidableEq, Repr

structure Server where
  payloadTable : ℤ → Payload
  datastore : ℤ → ℤ
  /-- All workers ever started, in order of `pthread_create`. -/
  workers : List Worker
  /-- All datagrams ever sent. -/
  sent : List Payload
  /-- The requests whose operation has been executed, in order. -/
  log : List Payload

/-- Uninitialised memory that happens to be zero. -/
def zeros : ℤ → Payload := fun _ => ⟨0, 0, 0, 0, 0, 0, 0, 0⟩

/-- Requests of client 7: `put(5, 9)`, `get(5)` and `get(6)` with numbers 1, 2 and 3. -/
def putFive : Payload := ⟨3, 7, 1, -1, 5, 9, 0, -1⟩
def getFive : Payload := ⟨2, 7, 2, -1, 5, 0, 0, -1⟩
def getSix : Payload := ⟨2, 7, 3, -1, 6, 0, 0, -1⟩

/-- The server before its first packet: only `clientId` of each slot is initialised. -/
def Server.init (junk : ℤ → Payload) : Server where
  payloadTable i := { junk i with clientId := -1 }
  datastore _ := 0
  workers := []
  sent := []
  log := []

/-! ## The store -/

def get (datastore : ℤ → ℤ) (key : ℤ) : ℤ :=
  if key > NUMKEYS ∨ key < 0 then -1 else datastore key

def put (datastore : ℤ → ℤ) (key value : ℤ) : ℤ × (ℤ → ℤ) :=
  if key > NUMKEYS ∨ key < 0 then (-1, datastore) else (0, Function.update datastore key value)

/-! ## The main loop -/

/-- The search for the client's slot. -/
def numClient (payloadTable : ℤ → Payload) (clientId : ℤ) : Option ℕ :=
  (List.range TABLE_SIZE).find? fun i => (payloadTable i).clientId = clientId

/-- The table after the first-contact branch. -/
def contact (payloadTable : ℤ → Payload) (attr : Payload) : ℤ → Payload :=
  if numClient payloadTable attr.clientId = none then
    Function.update payloadTable attr.clientId { attr with seqNumber := 0 }
  else payloadTable

/-- One iteration of the main loop on the received packet `attr`.  The table is indexed with the
packet's client id; an id outside the table is undefined behaviour (`none`). -/
def mainLoop (s : Server) (attr : Payload) : Option Server :=
  if attr.clientId < 0 ∨ (TABLE_SIZE : ℤ) ≤ attr.clientId then none
  else
    let payloadTable := contact s.payloadTable attr
    let slot := payloadTable attr.clientId
    if slot.seqNumber < attr.seqNumber then
      some { s with
        payloadTable := Function.update payloadTable attr.clientId
          { slot with seqNumber := attr.seqNumber }
        workers := s.workers ++ [⟨attr, .ready⟩] }
    else if slot.seqNumber = attr.seqNumber then
      some { s with
        payloadTable := payloadTable
        sent := s.sent ++ [{ attr with ack := 1, returnValue := slot.returnValue }] }
    else some { s with payloadTable := payloadTable }

/-! ## The workers -/

/-- The `switch` of `threadTasks`: the value of `retVal` and the store afterwards.  `put`'s status is
not kept. -/
def execute (datastore : ℤ → ℤ) (attr : Payload) : ℤ × (ℤ → ℤ) :=
  if attr.funcType = 2 then (get datastore attr.key, datastore)
  else if attr.funcType = 3 then (0, (put datastore attr.key attr.value).2)
  else (0, datastore)

/-- The next step of worker `w`, at position `i`. -/
def workStep (s : Server) (i : ℕ) (w : Worker) : Option Server :=
  match w.pc with
  | .ready =>
    let (retVal, datastore) := execute s.datastore w.attr
    some { s with
      datastore := datastore
      workers := s.workers.set i { w with pc := .executed retVal }
      log := s.log ++ [w.attr] }
  | .executed retVal =>
    let payloadTable :=
      if w.attr.funcType = 2 then
        Function.update s.payloadTable w.attr.clientId
          { s.payloadTable w.attr.clientId with returnValue := retVal }
      else s.payloadTable
    some { s with
      payloadTable := payloadTable
      workers := s.workers.set i { w with pc := .stored retVal } }
  | .stored retVal =>
    some { s with
      sent := s.sent ++ [{ w.attr with ack := 0, returnValue := retVal }]
      workers := s.workers.set i { w with pc := .replied } }
  | .replied => none

/-- A step of the worker thread at position `i`. -/
def work (s : Server) (i : ℕ) : Option Server := (s.workers[i]?).bind (workStep s i)

/-! ## Server runs -/

inductive ServerEvent where
  | receive (attr : Payload)
  | work (i : ℕ)
  deriving DecidableEq

def serverStep (s : Server) : ServerEvent → Option Server
  | .receive attr => mainLoop s attr
  | .work i => work s i

end SystemsProjects.Rpc
