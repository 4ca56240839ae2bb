import YogiModel.Base.Machine
import YogiModel.Web.Bytes

namespace Yogi.Web

-- `Uint8Array.prototype.set`, which converts every element of the source to a byte.
def setElements (buffer source : Bytes) (offset : Nat) : Bytes :=
  buffer.take offset ++ source ++ buffer.drop (offset + source.length)

-- The data of the request that starts a task.
def taskBuffer (taskId : Nat) (data : Bytes) : Bytes :=
  let taskIdData : List UInt32 := [UInt32.ofNat taskId]
  let buffer := List.replicate (4 + data.length) 0
  setElements (setElements buffer (taskIdData.map UInt32.toUInt8) 0) data 4

-- `AccountService::get_task_id`
def getTaskId (request : Bytes) : UInt32 :=
  match request.drop 1 with
  | a :: b :: c :: d :: _ =>
    a.toUInt32 ||| b.toUInt32 <<< 8 ||| c.toUInt32 <<< 16 ||| d.toUInt32 <<< 24
  | _ => 0

theorem getTaskId_taskBuffer {requestType : UInt8} {taskId : Nat} {data : Bytes} :
    (getTaskId (requestType :: taskBuffer taskId data)).toNat = taskId % 256 := by
  simp [taskBuffer, setElements, getTaskId, Nat.add_comm 4, List.replicate_succ]

-- The types of responses to requests.
inductive Status
  | ok
  | internalServerError
  | invalidRequest
  | apiError (error : String)
  | alreadyMonitoring
  | invalidTerminalId
  | invalidBindingId
  | invalidOperationId
  | invalidCommandId
  | invalidTerminalType
  | alreadyLoggedIn
  | notLoggedIn
  | notReady
  deriving DecidableEq

-- What is done with the transaction to which a response belongs.
inductive Handling
  | resolve
  | reject (reason : String)
  | throw
  deriving DecidableEq

def Status.handling : Status → Handling
  | ok                  => .resolve
  | invalidRequest      => .reject "Invalid request"
  | apiError error      => .reject ("API error: " ++ error)
  | alreadyMonitoring   => .reject "Already monitoring the requested resource"
  | invalidTerminalId   => .reject "Invalid terminal ID"
  | invalidBindingId    => .reject "Invalid binding ID"
  | invalidOperationId  => .reject "Invalid operation ID"
  | invalidTerminalType => .reject "Invalid terminal type"
  | alreadyLoggedIn     => .reject "Already logged in"
  | notLoggedIn         => .reject "Not logged in"
  | notReady            => .reject "Hub not ready; try again later"
  | internalServerError => .throw
  | invalidCommandId    => .throw

inductive Kind
  | request
  | task (requestType : UInt8) (taskId : Nat) (data : Bytes)
  | dnsLookup
  deriving DecidableEq

-- A call of `_request` that is made on its own, by `_runTask` or by the DNS query.
structure Call where
  number : Nat
  kind   : Kind
  deriving DecidableEq

-- A call of `_runTask` and the DNS query hand out a promise besides that of their request.
inductive Promise
  | request (c : Call)
  | call (c : Call)
  deriving DecidableEq

def Promise.origin : Promise → Call
  | request c => c
  | call c    => c

def Call.own (c : Call) : List Promise :=
  match c.kind with
  | .request => []
  | _        => [.call c]

def Call.promises (c : Call) : List Promise :=
  .request c :: c.own

-- The keys of the maps `_taskHandlers` and `_dnsQueries`.
inductive Key
  | task (id : Nat)
  | dnsLookup (id : Int)
  deriving DecidableEq

-- The key under which the client registers the call after the response to its request.
def Call.key (c : Call) (id : Int) : List Key :=
  match c.kind with
  | .request      => []
  | .task _ n _   => [.task n]
  | .dnsLookup    => [.dnsLookup id]

-- The key that the completion sent by the hub carries.
def Call.hubKey (c : Call) (id : Int) : List Key :=
  match c.kind with
  | .request      => []
  | .task t n d   => [.task (getTaskId (t :: taskBuffer n d)).toNat]
  | .dnsLookup    => [.dnsLookup id]

-- The two maps in one.
abbrev Handlers := List (Key × Call)

namespace Handlers

def get? (h : Handlers) (k : Key) : Option Call :=
  (h.find? (·.1 = k)).map (·.2)

def delete (h : Handlers) (k : Key) : Handlers :=
  h.filter (·.1 ≠ k)

def set (h : Handlers) (k : Key) (c : Call) : Handlers :=
  h.delete k ++ [(k, c)]

end Handlers

-- The messages of the hub tell for which call they have been sent.
inductive HubMessage
  | response (c : Call) (s : Status) (id : Int)
  | completion (k : Key) (c : Call)
  | notification (throws : Bool)
  deriving DecidableEq

-- With what a promise is settled.
inductive Outcome
  | response (c : Call) (s : Status)
  | completion (c : Call)
  | closed (reason : String)
  deriving DecidableEq

-- The reactions to promises that are to be run.
inductive Job
  | comeAlive (c : Call)
  | answered (c : Call) (id : Int)
  | passOn (c : Call) (o : Outcome)
  | caught (c : Call) (o : Outcome)
  deriving DecidableEq

inductive Socket
  | connecting
  | open
  | closing
  | closed
  deriving DecidableEq

-- The class `Session` with the socket, the queue of the reactions to promises and the hub. `batch` is
-- what is left of the message that is being handled and `running` are the tasks and lookups of the hub.
-- The promises that have been handed out and settled and the messages that have been handled are recorded.
structure Session where
  socket       : Socket := .connecting
  alive        : Bool := false
  comeAlive    : Bool := false
  waiting      : List Call := []
  jobs         : List Job := []
  transactions : List Call := []
  nextTaskId   : Nat := 1
  handlers     : Handlers := []
  batch        : List HubMessage := []
  toHub        : List Call := []
  running      : Handlers := []
  toClient     : List HubMessage := []
  calls        : Nat := 0
  handed       : List Promise := []
  settled      : List (Promise × Outcome) := []
  received     : List HubMessage := []

-- What the user of the session asks for.
inductive NewCall
  | request
  | task (requestType : UInt8) (data : Bytes)
  | dnsLookup
  deriving DecidableEq

-- The number of tasks.
def NewCall.tasks : NewCall → Nat
  | .task _ _ => 1
  | _         => 0

namespace Session

def settle (s : Session) (p : Promise) (o : Outcome) : Session :=
  { s with settled := s.settled ++ [(p, o)] }

-- The promise of a request is settled, to which a task or a lookup reacts.
def settleRequest (s : Session) (c : Call) (o : Outcome) (reaction : Job) : Session :=
  { s with
    settled := s.settled ++ [(.request c, o)]
    jobs    := s.jobs ++ c.own.map fun _ => reaction }

def rejectRequest (s : Session) (c : Call) (o : Outcome) : Session :=
  s.settleRequest c o (.passOn c o)

def kind (s : Session) : NewCall → Kind
  | .request   => .request
  | .task t d  => .task t s.nextTaskId d
  | .dnsLookup => .dnsLookup

-- The functions `_request`, `_runTask` and `_requestDnsLookup` up to the point at which they return.
def call (s : Session) (k : NewCall) : Session :=
  let c : Call := ⟨s.calls, s.kind k⟩
  let s := { s with
    nextTaskId := s.nextTaskId + k.tasks
    calls      := s.calls + 1
    handed     := s.handed ++ c.promises }
  if s.comeAlive then
    { s with jobs := s.jobs ++ [.comeAlive c] }
  else
    { s with waiting := s.waiting ++ [c] }

-- A message that is sent while the socket is closing gets lost.
def send (s : Session) (c : Call) : Session :=
  if s.socket = .open then { s with toHub := s.toHub ++ [c] } else s

def runJob (s : Session) : Job → Session
  | .comeAlive c =>
    if ¬s.alive then
      s.rejectRequest c (.closed "The session is closed")
    else
      let s := s.send c
      { s with transactions := s.transactions ++ [c] }
  | .answered c id => { s with handlers := (c.key id).foldl (·.set · c) s.handlers }
  | .passOn c o    => { s with jobs := s.jobs ++ [.caught c o] }
  | .caught c o    => s.settle (.call c) o

def opened (s : Session) : Session :=
  { s with
    socket    := .open
    alive     := true
    comeAlive := true
    waiting   := []
    jobs      := s.jobs ++ s.waiting.map .comeAlive }

def close (s : Session) : Session :=
  match s.socket with
  | .connecting | .open => { s with socket := .closing }
  | _                   => s

-- An exception is thrown while a batch message is being handled.
def fail (s : Session) : Session :=
  { s.close with batch := [] }

def shift (s : Session) (f : Session → Call → Session) : Session :=
  match s.transactions with
  | []      => s.fail
  | t :: ts => f { s with transactions := ts } t

def handleMessage (s : Session) : HubMessage → Session
  | .response c st id =>
    match st.handling with
    | .resolve  => s.shift fun s t => s.settleRequest t (.response c st) (.answered t id)
    | .reject _ => s.shift fun s t => s.rejectRequest t (.response c st)
    | .throw    => s.fail
  | .completion k c =>
    let s' := { s with handlers := s.handlers.delete k }
    match s.handlers.get? k with
    | some t => s'.settle (.call t) (.completion c)
    | none   => s'.fail
  | .notification throws => if throws then s.fail else s

-- The loop over the map `_dnsQueries` throws an exception if there is an entry, which is a pair and not
-- a function. The map is cleared only if it is empty.
def closed (s : Session) : Session :=
  let s := { s with socket := .closed, alive := false }
  let s := s.transactions.foldl (fun s c =>
    s.rejectRequest c (.closed "The session has been closed")) s
  { s with transactions := [] }

-- The hub answers the request that comes next.
def respond (s : Session) (st : Status) (id : Int) : Session :=
  match s.toHub with
  | []      => s
  | c :: cs => { s with
    toHub    := cs
    toClient := s.toClient ++ [.response c st id]
    running  := s.running ++ if st = .ok then (c.hubKey id).map (·, c) else [] }

-- A task or a lookup of the hub is completed.
def complete (s : Session) (e : Key × Call) : Session :=
  { s with
    running  := s.running.erase e
    toClient := s.toClient ++ [.completion e.1 e.2] }

inductive Action
  | call (k : NewCall)
  | job
  | opened
  | deliver (n : Nat)
  | handle
  | close
  | closed
  | respond (st : Status) (id : Int)
  | complete (e : Key × Call)
  | notify (throws : Bool)

def act (s : Session) : Action → Session
  | .call k        => s.call k
  | .job           =>
    match s.jobs with
    | []      => s
    | j :: js => { s with jobs := js }.runJob j
  | .opened        => s.opened
  | .deliver n     => { s with batch := s.toClient.take n, toClient := s.toClient.drop n }
  | .handle        =>
    match s.batch with
    | []      => s
    | m :: ms => { s with batch := ms, received := s.received ++ [m] }.handleMessage m
  | .close         => s.close
  | .closed        => s.closed
  | .respond st id => s.respond st id
  | .complete e    => s.complete e
  | .notify throws => { s with toClient := s.toClient ++ [.notification throws] }

-- All reactions are run before the next event is handled. The hub tells its lookups apart.
def enabled (s : Session) : Action → Prop
  | .call _       => True
  | .job          => s.batch = [] ∧ s.jobs ≠ []
  | .opened       => s.socket = .connecting ∧ s.batch = [] ∧ s.jobs = []
  | .deliver _    => s.socket = .open ∧ s.batch = [] ∧ s.jobs = []
  | .handle       => s.batch ≠ []
  | .close        => True
  | .closed       => s.socket ≠ .closed ∧ s.batch = [] ∧ s.jobs = []
  | .respond _ id => s.toHub ≠ [] ∧
    (s.toHub.head?.map (·.kind) = some .dnsLookup → ∀ e ∈ s.running, e.1 ≠ .dnsLookup id)
  | .complete e   => e ∈ s.running
  | .notify _     => True

instance (s : Session) (a : Action) : Decidable (s.enabled a) := by
  cases a <;> unfold enabled <;> infer_instance

def machine : Machine Session Action Empty where
  init    := (· = {})
  enabled := enabled
  step    := fun s a => .ok (s.act a)

instance (s : Session) (a : Action) : Decidable (machine.enabled s a) :=
  inferInstanceAs (Decidable (s.enabled a))

end Session
end Yogi.Web
