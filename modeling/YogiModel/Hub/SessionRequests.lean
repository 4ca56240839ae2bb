import Mathlib
import YogiModel.Base.Except
import YogiModel.Hub.TerminalSearch

namespace Yogi.Hub

open Web

-- `helpers::LookupTable`
structure LookupTable (α : Type) where
  lastId : UInt32 := 0
  items : List (UInt32 × α) := []

namespace LookupTable

variable {α : Type}

def get (table : LookupTable α) (id : UInt32) : Option α :=
  (table.items.find? fun item => item.1 = id).map Prod.snd

def set (table : LookupTable α) (id : UInt32) (val : α) : LookupTable α :=
  { table with items := (id, val) :: table.items.filter fun item => item.1 ≠ id }

def add (table : LookupTable α) (val : α) : UInt32 × LookupTable α :=
  (table.lastId + 1, { table with lastId := table.lastId + 1 }.set (table.lastId + 1) val)

def erase (table : LookupTable α) (id : UInt32) : LookupTable α :=
  { table with items := table.items.filter fun item => item.1 ≠ id }

end LookupTable

inductive RequestKind
  | version
  | currentTime
  | testCommand
  | knownTerminals
  | knownTerminalsSubtree
  | findKnownTerminals
  | monitorKnownTerminals
  | connectionFactories
  | connections
  | monitorConnections
  | clientAddress
  | startDnsLookup
  | createTerminal
  | destroyTerminal
  | createBinding
  | destroyBinding
  | monitorBindingState
  | monitorBuiltinBindingState
  | monitorSubscriptionState
  | publishMessage
  | monitorReceivedPublishMessages
  | scatterGather
  | monitorReceivedScatterMessages
  | respondToScatteredMessage
  | ignoreScatteredMessage
  | startCustomCommand
  | terminateCustomCommand
  | writeCustomCommandStdin
  | startLoginTask
  | startStoreDataTask
  | startReadDataTask
  deriving DecidableEq

inductive TerminalType
  | deafMute
  | publishSubscribe
  | scatterGather
  | cachedPublishSubscribe
  | producer
  | consumer
  | cachedProducer
  | cachedConsumer
  | master
  | slave
  | cachedMaster
  | cachedSlave
  | service
  | client
  deriving DecidableEq

namespace RequestKind

-- In the order of their numbers; the last three are the ones of the account service.
def all : List RequestKind :=
  [version, currentTime, testCommand, knownTerminals, knownTerminalsSubtree, findKnownTerminals,
    monitorKnownTerminals, connectionFactories, connections, monitorConnections, clientAddress, startDnsLookup,
    createTerminal, destroyTerminal, createBinding, destroyBinding, monitorBindingState,
    monitorBuiltinBindingState, monitorSubscriptionState, publishMessage, monitorReceivedPublishMessages,
    scatterGather, monitorReceivedScatterMessages, respondToScatteredMessage, ignoreScatteredMessage,
    startCustomCommand, terminateCustomCommand, writeCustomCommandStdin, startLoginTask, startStoreDataTask,
    startReadDataTask]

def ofByte (accountService : Bool) (b : UInt8) : Option RequestKind :=
  (if accountService then all else all.take 28)[b.toNat]?

end RequestKind

namespace TerminalType

def all : List TerminalType :=
  [deafMute, publishSubscribe, scatterGather, cachedPublishSubscribe, producer, consumer, cachedProducer,
    cachedConsumer, master, slave, cachedMaster, cachedSlave, service, client]

-- A greater number than the one of `CLIENT` is refused.
def ofByte (b : UInt8) : Option TerminalType :=
  all[b.toNat]?

def isPrimitive (type : TerminalType) : Bool :=
  type ∈ [deafMute, publishSubscribe, scatterGather, cachedPublishSubscribe]

def isBinder (type : TerminalType) : Bool :=
  type ∈ [consumer, cachedConsumer, master, slave, cachedMaster, cachedSlave, service]

def isSubscribable (type : TerminalType) : Bool :=
  type ∈ [publishSubscribe, scatterGather, cachedPublishSubscribe, producer, cachedProducer, master, slave,
    cachedMaster, cachedSlave, client]

def publishes (type : TerminalType) : Bool :=
  type ∈ [publishSubscribe, cachedPublishSubscribe, producer, cachedProducer, master, cachedMaster, slave,
    cachedSlave]

def receives (type : TerminalType) : Bool :=
  type ∈ [publishSubscribe, cachedPublishSubscribe, consumer, cachedConsumer, master, cachedMaster, slave,
    cachedSlave]

def hasCache (type : TerminalType) : Bool :=
  type ∈ [cachedPublishSubscribe, cachedConsumer, cachedMaster, cachedSlave]

end TerminalType

-- The operations and the messages are known by the IDs of their operations; the message observer is the last one
-- of those that have been made.
structure TerminalInfo where
  type : TerminalType
  bindingObserver : Bool := false
  subscriptionObserver : Bool := false
  messageObservers : Nat := 0
  sgOperations : List UInt32 := []
  sgScatteredMessages : List UInt32 := []
  scOperations : List UInt32 := []
  scRequests : List UInt32 := []

structure BindingInfo where
  observer : Bool := false

structure YogiSession where
  terminals : LookupTable TerminalInfo := {}
  bindings : LookupTable BindingInfo := {}
  activeCommands : LookupTable Unit := {}
  monitorTerminals : Bool := false
  monitoringConnections : Bool := false
  loggingIn : Bool := false
  loggedIn : Bool := false
  loginTaskId : UInt32 := 0
  username : Bytes := []

-- What is thrown: a `yogi::Failure` with its text or another exception.
inductive Exception
  | failure (what : Bytes)
  | other

-- What the session gets to know from outside during a request.
structure Environment where
  accountService : Bool
  version : Bytes
  currentTime : Bytes
  clientAddress : Bytes
  connectionFactories : Bytes
  connections : Bytes
  knownTerminals : List KnownTerminalsService.TerminalBlob
  subtree : Bool → Bytes → Bytes
  testCommand : Bytes → Bool
  lookupHost : Bytes → UInt32
  createTerminal : TerminalType → UInt32 → Bytes → Except Exception Unit
  createBinding : Bytes → Except Exception Unit
  startObserver : Except Exception Unit
  publish : Bytes → Except Exception Unit
  cachedMessage : Option Bytes
  startOperation : Bytes → Except Exception UInt32
  respond : UInt32 → Bytes → Except Exception Unit
  ignore : UInt32 → Except Exception Unit
  startCommand : List Bytes → Except Exception Bool
  sendRequest : List Bytes → Bool
  sendDataRequest : Bool → List Bytes → Bool

-- The state after a request with the response or what has been thrown.
structure Outcome where
  session : YogiSession
  result : Except Exception Response

namespace YogiSession

variable (env : Environment) (session : YogiSession) (request : Bytes)

def answer (type : ResponseType) (data : Bytes) : Except Fault Outcome :=
  .ok ⟨session, .ok ⟨type, data⟩⟩

def throws (e : Exception) : Except Fault Outcome :=
  .ok ⟨session, .error e⟩

-- Reading from a `QDataStream` that is at its end gives zero.

def readByte : Bytes → UInt8 × Bytes
  | []     => (0, [])
  | b :: s => (b, s)

def readUnsigned : Bytes → UInt32 × Bytes
  | a :: b :: c :: d :: s => (UInt32.ofNat (a.toNat + 256 * (b.toNat + 256 * (c.toNat + 256 * d.toNat))), s)
  | _                     => (0, [])

-- The string that begins at an offset has to end within the request.
def stringAt (offset : Nat) : Except Fault Bytes :=
  if 0 ∈ request.drop offset then .ok ((request.drop offset).takeWhile (· ≠ 0)) else .error .outOfBounds

-- `data() + offset` with `size() - offset` bytes.
def payload (offset : Nat) : Except Fault Bytes :=
  if offset ≤ request.length then .ok (request.drop offset) else .error .outOfBounds

-- `request.size() < n || request.at(request.size() - 1) != '\0'`
def isTruncated (n : Nat) : Except Fault Bool :=
  if request.length < n then .ok true else (byteAt request (request.length - 1)).map (· ≠ 0)

-- The `TerminalsService`

def handleCreateTerminalRequest : Except Fault Outcome := do
  if ← isTruncated request 7 then
    answer session .invalidRequest []
  else
    let (type, stream) := readByte (request.drop 1)
    let signature := (readUnsigned stream).fst
    let name ← stringAt request 6
    match TerminalType.ofByte type with
    | none      => answer session .invalidTerminalType []
    | some type =>
      match env.createTerminal type signature name with
      | .error (.failure what) => answer session .apiError (what ++ [0])
      | .error e               => throws session e
      | .ok ()                 =>
        let (id, terminals) := session.terminals.add { type := type }
        answer { session with terminals := terminals } .ok (unsignedToByteArray id)

def handleDestroyTerminalRequest : Except Fault Outcome :=
  let id := (readUnsigned (request.drop 1)).fst
  match session.terminals.get id with
  | none   => answer session .invalidTerminalId []
  | some _ => answer { session with terminals := session.terminals.erase id } .ok []

def handleCreateBindingRequest : Except Fault Outcome := do
  if ← isTruncated request 7 then
    answer session .invalidRequest []
  else
    let terminalId := (readUnsigned (request.drop 1)).fst
    let targets ← stringAt request 5
    match session.terminals.get terminalId with
    | none      => answer session .invalidTerminalId []
    | some info =>
      if !info.type.isPrimitive then
        answer session .invalidTerminalType []
      else
        match env.createBinding targets with
        | .error (.failure what) => answer session .apiError (what ++ [0])
        | .error e               => throws session e
        | .ok ()                 =>
          let (id, bindings) := session.bindings.add {}
          answer { session with bindings := bindings } .ok (unsignedToByteArray id)

def handleDestroyBindingRequest : Except Fault Outcome :=
  let id := (readUnsigned (request.drop 1)).fst
  match session.bindings.get id with
  | none   => answer session .invalidBindingId []
  | some _ => answer { session with bindings := session.bindings.erase id } .ok []

-- The observer is kept before it is started.
def startObserver : Except Fault Outcome :=
  match env.startObserver with
  | .ok ()   => answer session .ok []
  | .error e => throws session e

def handleMonitorBindingStateRequest : Except Fault Outcome :=
  let id := (readUnsigned (request.drop 1)).fst
  match session.bindings.get id with
  | none      => answer session .invalidBindingId []
  | some info =>
    if info.observer then
      answer session .alreadyMonitoring []
    else
      startObserver env { session with bindings := session.bindings.set id { info with observer := true } }

def handleMonitorBuiltinBindingStateRequest : Except Fault Outcome :=
  let id := (readUnsigned (request.drop 1)).fst
  match session.terminals.get id with
  | none      => answer session .invalidTerminalId []
  | some info =>
    if info.bindingObserver then
      answer session .alreadyMonitoring []
    else if !info.type.isBinder then
      answer session .invalidTerminalType []
    else
      startObserver env { session with terminals := session.terminals.set id { info with bindingObserver := true } }

def handleMonitorSubscriptionStateRequest : Except Fault Outcome :=
  let id := (readUnsigned (request.drop 1)).fst
  match session.terminals.get id with
  | none      => answer session .invalidTerminalId []
  | some info =>
    if info.subscriptionObserver then
      answer session .alreadyMonitoring []
    else if !info.type.isSubscribable then
      answer session .invalidTerminalType []
    else
      startObserver env
        { session with terminals := session.terminals.set id { info with subscriptionObserver := true } }

def catchFailure (outcome : Outcome) : Outcome :=
  match outcome.result with
  | .error (.failure what) => { outcome with result := .ok ⟨.apiError, what⟩ }
  | _                      => outcome

def useTerminal (fn : UInt32 → TerminalInfo → Bytes → Except Fault Outcome) : Except Fault Outcome :=
  let (id, stream) := readUnsigned (request.drop 1)
  match session.terminals.get id with
  | none      => answer session .invalidTerminalId []
  | some info => (fn id info stream).map catchFailure

def setTerminal (id : UInt32) (info : TerminalInfo) : YogiSession :=
  { session with terminals := session.terminals.set id info }

def handlePublishMessageRequest : Except Fault Outcome :=
  useTerminal session request fun _ info _ => do
    let data ← payload request 5
    if !info.type.publishes then
      answer session .invalidTerminalType []
    else
      match env.publish data with
      | .ok ()   => answer session .ok []
      | .error e => throws session e

def cacheData : Bytes :=
  match env.cachedMessage with
  | none     => [0]
  | some msg => 1 :: msg

def handleMonitorReceivedPublishMessagesRequest : Except Fault Outcome :=
  useTerminal session request fun id info _ => do
    let _ ← payload request 5
    if !info.type.receives then
      answer session .invalidTerminalType []
    else
      let session := setTerminal session id { info with messageObservers := info.messageObservers + 1 }
      match env.startObserver with
      | .ok ()   => answer session .ok (if info.type.hasCache then cacheData env else [])
      | .error e => throws session e

def handleScatterGatherRequest : Except Fault Outcome :=
  useTerminal session request fun id info _ =>
    if info.type = .scatterGather then do
      match env.startOperation (← payload request 5) with
      | .error e => throws session e
      | .ok opId =>
        answer (setTerminal session id { info with sgOperations := info.sgOperations.insert opId }) .ok
          (unsignedToByteArray opId)
    else if info.type = .client then do
      match env.startOperation (← payload request 5) with
      | .error e => throws session e
      | .ok opId =>
        answer (setTerminal session id { info with scOperations := info.scOperations.insert opId }) .ok
          (unsignedToByteArray opId)
    else
      answer session .invalidTerminalType []

def handleMonitorReceivedScatterMessagesRequest : Except Fault Outcome :=
  useTerminal session request fun id info _ =>
    if info.type = .scatterGather ∨ info.type = .service then
      startObserver env (setTerminal session id { info with messageObservers := info.messageObservers + 1 })
    else
      answer session .invalidTerminalType []

-- The map of the messages that a terminal has received
def messages (info : TerminalInfo) : Option (List UInt32) :=
  match info.type with
  | .scatterGather => some info.sgScatteredMessages
  | .service       => some info.scRequests
  | _              => none

def eraseMessage (info : TerminalInfo) (opId : UInt32) : TerminalInfo :=
  match info.type with
  | .scatterGather => { info with sgScatteredMessages := info.sgScatteredMessages.filter (· ≠ opId) }
  | _              => { info with scRequests := info.scRequests.filter (· ≠ opId) }

def handleRespondToScatteredMessageRequest : Except Fault Outcome :=
  useTerminal session request fun id info stream =>
    let opId := (readUnsigned stream).fst
    match messages info with
    | none          => answer session .invalidTerminalType []
    | some messages =>
      if opId ∉ messages then
        answer session .invalidOperationId []
      else do
        match env.respond opId (← payload request 9) with
        | .error e => throws session e
        | .ok ()   => answer (setTerminal session id (eraseMessage info opId)) .ok []

def handleIgnoreScatteredMessageRequest : Except Fault Outcome :=
  useTerminal session request fun id info stream =>
    let opId := (readUnsigned stream).fst
    match messages info with
    | none          => answer session .invalidTerminalType []
    | some messages =>
      if opId ∉ messages then
        answer session .invalidOperationId []
      else
        match env.ignore opId with
        | .error e => throws session e
        | .ok ()   => answer (setTerminal session id (eraseMessage info opId)) .ok []

-- The `KnownTerminalsService`

def handleKnownTerminalsRequest : Except Fault Outcome :=
  answer session .ok (env.knownTerminals.flatMap KnownTerminalsService.TerminalBlob.toByteArray)

def handleKnownTerminalsSubtreeRequest : Except Fault Outcome := do
  let absolute := (← byteAt request 1) ≠ 0
  answer session .ok (env.subtree absolute (request.drop 2))

def handleFindKnownTerminalsRequest : Except Fault Outcome := do
  let response ← KnownTerminalsService.handleFindKnownTerminalsRequest env.knownTerminals request
  answer session response.type response.data

def handleMonitorKnownTerminalsRequest : Except Fault Outcome :=
  if session.monitorTerminals then
    answer session .alreadyMonitoring []
  else
    handleKnownTerminalsRequest env { session with monitorTerminals := true }

-- The `ConnectionsService`
def handleMonitorConnectionsRequest : Except Fault Outcome :=
  if session.monitoringConnections then
    answer session .alreadyMonitoring []
  else
    answer { session with monitoringConnections := true } .ok env.connections

-- The `DnsService`
def handleStartDnsLookupRequest : Except Fault Outcome := do
  if ← isTruncated request 2 then
    answer session .invalidRequest []
  else
    answer session .ok (unsignedToByteArray (env.lookupHost (request.drop 1)))

-- The `CustomCommandService`

def handleStartCommandRequest : Except Fault Outcome := do
  if ← isTruncated request 2 then
    answer session .invalidRequest []
  else
    match env.startCommand (((request.drop 1).take (request.length - 2)).splitOn 0) with
    | .error e   => throws session e
    | .ok false  => answer session .invalidRequest []
    | .ok true   =>
      let (id, activeCommands) := session.activeCommands.add ()
      answer { session with activeCommands := activeCommands } .ok (unsignedToByteArray id)

def handleTerminateCommandRequest : Except Fault Outcome :=
  let id := (readUnsigned (request.drop 1)).fst
  match session.activeCommands.get id with
  | none   => answer session .invalidCommandId []
  | some _ => answer { session with activeCommands := session.activeCommands.erase id } .ok []

def handleWriteCommandRequest : Except Fault Outcome :=
  let id := (readUnsigned (request.drop 1)).fst
  match session.activeCommands.get id with
  | none   => answer session .invalidCommandId []
  | some _ => answer session .ok []

-- The `AccountService`

def countStrings (offset : Nat) : Nat :=
  (request.drop offset).count 0

def handleStartLoginTaskRequest : Except Fault Outcome := do
  if request.length < 7 ∨ countStrings request 5 ≠ 2 then
    answer session .invalidRequest []
  else
    let taskId := (readUnsigned (request.drop 1)).fst
    let username ← stringAt request 5
    let password ← stringAt request (5 + username.length + 1)
    if session.loggedIn then
      answer session .alreadyLoggedIn []
    else if session.loggingIn then
      answer session .notReady []
    else
      let session := { session with loginTaskId := taskId, username := username }
      if !env.sendRequest [username, password] then
        answer session .notReady []
      else
        answer { session with loggingIn := true } .ok []

-- What is sent depends on the variable and on whether it is one of the account.
def handleStartDataTaskRequest (send : Bool → Bytes → Bool) : Except Fault Outcome := do
  if request.length < 7 ∨ countStrings request 6 < 1 then
    answer session .invalidRequest []
  else if !session.loggedIn then
    answer session .notLoggedIn []
  else
    let isAccountData := (← byteAt request 5) ≠ 0
    let name ← stringAt request 6
    if name = [] then
      answer session .invalidRequest []
    else if !send isAccountData name then
      answer session .notReady []
    else
      answer session .ok []

-- The data that is stored is what follows the variable.
def handleStartStoreDataTaskRequest : Except Fault Outcome :=
  handleStartDataTaskRequest session request fun isAccountData name =>
    env.sendDataRequest isAccountData [name, request.drop (6 + name.length + 1)]

def handleStartReadDataTaskRequest : Except Fault Outcome :=
  handleStartDataTaskRequest session request fun isAccountData name => env.sendDataRequest isAccountData [name]

def handleTestCommand : Except Fault Outcome :=
  answer session (if env.testCommand (request.drop 1) then .ok else .invalidRequest) []

-- The table of the request handlers.
def handler : RequestKind → Except Fault Outcome
  | .version                        => answer session .ok env.version
  | .currentTime                    => answer session .ok env.currentTime
  | .testCommand                    => handleTestCommand env session request
  | .knownTerminals                 => handleKnownTerminalsRequest env session
  | .knownTerminalsSubtree          => handleKnownTerminalsSubtreeRequest env session request
  | .findKnownTerminals             => handleFindKnownTerminalsRequest env session request
  | .monitorKnownTerminals          => handleMonitorKnownTerminalsRequest env session
  | .connectionFactories            => answer session .ok env.connectionFactories
  | .connections                    => answer session .ok env.connections
  | .monitorConnections             => handleMonitorConnectionsRequest env session
  | .clientAddress                  => answer session .ok env.clientAddress
  | .startDnsLookup                 => handleStartDnsLookupRequest env session request
  | .createTerminal                 => handleCreateTerminalRequest env session request
  | .destroyTerminal                => handleDestroyTerminalRequest session request
  | .createBinding                  => handleCreateBindingRequest env session request
  | .destroyBinding                 => handleDestroyBindingRequest session request
  | .monitorBindingState            => handleMonitorBindingStateRequest env session request
  | .monitorBuiltinBindingState     => handleMonitorBuiltinBindingStateRequest env session request
  | .monitorSubscriptionState       => handleMonitorSubscriptionStateRequest env session request
  | .publishMessage                 => handlePublishMessageRequest env session request
  | .monitorReceivedPublishMessages => handleMonitorReceivedPublishMessagesRequest env session request
  | .scatterGather                  => handleScatterGatherRequest env session request
  | .monitorReceivedScatterMessages => handleMonitorReceivedScatterMessagesRequest env session request
  | .respondToScatteredMessage      => handleRespondToScatteredMessageRequest env session request
  | .ignoreScatteredMessage         => handleIgnoreScatteredMessageRequest env session request
  | .startCustomCommand             => handleStartCommandRequest env session request
  | .terminateCustomCommand         => handleTerminateCommandRequest session request
  | .writeCustomCommandStdin        => handleWriteCommandRequest session request
  | .startLoginTask                 => handleStartLoginTaskRequest env session request
  | .startStoreDataTask             => handleStartStoreDataTaskRequest env session request
  | .startReadDataTask              => handleStartReadDataTaskRequest env session request

def kindOf (request : Bytes) : Option RequestKind :=
  request.head?.bind (RequestKind.ofByte env.accountService)

def responseOf : Except Exception Response → Response
  | .ok response           => response
  | .error (.failure what) => ⟨.apiError, what⟩
  | .error .other          => ⟨.internalServerError, []⟩

-- The response with the state after it.
def handleRequest : Except Fault (Response × YogiSession) :=
  match kindOf env request with
  | none      => .ok (⟨.invalidRequest, []⟩, session)
  | some kind => (handler env session request kind).map fun outcome => (responseOf outcome.result, outcome.session)

end YogiSession

end Yogi.Hub
