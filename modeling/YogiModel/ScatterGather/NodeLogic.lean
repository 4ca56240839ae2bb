import YogiModel.Core.LiveConnections
import YogiModel.ScatterGather.LeafLogic

-- Scatter-gather operations that a node passes on
namespace Yogi

open SubscribableNode (Subscriptions)
open ScatterGather (gatherFinished gatherBindingDestroyed gatherConnectionLost finished)
open Wire (Byte)

-- The struct `operation_info_type`.
structure NodeOperation where
  source             : Option Conn
  sourceOperationId  : Id
  terminalId         : Id
  remainingResponses : List Conn := []

-- The class `scatter_gather::NodeLogic` with the classes that it inherits from; `activeOperations` is what it adds
-- to the entries of terminals.
structure ScatterGatherNode where
  node             : Node := {}
  subscribers      : Subscriptions := fun _ => ∅
  operations       : ObjectRegister NodeOperation := .empty
  activeOperations : Id → List Id := fun _ => []

namespace ScatterGatherNode

inductive Effect
  | base (e : Node.Effect)
  | send (c : Conn) (m : SubscribableNode.Message)
  | scatter (c : Conn) (subscriptionId operationId : Id) (data : List Byte)
  | gather (c : Conn) (operationId : Id) (flags : Nat) (data : List Byte)

abbrev Result := Except Fault (ScatterGatherNode × List Effect)

def toSource (op : NodeOperation) (flags : Nat) (data : List Byte) : List Effect :=
  op.source.elim [] fun c => [.gather c op.sourceOperationId flags data]

def deactivate (s : ScatterGatherNode) (tm i : Id) : ScatterGatherNode :=
  { s with activeOperations := Function.update s.activeOperations tm ((s.activeOperations tm).erase i) }

def setOperation (s : ScatterGatherNode) (i : Id) (op : NodeOperation) : ScatterGatherNode :=
  { s with operations := s.operations.set i op }

def eraseOperation (s : ScatterGatherNode) (i : Id) : ScatterGatherNode :=
  { s with operations := s.operations.erase i }

def isConnectionAlive (n : Node) (c : Conn) : Bool :=
  if c.remoteIsNode then c ∈ n.nodeConnections else c ∈ n.leafConnections

def forEach (f : ScatterGatherNode → Id → Result) (s : ScatterGatherNode) : List Id → Result
  | []      => return (s, [])
  | i :: is => do
    let r ← f s i
    let t ← forEach f r.1 is
    return (t.1, r.2 ++ t.2)

-- One round of the loop of `on_subscriber_removed`.
def loseResponse (n : Node) (c : Conn) (tm : Id) (s : ScatterGatherNode) (i : Id) : Result := do
  let op ← Node.deref (s.operations.get? i)
  let alive := isConnectionAlive n c
  if op.source = some c ∨ (alive ∧ c.remoteIsNode) ∨ c ∉ op.remainingResponses then
    return (s, [])
  let flags := if c.remoteIsNode ∨ !alive then gatherConnectionLost else gatherBindingDestroyed
  let remaining := op.remainingResponses.erase c
  if remaining = [] then
    return ((s.deactivate tm i).eraseOperation i, toSource op (flags ||| gatherFinished) [])
  else
    return (s.setOperation i { op with remainingResponses := remaining }, toSource op flags [])

def onSubscriberRemoved (s : ScatterGatherNode) (n : Node) (c : Conn) (tm : Id) : Result :=
  forEach (loseResponse n c tm) s (s.activeOperations tm)

-- One round of the loop of `on_terminal_owner_removed`.
def loseSource (c : Conn) (tm : Id) (s : ScatterGatherNode) (i : Id) : Result := do
  let op ← Node.deref (s.operations.get? i)
  if op.source = some c then
    return ((s.deactivate tm i).setOperation i { op with source := none }, [])
  else
    return (s, [])

-- What is done in the virtual functions; `n` is the node at the time of the call.
def onHook (s : ScatterGatherNode) (n : Node) (h : Node.Hook) : Result := do
  let r ← SubscribableNode.onHook s.subscribers n h
  let s' := { s with subscribers := r.1 }
  let sends := r.2.map fun m => .send m.1 m.2
  match h with
  | .terminalUserRemoved c tm =>
    if ((s.subscribers tm).lookup c).isSome then
      let t ← s'.onSubscriberRemoved n c tm
      return (t.1, sends ++ t.2)
    else
      return (s', sends)
  | .terminalOwnerRemoved c tm =>
    let t ← forEach (loseSource c tm) s' (s'.activeOperations tm)
    return (t.1, sends ++ t.2)
  | .bindingOwnerRemoved c bd =>
    let d ← Node.deref (n.bindings.get? bd)
    if d.data.terminal = 0 then
      return (s', sends)
    let t ← s'.onSubscriberRemoved n c d.data.terminal
    return (t.1, sends ++ t.2)
  | _ => return (s', sends)

def onEffect (s : ScatterGatherNode) : Node.Effect → Result
  | .terminalInserted tm => return ({ s with
      subscribers      := Function.update s.subscribers tm ∅
      activeOperations := Function.update s.activeOperations tm [] }, [])
  | .call n h => s.onHook n h
  | e => return (s, [.base e])

def onEffects (s : ScatterGatherNode) : List Node.Effect → Result
  | []      => return (s, [])
  | e :: es => do
    let r ← s.onEffect e
    let t ← onEffects r.1 es
    return (t.1, r.2 ++ t.2)

def onBase (s : ScatterGatherNode) (r : Node.Result) : Result := do
  let r ← r
  let t ← s.onEffects r.2
  return ({ t.1 with node := r.1 }, t.2)

def onSubscribe (s : ScatterGatherNode) (terminalId : Id) (origin : Conn) : Result := do
  let r ← SubscribableNode.onSubscribe s.subscribers s.node terminalId origin
  return ({ s with subscribers := r.1 }, r.2.1.map fun m => .send m.1 m.2)

def onUnsubscribe (s : ScatterGatherNode) (terminalId : Id) (origin : Conn) : Result := do
  let r ← SubscribableNode.onUnsubscribe s.subscribers s.node terminalId origin
  let s' := { s with subscribers := r.1 }
  let sends := r.2.map fun m => .send m.1 m.2
  if ((s.subscribers terminalId).lookup origin).isSome then
    let t ← s'.onSubscriberRemoved s.node origin terminalId
    return (t.1, sends ++ t.2)
  else
    return (s', sends)

-- The owners of the binding that get the message Scatter.
def bindingReceivers (s : ScatterGatherNode) (tm : NodeTerminalInfo) (origin : Conn) :
    Except Fault (List (Conn × Id)) := do
  if tm.binding ≠ 0 then
    let bd ← Node.at! s.node.bindings tm.binding
    let owners := bd.data.owningLeafs.entries.filter (·.1 ≠ origin)
    assert (owners.all (·.2.isMapped))
    return owners.map fun owner => (owner.1, owner.2.mappedId)
  else
    return []

-- Nobody is in the set of remaining responses when it is inserted there.
def onScatter (s : ScatterGatherNode) (subscriptionId operationId : Id) (data : List Byte) (origin : Conn) :
    Result := do
  let e ← Node.at! s.node.terminals subscriptionId
  let subscribers := (s.subscribers e.id).entries.filter (·.1 ≠ origin)
  assert (subscribers.all fun sub => (e.data.usingNodes.lookup sub.1).any (·.isMapped))
  let owners ← s.bindingReceivers e.data origin
  let receivers := subscribers.map (fun sub => (sub.1, sub.2)) ++ owners
  assert (receivers.map (·.1)).Nodup
  let r := s.operations.insert {
    source             := some origin
    sourceOperationId  := operationId
    terminalId         := subscriptionId
    remainingResponses := receivers.map (·.1) }
  if receivers = [] then
    return ({ s with operations := r.1.erase r.2 }, [])
  else
    assert (r.2 ∉ s.activeOperations e.id)
    return ({ s with
      operations       := r.1
      activeOperations := Function.update s.activeOperations e.id (r.2 :: s.activeOperations e.id) },
      receivers.map fun receiver => .scatter receiver.1 receiver.2 r.2 data)

def onGather (s : ScatterGatherNode) (operationId : Id) (flags : Nat) (data : List Byte) (origin : Conn) : Result := do
  let op ← Node.deref (s.operations.get? operationId)
  assert (origin ∈ op.remainingResponses)
  if finished flags then
    let remaining := op.remainingResponses.erase origin
    if remaining = [] then
      if op.source.isSome then
        let e ← Node.at! s.node.terminals op.terminalId
        assert (operationId ∈ s.activeOperations e.id)
        return ((s.deactivate e.id operationId).eraseOperation operationId, toSource op flags data)
      else
        return (s.eraseOperation operationId, toSource op flags data)
    else
      return (s.setOperation operationId { op with remainingResponses := remaining },
        toSource op (flags ^^^ gatherFinished) data)
  else
    return (s, toSource op flags data)

inductive Event
  | connectionStarted (c : Conn)
  | connectionDestroyed (c : Conn)
  | mapping (origin : Conn) (m : Message)
  | subscribe (origin : Conn) (terminalId : Id)
  | unsubscribe (origin : Conn) (terminalId : Id)
  | scatter (origin : Conn) (subscriptionId operationId : Id) (data : List Byte)
  | gather (origin : Conn) (operationId : Id) (flags : Nat) (data : List Byte)

def onEvent (s : ScatterGatherNode) : Event → Result
  | .connectionStarted c           => s.onBase (s.node.onConnectionStarted c)
  | .connectionDestroyed c         => s.onBase (s.node.onConnectionDestroyed c)
  | .mapping origin m              => s.onBase (s.node.onMessageReceived origin m)
  | .subscribe origin tm           => s.onSubscribe tm origin
  | .unsubscribe origin tm         => s.onUnsubscribe tm origin
  | .scatter origin tm i data      => s.onScatter tm i data origin
  | .gather origin i flags data    => s.onGather i flags data origin

-- The messages come from connections. These give proper IDs to their objects and scatter on their own terminals.
def Event.Enabled (s : ScatterGatherNode) : Event → Prop
  | .connectionStarted _ | .connectionDestroyed _ => True
  | .mapping origin m => origin ∈ s.node.connections ∧ Node.Event.Proper s.node (.message origin m)
  | .subscribe origin _ | .unsubscribe origin _ | .gather origin _ _ _ => origin ∈ s.node.connections
  | .scatter origin tm _ _ => origin ∈ s.node.connections ∧ (s.node.ownerOf tm origin).isSome

def system : Machine ScatterGatherNode Event Fault where
  init    := (· = {})
  enabled := fun s a => a.Enabled s
  step    := fun s a => (s.onEvent a).map Prod.fst

end ScatterGatherNode
end Yogi
