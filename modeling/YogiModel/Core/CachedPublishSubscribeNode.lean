import YogiModel.Base.Machine
import YogiModel.Core.SubscribableNode

namespace Yogi

open SubscribableNode (Subscriptions)
open Wire (Byte)

-- The class `cached_publish_subscribe::NodeLogic` with the classes that it inherits from.
structure CachedPublishSubscribeNode where
  node                : Node := {}
  subscribers         : Subscriptions := fun _ => ∅
  lastReceivedMessage : Id → Option (List Byte) := fun _ => none

namespace CachedPublishSubscribeNode

inductive Effect
  | base (e : Node.Effect)
  | send (c : Conn) (m : SubscribableNode.Message)

abbrev Result := Except Fault (CachedPublishSubscribeNode × List Effect)

def sendCachedData (s : CachedPublishSubscribeNode) (c : Conn) (subscriptionId tm : Id) : List Effect :=
  match s.lastReceivedMessage tm with
  | some data => [.send c (.cachedData subscriptionId data)]
  | none      => []

-- What is done in the virtual functions; `n` is the node at the time of the call.

def onBindingOwner (s : CachedPublishSubscribeNode) (n : Node) (c : Conn) (bd mappedId : Id) :
    Except Fault (List Effect) := do
  let d ← Node.deref (n.bindings.get? bd)
  if d.data.terminal = 0 then
    return []
  let e ← Node.at! n.terminals d.data.terminal
  return s.sendCachedData c mappedId e.id

def onHook (s : CachedPublishSubscribeNode) (n : Node) (h : Node.Hook) : Result := do
  let r ← SubscribableNode.onHook s.subscribers n h
  let s := { s with subscribers := r.1 }
  let sends := r.2.map fun m => .send m.1 m.2
  match h with
  | .bindingOwnerAdded c bd mappedId | .bindingOwnerRemapped c bd mappedId =>
    let cached ← s.onBindingOwner n c bd mappedId
    return (s, sends ++ cached)
  | _ => return (s, sends)

def onEffect (s : CachedPublishSubscribeNode) : Node.Effect → Result
  | .terminalInserted tm => return ({ s with
      subscribers         := Function.update s.subscribers tm ∅
      lastReceivedMessage := Function.update s.lastReceivedMessage tm none }, [])
  | .call n h => s.onHook n h
  | e => return (s, [.base e])

def onEffects (s : CachedPublishSubscribeNode) : List Node.Effect → Result
  | []      => return (s, [])
  | e :: es => do
    let r ← s.onEffect e
    let t ← onEffects r.1 es
    return (t.1, r.2 ++ t.2)

def onBase (s : CachedPublishSubscribeNode) (r : Node.Result) : Result := do
  let r ← r
  let t ← s.onEffects r.2
  return ({ t.1 with node := r.1 }, t.2)

-- The function `send_data_to_subscribers`.
def sendDataToSubscribers (s : CachedPublishSubscribeNode) (m : Id → SubscribableNode.Message)
    (terminalId : Id) (origin : Conn) : Except Fault (List Effect) := do
  let e ← Node.at! s.node.terminals terminalId
  let subscribers := (s.subscribers e.id).entries.filter (·.1 ≠ origin)
  assert (subscribers.all fun sub => (e.data.usingNodes.lookup sub.1).any (·.isMapped))
  let toSubscribers := subscribers.map fun sub => .send sub.1 (m sub.2)
  if e.data.binding ≠ 0 then
    let bd ← Node.at! s.node.bindings e.data.binding
    let owners := bd.data.owningLeafs.entries.filter (·.1 ≠ origin)
    assert (owners.all (·.2.isMapped))
    return toSubscribers ++ owners.map fun owner => .send owner.1 (m owner.2.mappedId)
  else
    return toSubscribers

-- The handlers of the messages Data and CachedData.
def onDataMessage (s : CachedPublishSubscribeNode) (m : Id → SubscribableNode.Message) (terminalId : Id)
    (data : List Byte) (origin : Conn) : Result := do
  let e ← Node.at! s.node.terminals terminalId
  let s := { s with lastReceivedMessage := Function.update s.lastReceivedMessage e.id (some data) }
  let sends ← s.sendDataToSubscribers m terminalId origin
  return (s, sends)

def onSubscribe (s : CachedPublishSubscribeNode) (terminalId : Id) (origin : Conn) : Result := do
  let r ← SubscribableNode.onSubscribe s.subscribers s.node terminalId origin
  let s := { s with subscribers := r.1 }
  let sends := r.2.1.map fun m => .send m.1 m.2
  return (s, sends ++ r.2.2.elim [] fun id => s.sendCachedData origin id terminalId)

def onUnsubscribe (s : CachedPublishSubscribeNode) (terminalId : Id) (origin : Conn) : Result := do
  let r ← SubscribableNode.onUnsubscribe s.subscribers s.node terminalId origin
  return ({ s with subscribers := r.1 }, r.2.map fun m => .send m.1 m.2)

inductive Event
  | connectionStarted (c : Conn)
  | connectionDestroyed (c : Conn)
  | mapping (origin : Conn) (m : Message)
  | message (origin : Conn) (m : SubscribableNode.Message)

def onEvent (s : CachedPublishSubscribeNode) : Event → Result
  | .connectionStarted c                        => s.onBase (s.node.onConnectionStarted c)
  | .connectionDestroyed c                      => s.onBase (s.node.onConnectionDestroyed c)
  | .mapping origin m                           => s.onBase (s.node.onMessageReceived origin m)
  | .message origin (.subscribe terminalId)     => s.onSubscribe terminalId origin
  | .message origin (.unsubscribe terminalId)   => s.onUnsubscribe terminalId origin
  | .message origin (.data terminalId data)     =>
    s.onDataMessage (.data · data) terminalId data origin
  | .message origin (.cachedData terminalId data) =>
    s.onDataMessage (.cachedData · data) terminalId data origin

-- The data that has been supplied to a node together with the connections and the terminals, the last
-- one first.
structure Supplied where
  connection : Conn
  terminal   : Id
  data       : List Byte
  deriving DecidableEq

def Event.supplied : Event → List Supplied
  | .message origin (.data terminalId data)       => [⟨origin, terminalId, data⟩]
  | .message origin (.cachedData terminalId data) => [⟨origin, terminalId, data⟩]
  | _                                             => []

structure Run where
  logic    : CachedPublishSubscribeNode := {}
  supplied : List Supplied := []

def Run.act (r : Run) (e : Event) : Except Fault (Run × List Effect) := do
  let t ← r.logic.onEvent e
  return ({ logic := t.1, supplied := e.supplied ++ r.supplied }, t.2)

def machine : Machine Run Event Fault where
  init    := (· = {})
  enabled := fun _ _ => True
  step    := fun r e => (r.act e).map Prod.fst

end CachedPublishSubscribeNode
end Yogi
