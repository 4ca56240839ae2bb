import YogiModel.Core.Node
import YogiModel.Core.PublishSubscribeLeaf

namespace Yogi.SubscribableNode

-- The nodes that have subscribed to a terminal with the IDs of their subscriptions.
abbrev Subscribers := AList fun _ : Conn => Id

abbrev Message := PublishSubscribeLeaf.Message

-- The class `SubscribableNodeLogicBaseT` adds the field `subscribers` to the entries of terminals. Its
-- virtual functions are given the node at the time of the call.
abbrev Subscriptions := Id → Subscribers

abbrev Sends := List (Conn × Message)

abbrev Result := Except Fault (Subscriptions × Sends)

def mappedOwners (tm : NodeTerminalInfo) (exception : Conn) : List (Conn × Id) :=
  ((tm.owningLeafs.entries ++ tm.owningNodes.entries).filter fun o =>
    o.1 ≠ exception ∧ o.2.isMapped).map fun o => (o.1, o.2.mappedId)

def onlySubscriberOrBindingOwner (n : Node) (subs : Subscribers) (tm : NodeTerminalInfo) :
    Except Fault (Option Conn) := do
  if subs.keys.length > 1 then
    return none
  if tm.binding ≠ 0 then
    let bd ← Node.at! n.bindings tm.binding
    match bd.data.owningLeafs.keys with
    | []          => return subs.keys.head?
    | [onlyOwner] =>
      return if subs.keys = [] ∨ subs.keys.head? = some onlyOwner then some onlyOwner else none
    | _           => return none
  else
    return subs.keys.head?

def containsEntriesOtherThan (keys : List Conn) (exception : Conn) : Bool :=
  match keys with
  | []  => false
  | [c] => c ≠ exception
  | _   => true

def atLeastOneBesides (n : Node) (subs : Subscribers) (tm : NodeTerminalInfo) (c : Conn) :
    Except Fault Bool := do
  if tm.binding ≠ 0 then
    let bd ← Node.at! n.bindings tm.binding
    assert (bd.data.owningLeafs.keys ≠ [])
    return containsEntriesOtherThan subs.keys c || containsEntriesOtherThan bd.data.owningLeafs.keys c
  else
    return containsEntriesOtherThan subs.keys c

def secondBindingOwnerOfTwo (bd : NodeBindingInfo) (firstOwner : Conn) : Option Conn :=
  if bd.owningLeafs.keys.length = 2 then bd.owningLeafs.keys.find? (· ≠ firstOwner) else none

def noOtherSubscriberOrBindingOwner (n : Node) (subs : Subscribers) (tm : NodeTerminalInfo)
    (c : Conn) : Except Fault Bool := do
  if tm.binding ≠ 0 then
    let bd ← Node.at! n.bindings tm.binding
    assert (bd.data.owningLeafs.keys ≠ [])
  if subs.keys = [] ∧ tm.binding = 0 then
    return true
  let only ← onlySubscriberOrBindingOwner n subs tm
  return only = some c

def noSubscribersOrBindingOwners (n : Node) (subs : Subscribers) (tm : NodeTerminalInfo) :
    Except Fault Bool := do
  if subs.keys ≠ [] then
    return false
  if tm.binding = 0 then
    return true
  let bd ← Node.at! n.bindings tm.binding
  return bd.data.owningLeafs.keys = []

def terminalOwnerFsmMappedId (tm : NodeTerminalInfo) (c : Conn) : Id :=
  ((Node.ownersMap tm c).lookup c).elim 0 (·.mappedId)

def toOwners (tm : NodeTerminalInfo) (exception : Conn) (m : Id → Message) : Sends :=
  (mappedOwners tm exception).map fun o => (o.1, m o.2)

-- Sends a message to an owner of the terminal, if it is one.
def toOwner (tm : NodeTerminalInfo) (c : Conn) (m : Id → Message) : Sends :=
  let id := terminalOwnerFsmMappedId tm c
  if id ≠ 0 then [(c, m id)] else []

def unsubscribeIfNeeded (n : Node) (subs : Subscribers) (tm : NodeTerminalInfo) (exception : Conn) :
    Except Fault Sends := do
  let onlyConn ← onlySubscriberOrBindingOwner n subs tm
  assert (onlyConn ≠ some exception)
  match onlyConn with
  | some c => return toOwner tm c .unsubscribe
  | none   =>
    let none ← noSubscribersOrBindingOwners n subs tm
    return if none then toOwners tm exception .unsubscribe else []

def removeSubscriberIfNeeded (s : Subscriptions) (n : Node) (c : Conn) (tm : Element NodeTerminalInfo) :
    Result := do
  if ((s tm.id).lookup c).isSome then
    let s := Function.update s tm.id ((s tm.id).erase c)
    let sends ← unsubscribeIfNeeded n (s tm.id) tm.data c
    return (s, sends)
  else
    return (s, [])

-- The owner of a terminal is mapped if it is one.
def assertMapped (owners : FsmMap) (c : Conn) : Except Fault Unit :=
  assert ((owners.lookup c).all (·.isMapped))

def subscribeToOwner (s : Subscriptions) (n : Node) (c : Conn) (tm : Element NodeTerminalInfo)
    (id : Id) : Result := do
  assertMapped tm.data.owningLeafs c
  assertMapped tm.data.owningNodes c
  let others ← atLeastOneBesides n (s tm.id) tm.data c
  return (s, if others then [(c, .subscribe id)] else [])

def onTerminalOwnerAdded (s : Subscriptions) (n : Node) (c : Conn) (tm id : Id) : Result := do
  let e ← Node.deref (n.terminals.get? tm)
  assert ((e.data.owningLeafs.lookup c).isSome != (e.data.owningNodes.lookup c).isSome)
  subscribeToOwner s n c e id

def onTerminalOwnerRemapped (s : Subscriptions) (n : Node) (c : Conn) (tm newMappedId : Id) :
    Result := do
  let e ← Node.deref (n.terminals.get? tm)
  subscribeToOwner s n c e newMappedId

def onTerminalOwnerRemoved (s : Subscriptions) (n : Node) (tm : Id) : Result := do
  let e ← Node.deref (n.terminals.get? tm)
  if e.data.owningLeafs.keys ≠ [] then
    return (s, [])
  match e.data.owningNodes.keys with
  -- if there are no owners then there are no subscribers
  | []  => return (Function.update s tm ∅, [])
  -- if there is only one owning node left, this node cannot be subscribed
  | [c] => return (Function.update s tm ((s tm).erase c), [])
  | _   => return (s, [])

def onTerminalUserRemoved (s : Subscriptions) (n : Node) (c : Conn) (tm : Id) : Result := do
  let e ← Node.deref (n.terminals.get? tm)
  assert (e.data.usingNodes.lookup c).isNone
  removeSubscriberIfNeeded s n c e

def onBindingOwnerAdded (s : Subscriptions) (n : Node) (c : Conn) (bd : Id) : Result := do
  let d ← Node.deref (n.bindings.get? bd)
  assert (d.data.owningLeafs.lookup c).isSome
  if d.data.terminal = 0 then
    return (s, [])
  let e ← Node.at! n.terminals d.data.terminal
  let subs := s e.id
  if ← noOtherSubscriberOrBindingOwner n subs e.data c then
    return (s, toOwners e.data c .subscribe)
  else if subs.keys.length = 1 ∧ d.data.owningLeafs.keys.length = 1 then
    let sub ← Node.deref subs.keys.head?
    match e.data.owningNodes.lookup sub with
    | none   => return (s, [])
    | some f =>
      assert f.isMapped
      return (s, [(sub, .subscribe f.mappedId)])
  else if subs.keys = [] ∧ d.data.owningLeafs.keys.length = 2 then
    let other ← Node.deref (secondBindingOwnerOfTwo d.data c)
    return (s, toOwner e.data other .subscribe)
  else
    return (s, [])

def onBindingOwnerRemoved (s : Subscriptions) (n : Node) (c : Conn) (bd : Id) : Result := do
  let d ← Node.deref (n.bindings.get? bd)
  assert (!c.remoteIsNode)
  assert (d.data.owningLeafs.lookup c).isNone
  if d.data.terminal = 0 then
    return (s, [])
  let e ← Node.at! n.terminals d.data.terminal
  let sends ← unsubscribeIfNeeded n (s e.id) e.data c
  return (s, sends)

def onHook (s : Subscriptions) (n : Node) : Node.Hook → Result
  | .terminalOwnerAdded c tm id        => onTerminalOwnerAdded s n c tm id
  | .terminalOwnerRemoved _ tm         => onTerminalOwnerRemoved s n tm
  | .terminalOwnerRemapped c tm newId  => onTerminalOwnerRemapped s n c tm newId
  | .terminalUserAdded _ _             => return (s, [])
  | .terminalUserRemoved c tm          => onTerminalUserRemoved s n c tm
  | .bindingOwnerAdded c bd _          => onBindingOwnerAdded s n c bd
  | .bindingOwnerRemoved c bd          => onBindingOwnerRemoved s n c bd
  | .bindingOwnerRemapped _ _ _        => return (s, [])

-- The last component is the ID of the subscription unless the user of the terminal is not mapped.
def onSubscribe (s : Subscriptions) (n : Node) (terminalId : Id) (origin : Conn) :
    Except Fault (Subscriptions × Sends × Option Id) := do
  assert origin.remoteIsNode
  let e ← Node.at! n.terminals terminalId
  let subs := s e.id
  assert (subs.lookup origin).isNone
  let f ← match e.data.usingNodes.lookup origin with
    | none   => .error .assertion
    | some f => .ok f
  if !f.isMapped then
    return (s, [], none)
  let otherConn ← onlySubscriberOrBindingOwner n subs e.data
  let sends := match otherConn with
    | some c =>
      if c ≠ origin then toOwner e.data c .subscribe
      else if subs.keys = [] ∧ e.data.binding = 0 then toOwners e.data origin .subscribe else []
    | none   =>
      if subs.keys = [] ∧ e.data.binding = 0 then toOwners e.data origin .subscribe else []
  return (Function.update s e.id (subs.insert origin f.mappedId), sends, some f.mappedId)

def onUnsubscribe (s : Subscriptions) (n : Node) (terminalId : Id) (origin : Conn) : Result := do
  let e ← Node.at! n.terminals terminalId
  removeSubscriberIfNeeded s n origin e

end Yogi.SubscribableNode
