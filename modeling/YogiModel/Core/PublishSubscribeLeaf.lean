import YogiModel.Core.LeafActions
import YogiModel.Core.SubscribableLeaf
import YogiModel.Wire.Serialization

namespace Yogi

open Wire (Byte)

-- The class `PublishSubscribeLeafLogicBaseT` and the class of cached publish-subscribe logics that
-- inherits from it. Producer-consumer and master-slave logics and their cached versions add nothing to
-- them. The fields `lastReceivedMessage` and `lastSentMessage` belong to cached logics.
structure PublishSubscribeLeaf where
  leaf                : Leaf := {}
  subscribed          : Id → Bool := fun _ => false
  lastReceivedMessage : Id → Option (List Byte) := fun _ => none
  lastSentMessage     : Id → Option (List Byte) := fun _ => none

namespace PublishSubscribeLeaf

-- The messages that these logics add to those of the mapping protocol.
inductive Message
  | subscribe (terminalId : Id)
  | unsubscribe (terminalId : Id)
  | data (subscriptionId : Id) (data : List Byte)
  | cachedData (subscriptionId : Id) (data : List Byte)
  deriving DecidableEq, Repr

-- `dataReceived` is the call of the function `on_data_received` of a terminal.
inductive Effect
  | subscribable (e : SubscribableLeaf.Effect)
  | send (m : Message)
  | dataReceived (terminal : Nat) (data : List Byte) (cached : Bool)

abbrev Result := Except Fault (PublishSubscribeLeaf × List Effect)

-- `cached` tells the class of the logic.
variable (cached : Bool)

-- The functions `on_subscribed` and `on_unsubscribed`; `l` is the leaf at the time of the call.
def onSubscribed (s : PublishSubscribeLeaf) (l : Leaf) (tm : Id) : List Effect :=
  (SubscribableLeaf.publishSubscriptionState l tm true).map .subscribable ++
    match l.terminals.get? tm, s.lastSentMessage tm with
    | some e, some data =>
      if cached ∧ e.data.fsm.isMapped then [.send (.cachedData e.data.fsm.mappedId data)] else []
    | _, _ => []

def onUnsubscribed (l : Leaf) (tm : Id) : List Effect :=
  (SubscribableLeaf.publishSubscriptionState l tm false).map .subscribable

def onTerminalMappingChanged (s : PublishSubscribeLeaf) (l : Leaf) (isMapped : Bool) (tm : Id) :
    Result :=
  if ¬isMapped then
    if s.subscribed tm then
      return ({ s with subscribed := Function.update s.subscribed tm false }, onUnsubscribed l tm)
    else
      return (s, [])
  else
    match l.connection with
    | none       => .error .dangling
    | some true  => return ({ s with subscribed := Function.update s.subscribed tm false }, [])
    | some false =>
      let s := { s with subscribed := Function.update s.subscribed tm true }
      return (s, s.onSubscribed cached l tm)

-- What inheriting classes do when the base class has made a step.
def onEffect (s : PublishSubscribeLeaf) : Leaf.Effect → Result
  | .terminalInserted tm =>
    return ({ s with
      subscribed          := Function.update s.subscribed tm false
      lastReceivedMessage := Function.update s.lastReceivedMessage tm none
      lastSentMessage     := Function.update s.lastSentMessage tm none }, [])
  | .call l (.terminalMappingChanged isMapped tm) => s.onTerminalMappingChanged cached l isMapped tm
  | e => return (s, [.subscribable (.base e)])

def onEffects (s : PublishSubscribeLeaf) : List Leaf.Effect → Result
  | []      => return (s, [])
  | e :: es => do
    let r ← s.onEffect cached e
    let t ← onEffects r.1 es
    return (t.1, r.2 ++ t.2)

def onBase (s : PublishSubscribeLeaf) (r : Leaf.Result) : Result := do
  let r ← r
  let t ← s.onEffects cached r.2
  return ({ t.1 with leaf := r.1 }, t.2)

def onSubscribe (s : PublishSubscribeLeaf) (terminalId : Id) : Result := do
  let _ ← s.leaf.terminal! terminalId
  assert (s.leaf.connection = some true)
  assert !s.subscribed terminalId
  let s := { s with subscribed := Function.update s.subscribed terminalId true }
  return (s, s.onSubscribed cached s.leaf terminalId)

def onUnsubscribe (s : PublishSubscribeLeaf) (terminalId : Id) : Result := do
  let _ ← s.leaf.terminal! terminalId
  assert (s.leaf.connection = some true)
  assert (s.subscribed terminalId)
  let s := { s with subscribed := Function.update s.subscribed terminalId false }
  return (s, onUnsubscribed s.leaf terminalId)

-- The functions `on_data_received` and `on_cached_data_received` of the logic.
def onDataReceived (s : PublishSubscribeLeaf) (tm : Element TerminalInfo) (data : List Byte)
    (isCached : Bool) : Result :=
  let s := if cached then
      { s with lastReceivedMessage := Function.update s.lastReceivedMessage tm.id (some data) }
    else s
  match tm.data.terminal with
  | some t => return (s, [.dataReceived t data isCached])
  | none   => .error .dangling

-- The handlers of the messages Data and CachedData; the data is for the terminal of the first binding.
def onDataMessage (s : PublishSubscribeLeaf) (subscriptionId : Id) (data : List Byte)
    (isCached : Bool) : Result := do
  let bd ← s.leaf.binding! subscriptionId
  match bd.data.bindings with
  | []     => return (s, [])
  | b :: _ => do
    let info ← s.leaf.terminal! b.terminal
    s.onDataReceived cached info data isCached

def onMessageReceived (s : PublishSubscribeLeaf) : Message → Result
  | .subscribe terminalId           => s.onSubscribe cached terminalId
  | .unsubscribe terminalId         => s.onUnsubscribe terminalId
  | .data subscriptionId data       => s.onDataMessage cached subscriptionId data false
  | .cachedData subscriptionId data =>
    if cached then s.onDataMessage cached subscriptionId data true else .error .unhandled

def publish (s : PublishSubscribeLeaf) (terminal : Id) (data : List Byte) : Result := do
  let tm ← s.leaf.terminal! terminal
  let es ←
    if s.subscribed terminal then do
      assert s.leaf.connection.isSome
      pure [.send (.data tm.data.fsm.mappedId data)]
    else
      pure []
  -- the function `on_data_published`
  let s := if cached then
      { s with lastSentMessage := Function.update s.lastSentMessage terminal (some data) }
    else s
  return (s, es)

inductive Action
  | base (a : Leaf.Action)
  | messageReceived (m : Message)
  | publish (terminal : Id) (data : List Byte)

def enabled (s : PublishSubscribeLeaf) : Action → Prop
  | .base a             => s.leaf.enabled a
  | .messageReceived _  => s.leaf.connection ≠ none
  | .publish terminal _ => s.leaf.objectOf terminal ≠ none

instance {s : PublishSubscribeLeaf} {a : Action} : Decidable (s.enabled a) := by
  cases a <;> simp only [enabled] <;> infer_instance

def step (s : PublishSubscribeLeaf) : Action → Result
  | .base a                => s.onBase cached (s.leaf.act a)
  | .messageReceived m     => s.onMessageReceived cached m
  | .publish terminal data => s.publish cached terminal data

def machine : Machine PublishSubscribeLeaf Action Fault where
  init    := fun s => s = {}
  enabled := enabled
  step    := fun s a => (s.step cached a).map Prod.fst

instance {s a} : Decidable ((machine cached).enabled s a) :=
  inferInstanceAs (Decidable (s.enabled a))

end PublishSubscribeLeaf
end Yogi
