import YogiModel.Core.Leaf
import Mathlib

namespace Yogi.SubscribableLeaf

-- What the class `SubscribableLeafLogicBaseT` does besides changing the field `subscribed` that it adds
-- to the entries of terminals.
inductive Effect
  | base (e : Leaf.Effect)
  | publishSubscriptionState (terminal : Nat) (subscribed : Bool)

abbrev Result := Except Fault ((Id → Bool) × List Effect)

def publishSubscriptionState (l : Leaf) (tm : Id) (subscribed : Bool) : List Effect :=
  match (l.terminals.get? tm).bind (·.data.terminal) with
  | some t => [.publishSubscriptionState t subscribed]
  | none   => []

def onTerminalMappingChanged (l : Leaf) (subscribed : Id → Bool) (isMapped : Bool) (tm : Id) : Result :=
  if ¬isMapped then
    if subscribed tm then
      return (Function.update subscribed tm false, publishSubscriptionState l tm false)
    else
      return (subscribed, [])
  else
    match l.connection with
    | none       => .error .dangling
    | some true  => return (Function.update subscribed tm false, [])
    | some false => return (Function.update subscribed tm true, publishSubscriptionState l tm true)

def onEffect (subscribed : Id → Bool) : Leaf.Effect → Result
  | .terminalInserted tm => return (Function.update subscribed tm false, [])
  | .call l (.terminalMappingChanged isMapped tm) =>
    onTerminalMappingChanged l subscribed isMapped tm
  | _ => return (subscribed, [])

-- Extends what the base class does by what is done in the virtual functions.
def onEffects (subscribed : Id → Bool) : List Leaf.Effect → Result
  | []      => return (subscribed, [])
  | e :: es => do
    let r ← onEffect subscribed e
    let s ← onEffects r.1 es
    return (s.1, .base e :: r.2 ++ s.2)

end Yogi.SubscribableLeaf
