import YogiModel.Mapping.Automaton

namespace Yogi.Mapping

open FsmState

-- The mapping protocol for a single identifier. Each of the two peers creates and destroys objects
-- one after the other, which are numbered by their generation. Unlike in the real thing, where there
-- are only IDs and counters, objects and messages name the generations they are about.
structure Obj where
  state  : FsmState
  mapped : Option Nat := none
  acked  : Bool := false
  skip   : List Nat := []

-- `dst` is the generation of the receiver's object and `src` that of the sender's.
inductive Msg
  | desc (src : Nat)
  | map (dst src : Nat)
  | noticed (dst : Nat)
  | removed (dst src : Nat)
  | ack (dst src : Nat)
  deriving DecidableEq

-- `next` is the number of objects created so far, `known` the number of descriptions received and
-- `conf` the number of replies received.
structure Peer where
  obj   : Nat → Option Obj := fun _ => none
  next  : Nat := 0
  known : Nat := 0
  conf  : Nat := 0

structure Pair where
  p  : Peer := {}
  q  : Peer := {}
  pq : List Msg := []
  qp : List Msg := []

namespace Obj

def rel (o : Obj) (b : Nat) : Rel :=
  if b ∈ o.skip then .skip
  else if o.mapped = some b then
    if o.state = awaitAck then (if o.acked then .rma else .rem) else .act
  else .no

def side (b : Nat) : Option Obj → End
  | none   => .gone
  | some o => .live (o.rel b) o.state

-- All generations the object refers to, in the order in which it came to know them.
def refs (o : Obj) : List Nat :=
  o.skip ++ o.mapped.toList

def acks (m : Option Nat) (a : Nat) : List Msg :=
  m.toList.map (.ack · a)

def removals (m : Option Nat) (a : Nat) : List Msg :=
  m.toList.map (.removed · a)

-- The transitions of an object of generation `a` with the messages they give rise to. Where an
-- object is superseded, its removal is acknowledged in advance.
def destroy (o : Obj) (a : Nat) : Option Obj × List Msg :=
  match o.state with
  | mappedConfirmed => (some { o with state := awaitAck }, removals o.mapped a)
  | unusedConfirmed => (if o.skip = [] then none else some { o with state := awaitRemovals }, [])
  | _               => (some { o with state := awaitConfirmation }, [])

def describe (o : Obj) (a b : Nat) : Option Obj × List Msg :=
  (some { o with state := described o.state, mapped := some b, skip := o.refs },
   acks o.mapped a ++ [.map b a])

def confirm (o : Obj) (a b : Nat) : Option Obj × List Msg :=
  match o.state with
  | awaitConfirmation =>
    let old := o.mapped.filter (· ≠ b)
    (some { o with state := awaitAck, mapped := some b, skip := o.skip ++ old.toList },
     acks old a ++ [.removed b a])
  | _ => (some { o with state := mappedConfirmed, mapped := some b }, [])

def notice (o : Obj) (a : Nat) : Option Obj × List Msg :=
  match o.state with
  | awaitConfirmation =>
    (if o.mapped = none then none
     else some { o with state := awaitRemovals, mapped := none, skip := o.refs },
     acks o.mapped a)
  | _ =>
    (some { o with state := unusedConfirmed, mapped := none, skip := o.refs },
     acks o.mapped a)

def remove (o : Obj) (a : Nat) : Option Obj × List Msg :=
  match o.skip with
  | [] =>
    (some (if o.state = awaitAck then { o with acked := true }
           else { o with state := unusedConfirmed, mapped := none }),
     acks o.mapped a)
  | _ :: l => (if o.state = awaitRemovals ∧ l = [] then none else some { o with skip := l }, [])

end Obj

namespace Msg

def letter (a b : Nat) : Msg → Option Letter
  | desc src        => if src = a then some .desc else none
  | map dst src     => if dst = b then some (if src = a then .map else .remap) else none
  | noticed dst     => if dst = b then some .noticed else none
  | removed dst src => if dst = b ∧ src = a then some .removed else none
  | ack dst src     => if dst = b ∧ src = a then some .ack else none

-- The part of a channel that concerns an object `a` of the sender and an object `b` of the receiver.
def word (a b : Nat) (l : List Msg) : List Letter :=
  l.filterMap (letter a b)

-- The object whose description the message is a reply to.
def reply : Msg → Option Nat
  | map dst _   => some dst
  | noticed dst => some dst
  | _           => none

-- What holds for a message and a message sent later.
def Ordered : Msg → Msg → Prop
  | desc a,      desc a'       => a < a'
  | desc a,      map _ a'      => a ≤ a'
  | map b _,     map b' _      => b < b'
  | map b _,     noticed b'    => b < b'
  | noticed b,   map b' _      => b < b'
  | noticed b,   noticed b'    => b < b'
  | removed b a, removed b' a' => b = b' → a < a'
  | ack b a,     removed b' a' => b = b' → a ≤ a'
  | _,           _             => True

end Msg

namespace Peer

def side (p : Peer) (a b : Nat) : End :=
  if p.next ≤ a then .new else Obj.side b (p.obj a)

-- The object that is visible to the outside is always the youngest one.
def front (p : Peer) : Option Obj :=
  match p.next with
  | 0     => none
  | n + 1 => (p.obj n).filter (visible ·.state)

def put (p : Peer) (a : Nat) (o : Option Obj) : Peer :=
  { p with obj := Function.update p.obj a o }

end Peer

namespace Pair

def swap (s : Pair) : Pair := ⟨s.q, s.p, s.qp, s.pq⟩

def view (s : Pair) (a b : Nat) : View where
  p  := s.p.side a b
  pq := Msg.word a b s.pq
  qp := Msg.word b a s.qp
  q  := s.q.side b a

-- An object is created by `p` and described to `q`.
def create (s : Pair) : Pair :=
  { s with
    p  := { s.p.put s.p.next (some { state := unusedUnconfirmed }) with next := s.p.next + 1 }
    pq := s.pq ++ [.desc s.p.next] }

-- The first object is created without `q` being told about it.
def createSilent (s : Pair) : Pair :=
  { s with
    p := { s.p.put 0 (some { state := unusedConfirmed }) with next := 1, conf := 1 }
    q := { s.q with known := 1 } }

-- An object `a` of `p` makes a transition.
def put (s : Pair) (a : Nat) (r : Option Obj × List Msg) : Pair :=
  { s with p := s.p.put a r.1, pq := s.pq ++ r.2 }

def destroy (s : Pair) (a : Nat) : Pair :=
  match s.p.obj a with
  | none   => s
  | some o => s.put a (o.destroy a)

-- The messages received by `p` after they have been taken from the channel.
def handle (s : Pair) : Msg → Pair
  | .desc b =>
    let s' := { s with p := { s.p with known := b + 1 } }
    match s.p.front with
    | none   => { s' with pq := s.pq ++ [.noticed b] }
    | some o => s'.put (s.p.next - 1) (o.describe (s.p.next - 1) b)
  | .map a b =>
    match s.p.obj a with
    | none   => s
    | some o => { s with p := { s.p with conf := a + 1 } }.put a (o.confirm a b)
  | .noticed a =>
    match s.p.obj a with
    | none   => s
    | some o => { s with p := { s.p with conf := a + 1 } }.put a (o.notice a)
  | .removed a _ =>
    match s.p.obj a with
    | none   => s
    | some o => s.put a (o.remove a)
  | .ack a _ => s.put a (none, [])

def receive (s : Pair) : Pair :=
  match s.qp with
  | []     => s
  | m :: l => { s with qp := l }.handle m

end Pair
end Yogi.Mapping
