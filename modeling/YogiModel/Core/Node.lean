import YogiModel.Core.Message
import Mathlib

namespace Yogi

-- A connection as it is seen by one of its endpoints.
structure Conn where
  id           : Nat
  remoteIsNode : Bool
  deriving DecidableEq, Repr

abbrev FsmMap := AList fun _ : Conn => Fsm

inductive TerminalState
  | justCreated
  | owners1Leafs0Nodes
  | ownersMLeafs0Nodes
  | owners0Leafs1Nodes
  | owners0LeafsMNodes
  | ownersNLeafsNNodes
  | awaitAcks
  deriving DecidableEq, Repr

structure NodeTerminalInfo where
  state       : TerminalState := .justCreated
  owningLeafs : FsmMap := ∅
  owningNodes : FsmMap := ∅
  usingNodes  : FsmMap := ∅
  binding     : Id := 0

structure NodeBindingInfo where
  owningLeafs : FsmMap := ∅
  terminal    : Id := 0

-- The class `NodeLogicBaseT`. The order of the entries of its unordered containers is that of their
-- insertion here.
structure Node where
  leafConnections : List Conn := []
  nodeConnections : List Conn := []
  terminals       : Register NodeTerminalInfo := .empty
  bindings        : Register NodeBindingInfo := .empty

namespace Node

-- The virtual functions that inheriting classes may override.
inductive Hook
  | terminalOwnerAdded (connection : Conn) (tm : Id) (id : Id)
  | terminalOwnerRemoved (connection : Conn) (tm : Id)
  | terminalOwnerRemapped (connection : Conn) (tm : Id) (newMappedId : Id)
  | terminalUserAdded (connection : Conn) (tm : Id)
  | terminalUserRemoved (connection : Conn) (tm : Id)
  | bindingOwnerAdded (connection : Conn) (bd : Id) (mappedId : Id)
  | bindingOwnerRemoved (connection : Conn) (bd : Id)
  | bindingOwnerRemapped (connection : Conn) (bd : Id) (newMappedId : Id)

-- What the logic does besides changing its state, in the order in which it happens. Calls of virtual
-- functions come with the state at the time of the call. `terminalInserted` stands for the
-- initialisation of the part of an entry that belongs to inheriting classes.
inductive Effect
  | send (connection : Conn) (m : Message)
  | knownTerminalsChanged (x : Identifier) (added : Bool)
  | terminalInserted (tm : Id)
  | call (node : Node) (hook : Hook)

abbrev Result := Except Fault (Node × List Effect)

-- What is sent by a transition of the state machine that belongs to a connection.
def post (c : Conn) (r : Role) (x : Identifier) (own remote : Id) (cs : List Fsm.Call) : List Effect :=
  (cs.filterMap (·.body x own remote)).map fun b => .send c (r.message b)

-- The argument of the last call with which an old mapping is acknowledged to be removed.
def oldMappedId : List Fsm.Call → Id
  | []                   => 0
  | .sendRemAck id :: cs => if oldMappedId cs = 0 then id else oldMappedId cs
  | _ :: cs              => oldMappedId cs

-- Iterators are dereferenced without a check.
def deref {α : Type} (o : Option α) : Except Fault α :=
  match o with
  | some a => .ok a
  | none   => .error .dangling

-- The `operator[]` of a register.
def at! {α : Type} (r : Register α) (i : Id) : Except Fault (Element α) :=
  match r.get? i with
  | some e => .ok e
  | none   => .error .assertion

def modifyTerminal (n : Node) (tm : Id) (f : NodeTerminalInfo → NodeTerminalInfo) : Node :=
  { n with terminals := n.terminals.modify tm f }

def modifyBinding (n : Node) (bd : Id) (f : NodeBindingInfo → NodeBindingInfo) : Node :=
  { n with bindings := n.bindings.modify bd f }

-- Does something for all IDs of a register.
def forEach (f : Node → Id → Result) (n : Node) : List Id → Result
  | []      => .ok (n, [])
  | i :: is => do
    let r ← f n i
    let s ← forEach f r.1 is
    return (s.1, r.2 ++ s.2)

def associateTerminal (n : Node) (tm : Id) : Except Fault (Node × Option Id) := do
  let e ← deref (n.terminals.get? tm)
  if e.data.binding ≠ 0 then
    match n.bindings.get? e.data.binding with
    | none   => .error .assertion
    | some d =>
      assert (d.data.terminal = tm)
      return (n, some e.data.binding)
  else
    match n.bindings.find? e.identifier with
    | none   => return (n, none)
    | some d =>
      let n := n.modifyBinding d.id ({ · with terminal := tm })
      return (n.modifyTerminal tm ({ · with binding := d.id }), some d.id)

def associateBinding (n : Node) (bd : Id) : Except Fault (Node × Option Id) := do
  let e ← deref (n.bindings.get? bd)
  if e.data.terminal ≠ 0 then
    match n.terminals.get? e.data.terminal with
    | none   => .error .assertion
    | some d =>
      assert (d.data.binding = bd)
      return (n, some e.data.terminal)
  else
    match n.terminals.find? e.identifier with
    | none   => return (n, none)
    | some d =>
      let n := n.modifyTerminal d.id ({ · with binding := bd })
      return (n.modifyBinding bd ({ · with terminal := d.id }), some d.id)

def disassociateTerminal (n : Node) (tm : Id) : Except Fault Node := do
  let e ← deref (n.terminals.get? tm)
  if e.data.binding ≠ 0 then
    let d ← at! n.bindings e.data.binding
    let n := n.modifyBinding d.id ({ · with terminal := 0 })
    return n.modifyTerminal tm ({ · with binding := 0 })
  else
    return n

def disassociateBinding (n : Node) (bd : Id) : Except Fault Node := do
  let e ← deref (n.bindings.get? bd)
  if e.data.terminal ≠ 0 then
    let d ← at! n.terminals e.data.terminal
    let n := n.modifyTerminal d.id ({ · with binding := 0 })
    return n.modifyBinding bd ({ · with terminal := 0 })
  else
    return n

def ownersMap (d : NodeTerminalInfo) (c : Conn) : FsmMap :=
  if c.remoteIsNode then d.owningNodes else d.owningLeafs

def setOwnersMap (d : NodeTerminalInfo) (c : Conn) (owners : FsmMap) : NodeTerminalInfo :=
  if c.remoteIsNode then { d with owningNodes := owners } else { d with owningLeafs := owners }

def stateOf (d : NodeTerminalInfo) : TerminalState :=
  match d.owningLeafs.keys, d.owningNodes.keys with
  | [],  []  => .awaitAcks
  | [],  [_] => .owners0Leafs1Nodes
  | [],  _   => .owners0LeafsMNodes
  | [_], []  => .owners1Leafs0Nodes
  | [_], _   => .ownersNLeafsNNodes
  | _,   []  => .ownersMLeafs0Nodes
  | _,   _   => .ownersNLeafsNNodes

-- The last component tells whether the terminal still exists.
def updateState (n : Node) (tm : Id) : Except Fault (Node × List Effect × Bool) := do
  let e ← deref (n.terminals.get? tm)
  if e.data.owningLeafs.keys = [] ∧ e.data.owningNodes.keys = [] ∧ e.data.usingNodes.keys = [] then
    -- inform library user that we no longer know the terminal
    let es := if e.identifier.hidden then [] else [.knownTerminalsChanged e.identifier false]
    return ({ n with terminals := n.terminals.erase tm }, es, false)
  else
    return (n.modifyTerminal tm fun d => { d with state := stateOf d }, [], true)

-- The loop over the users of a terminal, the entries of which are visited in the given order.
def abandonUsers (n : Node) (tm : Id) (exception : Conn) : List Conn → Result
  | []      => return (n, [])
  | c :: cs => do
    let e ← deref (n.terminals.get? tm)
    let f ← deref (e.data.usingNodes.lookup c)
    if c = exception ∨ f.destroyed then
      abandonUsers n tm exception cs
    else
      let out ← f.processObjectDestroyed
      let sends := post c .terminal e.identifier tm 0 out.calls
      if out.alive then
        let n := n.modifyTerminal tm fun d => { d with usingNodes := d.usingNodes.insert c out.fsm }
        let r ← abandonUsers n tm exception cs
        return (r.1, sends ++ r.2)
      else
        let n := n.modifyTerminal tm fun d => { d with usingNodes := d.usingNodes.erase c }
        let r ← abandonUsers n tm exception cs
        return (r.1, sends ++ .call n (.terminalUserRemoved c tm) :: r.2)

def updateUsersForAbandonedTerminal (n : Node) (tm : Id) (exception : Conn) : Result := do
  let e ← deref (n.terminals.get? tm)
  abandonUsers n tm exception e.data.usingNodes.keys

-- All owners of a binding except for one connection are told about its state.
def established (bd : Element NodeBindingInfo) (exception : Conn) : List Effect :=
  (bd.data.owningLeafs.entries.filter (·.1 ≠ exception)).map fun owner =>
    .send owner.1 (.bindingEstablished owner.2.mappedId)

def released (bd : Element NodeBindingInfo) (exception : Conn) : List Effect :=
  (bd.data.owningLeafs.entries.filter (·.1 ≠ exception)).map fun owner =>
    .send owner.1 (.bindingReleased owner.2.mappedId)

-- If there is now only one owning node left, we tell that node that we do not own the terminal any
-- more.
def updateLastOwningNode (n : Node) (tm : Id) : Result := do
  let e ← deref (n.terminals.get? tm)
  let c ← deref e.data.owningNodes.keys.head?
  let user ← deref (e.data.usingNodes.lookup c)
  if user.destroyed then
    return (n, [])
  else
    let out ← user.processObjectDestroyed
    assert out.alive
    return (n.modifyTerminal tm fun d => { d with usingNodes := d.usingNodes.insert c out.fsm },
      post c .terminal e.identifier tm 0 out.calls)

-- Update the state of the bindings after the removal of the owner `c` of a terminal that still exists.
def releaseBindings (n : Node) (tm bindingId : Id) (c : Conn) : Except Fault (List Effect) := do
  if bindingId = 0 then
    return []
  let e ← deref (n.terminals.get? tm)
  let bd ← at! n.bindings bindingId
  if e.data.state = .owners1Leafs0Nodes then
    let leaf ← deref e.data.owningLeafs.keys.head?
    match bd.data.owningLeafs.lookup leaf with
    | none       => return []
    | some owner => return [.send leaf (.bindingReleased owner.mappedId)]
  else if e.data.state = .awaitAcks then
    return released bd c
  else
    return []

-- The part of `remove_terminal_owner` that follows the removal of the entry of the owner.
def terminalOwnerRemoved (n : Node) (tm : Id) (c : Conn) : Result := do
  let called := [.call n (.terminalOwnerRemoved c tm)]
  let e ← deref (n.terminals.get? tm)
  -- store the binding Id for later
  let bindingId := e.data.binding
  let (n, abandoned) ←
    match e.data.state with
    | .owners1Leafs0Nodes | .owners0Leafs1Nodes => do
      let n := { n with terminals := n.terminals.hide tm }
      let n ← n.disassociateTerminal tm
      n.updateUsersForAbandonedTerminal tm c
    | .ownersMLeafs0Nodes | .ownersNLeafsNNodes | .owners0LeafsMNodes => pure (n, [])
    | .awaitAcks | .justCreated => .error .neverReached
  let (n, known, alive) ← n.updateState tm
  if ¬alive then
    if bindingId = 0 then
      return (n, called ++ abandoned ++ known)
    let bd ← at! n.bindings bindingId
    return (n, called ++ abandoned ++ known ++ released bd c)
  let e ← deref (n.terminals.get? tm)
  let (n, told) ←
    if e.data.state = .owners0Leafs1Nodes then n.updateLastOwningNode tm else pure (n, [])
  let bindings ← n.releaseBindings tm bindingId c
  -- if the terminal does not have any owners any more, we remove the association with the binding
  let n ← if e.hidden then n.disassociateTerminal tm else pure n
  return (n, called ++ abandoned ++ known ++ told ++ bindings)

def removeTerminalOwner (n : Node) (tm : Id) (c : Conn) (brokenConnection : Bool) : Result := do
  let e ← deref (n.terminals.get? tm)
  match (ownersMap e.data c).lookup c with
  | none   => if brokenConnection then return (n, []) else .error .dangling
  | some f =>
    if brokenConnection then
      let n := n.modifyTerminal tm fun d => setOwnersMap d c ((ownersMap d c).erase c)
      n.terminalOwnerRemoved tm c
    else
      let out ← f.processRcvdRemoved
      let sends := post c .binding e.identifier tm 0 out.calls
      let stillOwned := out.calls.all fun | .mappStCh _ => false | _ => true
      if stillOwned then
        return (n.modifyTerminal tm fun d => setOwnersMap d c ((ownersMap d c).insert c out.fsm), sends)
      else
        let n := n.modifyTerminal tm fun d => setOwnersMap d c ((ownersMap d c).erase c)
        let r ← n.terminalOwnerRemoved tm c
        return (r.1, sends ++ r.2)

-- A user is told about a terminal.
def describe (n : Node) (tm : Id) (x : Identifier) (c : Conn) : Node × List Effect :=
  let out := Fsm.reset {} false
  (n.modifyTerminal tm fun d => { d with usingNodes := d.usingNodes.insert c out.fsm },
    post c .terminal x tm 0 out.calls)

def describeToAll (n : Node) (tm : Id) (x : Identifier) : List Conn → Node × List Effect
  | []      => (n, [])
  | c :: cs =>
    let r := n.describe tm x c
    let s := describeToAll r.1 tm x cs
    (s.1, r.2 ++ s.2)

def onConnectionStarted (n : Node) (c : Conn) : Result := do
  if c.remoteIsNode then
    -- tell the node what we've got
    let r ← forEach (fun n tm => do
      let e ← deref (n.terminals.get? tm)
      if e.hidden then
        return (n, [])
      assert (e.data.usingNodes.lookup c).isNone
      let r := n.describe tm e.identifier c
      return (r.1, r.2 ++ [.call r.1 (.terminalUserAdded c tm)])) n n.terminals.ids
    assert (c ∉ r.1.nodeConnections)
    return ({ r.1 with nodeConnections := r.1.nodeConnections ++ [c] }, r.2)
  else
    assert (c ∉ n.leafConnections)
    return ({ n with leafConnections := n.leafConnections ++ [c] }, [])

def onConnectionDestroyed (n : Node) (c : Conn) : Result := do
  if c ∉ (if c.remoteIsNode then n.nodeConnections else n.leafConnections) then
    return (n, [])
  let n :=
    if c.remoteIsNode then { n with nodeConnections := n.nodeConnections.erase c }
    else { n with leafConnections := n.leafConnections.erase c }
  -- remove binding owners
  let r ← forEach (fun n bd => do
    let e ← deref (n.bindings.get? bd)
    let m := n.modifyBinding bd fun d => { d with owningLeafs := d.owningLeafs.erase c }
    let called := if (e.data.owningLeafs.lookup c).isSome then
      [.call m (.bindingOwnerRemoved c bd)] else []
    if (e.data.owningLeafs.erase c).keys = [] then
      let m ← m.disassociateBinding bd
      return ({ m with bindings := m.bindings.erase bd }, called)
    else
      return (m, called)) n n.bindings.ids
  -- remove terminal owners and users and inform other nodes
  let s ← forEach (fun n tm => do
    let n := n.modifyTerminal tm fun d => { d with usingNodes := d.usingNodes.erase c }
    let called := [.call n (.terminalUserRemoved c tm)]
    let (n, known, alive) ← n.updateState tm
    if alive then
      let r ← n.removeTerminalOwner tm c true
      return (r.1, called ++ known ++ r.2)
    else
      return (n, called ++ known)) r.1 r.1.terminals.ids
  return (s.1, r.2 ++ s.2)

def getKnownTerminals (n : Node) : List Identifier :=
  (n.terminals.elements.map (·.identifier)).filter (!·.hidden)

-- Tells all users or the only owning node about a new owner.
def informUsers (n : Node) (tm : Id) (origin : Conn) : Result := do
  let e ← deref (n.terminals.get? tm)
  match e.data.state with
  | .justCreated =>
    return n.describeToAll tm e.identifier (n.nodeConnections.filter (· ≠ origin))
  | .owners1Leafs0Nodes | .ownersMLeafs0Nodes | .owners0LeafsMNodes | .ownersNLeafsNNodes =>
    return (n, [])
  | .owners0Leafs1Nodes =>
    -- tell the owning node that we now own the terminal too
    let owner ← deref (e.data.owningNodes.keys.find? (· ≠ origin))
    if (e.data.usingNodes.lookup owner).isNone then
      return n.describe tm e.identifier owner
    else
      return (n, [])
  | .awaitAcks => .error .neverReached

-- Update the state of the bindings after the addition of the owner `c` of a terminal.
def establishBindings (n : Node) (tm : Id) (bd : Option Id) (c : Conn) : Except Fault (List Effect) := do
  match bd with
  | none    => return []
  | some bd => do
    let e ← deref (n.terminals.get? tm)
    let d ← deref (n.bindings.get? bd)
    if e.data.state = .justCreated then
      return established d c
    else if e.data.state = .owners1Leafs0Nodes then
      match e.data.owningLeafs.keys.find? (· ≠ c) with
      | none      => return []
      | some leaf =>
        match d.data.owningLeafs.lookup leaf with
        | none       => return []
        | some owner => return [.send leaf (.bindingEstablished owner.mappedId)]
    else
      return []

def onTerminalDescription (n : Node) (x : Identifier) (id : Id) (origin : Conn) : Result := do
  -- find/create the terminal info entry
  let (terminals, tm, inserted) := n.terminals.insert x {}
  let n := { n with terminals := terminals }
  let insertion := if inserted then [.terminalInserted tm] else []
  let e ← deref (n.terminals.get? tm)
  let terminalAdded := e.data.state = .justCreated
  let owner := (ownersMap e.data origin).lookup origin
  let out ← (owner.getD {}).processRcvdDescription id
  let n := n.modifyTerminal tm fun d =>
    setOwnersMap d origin ((ownersMap d origin).insert origin out.fsm)
  let replies := insertion ++ post origin .binding x tm id out.calls
  if oldMappedId out.calls ≠ 0 then
    return (n, replies ++ [.call n (.terminalOwnerRemapped origin tm out.fsm.mappedId)])
  let (n, users) ← n.informUsers tm origin
  let (n, bd) ← n.associateTerminal tm
  let bindings ← n.establishBindings tm bd origin
  let (n, known, _) ← n.updateState tm
  let added := if owner.isNone then [.call n (.terminalOwnerAdded origin tm id)] else []
  let known' := if terminalAdded ∧ ¬x.hidden then [.knownTerminalsChanged x true] else []
  return (n, replies ++ users ++ bindings ++ known ++ added ++ known')

def onTerminalMapping (n : Node) (terminalId mappedId : Id) (origin : Conn) : Result := do
  assert origin.remoteIsNode
  let e ← deref (n.terminals.get? terminalId)
  if e.data.state = .justCreated then
    .error .neverReached
  let out ← ((e.data.usingNodes.lookup origin).getD {}).processRcvdMapping mappedId
  if out.calls.any fun | .sendRemAck _ => true | _ => false then
    .error .neverReached
  return (n.modifyTerminal terminalId fun d =>
      { d with usingNodes := d.usingNodes.insert origin out.fsm },
    post origin .terminal e.identifier terminalId mappedId out.calls)

def onTerminalRemoved (n : Node) (mappedId : Id) (origin : Conn) : Result :=
  n.removeTerminalOwner mappedId origin false

def onTerminalRemovedAck (n : Node) (terminalId : Id) (origin : Conn) : Result := do
  assert origin.remoteIsNode
  let e ← deref (n.terminals.get? terminalId)
  let user := e.data.usingNodes.lookup origin
  let describe : Result := do
    let _ ← deref user
    return n.describe terminalId e.identifier origin
  let acknowledge : Result := do
    let f ← deref user
    let out ← f.processRcvdRemovedAck
    if out.alive then
      return (n.modifyTerminal terminalId fun d =>
        { d with usingNodes := d.usingNodes.insert origin out.fsm }, [])
    else
      let n := n.modifyTerminal terminalId fun d =>
        { d with usingNodes := d.usingNodes.erase origin }
      return (n, [.call n (.terminalUserRemoved origin terminalId)])
  let (n, es) ←
    match e.data.state with
    | .justCreated => .error .neverReached
    | .owners0LeafsMNodes | .owners1Leafs0Nodes | .ownersNLeafsNNodes | .ownersMLeafs0Nodes => describe
    | .owners0Leafs1Nodes =>
      if (e.data.owningNodes.lookup origin).isNone then describe else acknowledge
    | .awaitAcks => acknowledge
  let e ← deref (n.terminals.get? terminalId)
  -- if there are no more owners and no more users, we remove the association with the binding
  let n ←
    if e.data.owningLeafs.keys = [] ∧ e.data.owningNodes.keys = [] ∧ e.data.usingNodes.keys = [] then
      n.disassociateTerminal terminalId
    else
      pure n
  let (n, known, _) ← n.updateState terminalId
  return (n, es ++ known)

def onBindingDescription (n : Node) (x : Identifier) (id : Id) (origin : Conn) : Result := do
  assert (!origin.remoteIsNode)
  let (bindings, bd, _) := n.bindings.insert x {}
  let n := { n with bindings := bindings }
  let e ← deref (n.bindings.get? bd)
  let out ← ((e.data.owningLeafs.lookup origin).getD {}).processRcvdDescription id
  let n := n.modifyBinding bd fun d => { d with owningLeafs := d.owningLeafs.insert origin out.fsm }
  let replies := post origin .terminal x bd id out.calls
  if oldMappedId out.calls ≠ 0 then
    return (n, replies ++ [.call n (.bindingOwnerRemapped origin bd out.fsm.mappedId)])
  let (n, tm) ← n.associateBinding bd
  -- check if the binding is established
  let established ←
    match tm with
    | none    => pure []
    | some tm => do
      let e ← deref (n.terminals.get? tm)
      if e.data.state ≠ .owners1Leafs0Nodes ∨ e.data.owningLeafs.keys.head? ≠ some origin then
        pure [.send origin (.bindingEstablished id)]
      else
        pure []
  return (n, replies ++ established ++ [.call n (.bindingOwnerAdded origin bd out.fsm.mappedId)])

def onBindingRemoved (n : Node) (mappedId : Id) (origin : Conn) : Result := do
  assert (!origin.remoteIsNode)
  let e ← deref (n.bindings.get? mappedId)
  let owner ← deref (e.data.owningLeafs.lookup origin)
  let out ← owner.processRcvdRemoved
  let replies := post origin .terminal e.identifier mappedId 0 out.calls
  -- if the binding is still mapped, we do nothing else
  if out.fsm.isMapped then
    return (n.modifyBinding mappedId fun d =>
      { d with owningLeafs := d.owningLeafs.insert origin out.fsm }, replies)
  let n := n.modifyBinding mappedId fun d => { d with owningLeafs := d.owningLeafs.erase origin }
  let called := [.call n (.bindingOwnerRemoved origin mappedId)]
  -- if there are no more binding owners, we remove the binding
  if (e.data.owningLeafs.erase origin).keys = [] then
    let n ← n.disassociateBinding mappedId
    return ({ n with bindings := n.bindings.erase mappedId }, replies ++ called)
  else
    return (n, replies ++ called)

def onMessageReceived (n : Node) (origin : Conn) : Message → Result
  | .terminalDescription x id => n.onTerminalDescription x id origin
  | .terminalMapping tmId mId => n.onTerminalMapping tmId mId origin
  | .terminalRemoved mId      => n.onTerminalRemoved mId origin
  | .terminalRemovedAck tmId  => n.onTerminalRemovedAck tmId origin
  | .bindingDescription x id  => n.onBindingDescription x id origin
  | .bindingRemoved mId       => n.onBindingRemoved mId origin
  | _                         => .error .unhandled

end Node
end Yogi
