import YogiModel.Core.Message

namespace Yogi

-- Objects of the library user are identified by handles.
structure Binding where
  handle   : Nat
  terminal : Id
  deriving DecidableEq, Repr

structure TerminalInfo where
  fsm      : Fsm := {}
  terminal : Option Nat := none

structure BindingInfo where
  fsm         : Fsm := {}
  established : Bool := false
  bindings    : List Binding := []

-- The class `LeafLogicBaseT`: `connection` tells for an existing connection whether the remote
-- endpoint is a node.
structure Leaf where
  connection : Option Bool := none
  terminals  : Register TerminalInfo := .empty
  bindings   : Register BindingInfo := .empty

namespace Leaf

-- The virtual functions that inheriting classes may override.
inductive Hook
  | terminalMappingChanged (isMapped : Bool) (tm : Id)
  | terminalRemoved (terminal : Nat) (tm : Id)
  | bindingGroupMappingChanged (isMapped : Bool) (bd : Id)
  | bindingRemoved (binding : Binding) (bd : Id)

-- What the logic does besides changing its state, in the order in which it happens. Calls of virtual
-- functions come with the state at the time of the call. `terminalInserted` stands for the
-- initialisation of the part of an entry that belongs to inheriting classes.
inductive Effect
  | send (m : Message)
  | publishState (binding : Binding) (established : Bool)
  | terminalInserted (tm : Id)
  | call (leaf : Leaf) (hook : Hook)

def sent (es : List Effect) : List Message :=
  es.filterMap fun | .send m => some m | _ => none

def updateBindingState (l : Leaf) (bd : Id) (established : Bool) : Leaf × List Effect :=
  match l.bindings.get? bd with
  | none   => (l, [])
  | some e =>
    if e.data.established ≠ established then
      let l' := { l with bindings := l.bindings.modify bd ({ · with established := established }) }
      (l', .call l' (.bindingGroupMappingChanged established bd) ::
        e.data.bindings.map (.publishState · established))
    else
      (l, [])

def updateBindingStateAfterMappingChanged (l : Leaf) (bd : Id) (isMapped : Bool) :
    Leaf × List Effect :=
  if ¬isMapped then
    l.updateBindingState bd false
  else if l.connection = some false then
    l.updateBindingState bd true
  else
    (l, [])

-- The functions that are passed to the transitions of the state machine of a terminal or a binding.
def terminalCall (tm : Element TerminalInfo) (remote : Id) (l : Leaf) (c : Fsm.Call) :
    Leaf × List Effect :=
  match c, c.body tm.identifier tm.id remote with
  | .mappStCh isMapped, _ => (l, [.call l (.terminalMappingChanged isMapped tm.id)])
  | _, some b             => (l, [.send (Role.terminal.message b)])
  | _, none               => (l, [])

def bindingCall (bd : Element BindingInfo) (remote : Id) (l : Leaf) (c : Fsm.Call) :
    Leaf × List Effect :=
  match c, c.body bd.identifier bd.id remote with
  | .mappStCh isMapped, _ => l.updateBindingStateAfterMappingChanged bd.id isMapped
  | _, some b             => (l, [.send (Role.binding.message b)])
  | _, none               => (l, [])

def run (call : Leaf → Fsm.Call → Leaf × List Effect) (l : Leaf) : List Fsm.Call → Leaf × List Effect
  | []      => (l, [])
  | c :: cs =>
    let r := call l c
    let s := run call r.1 cs
    (s.1, r.2 ++ s.2)

-- A transition of the state machine of a terminal or a binding, the entry of which is erased if its
-- state machine is not alive any more.
def evalTerminal (l : Leaf) (tm : Element TerminalInfo) (remote : Id) (out : Fsm.Outcome) :
    Leaf × List Effect :=
  let l' := { l with terminals := l.terminals.modify tm.id ({ · with fsm := out.fsm }) }
  let r := run (terminalCall tm remote) l' out.calls
  if out.alive then r else ({ r.1 with terminals := r.1.terminals.erase tm.id }, r.2)

def evalBinding (l : Leaf) (bd : Element BindingInfo) (remote : Id) (out : Fsm.Outcome) :
    Leaf × List Effect :=
  let l' := { l with bindings := l.bindings.modify bd.id ({ · with fsm := out.fsm }) }
  let r := run (bindingCall bd remote) l' out.calls
  if out.alive then r else ({ r.1 with bindings := r.1.bindings.erase bd.id }, r.2)

-- Entries are looked up by means of `operator[]`, or `find` and an assertion.
def terminal! (l : Leaf) (tm : Id) : Except Fault (Element TerminalInfo) :=
  match l.terminals.get? tm with
  | some e => .ok e
  | none   => .error .assertion

def binding! (l : Leaf) (bd : Id) : Except Fault (Element BindingInfo) :=
  match l.bindings.get? bd with
  | some e => .ok e
  | none   => .error .assertion

abbrev Result := Except Fault (Leaf × List Effect)

-- Does something for all elements of a register.
def forEach {α : Type} (f : Leaf → Element α → Result) (l : Leaf) : List (Element α) → Result
  | []      => .ok (l, [])
  | e :: es => do
    let r ← f l e
    let s ← forEach f r.1 es
    return (s.1, r.2 ++ s.2)

def onConnectionStarted (l : Leaf) (remoteIsNode : Bool) : Result := do
  assert l.connection.isNone
  let l := { l with connection := some remoteIsNode }
  let r ← forEach (fun l tm => do
    assert !tm.hidden
    return l.evalTerminal tm 0 (tm.data.fsm.reset !remoteIsNode)) l l.terminals.elements
  let s ← forEach (fun l bd => do
    assert !bd.hidden
    return l.evalBinding bd 0 (bd.data.fsm.reset false)) r.1 r.1.bindings.elements
  return (s.1, r.2 ++ s.2)

def onConnectionDestroyed (l : Leaf) : Result := do
  assert l.connection.isSome
  let l := { l with connection := none }
  -- erase all hidden entries
  let l := { l with
    terminals := (l.terminals.elements.filter (·.hidden)).foldl (·.erase ·.id) l.terminals
    bindings  := (l.bindings.elements.filter (·.hidden)).foldl (·.erase ·.id) l.bindings }
  -- set the state of all bindings to RELEASED
  let r ← forEach (fun l bd => return l.updateBindingState bd.id false) l l.bindings.elements
  -- reset the existing terminal FSMs
  let s ← forEach (fun l tm =>
    let l' := { l with
      terminals := l.terminals.modify tm.id fun d => { d with fsm := (d.fsm.reset true).fsm } }
    if tm.data.fsm.isMapped then
      return (l', [.call l' (.terminalMappingChanged false tm.id)])
    else
      return (l', [])) r.1 r.1.terminals.elements
  return (s.1, r.2 ++ s.2)

-- The result is `none` if an exception is thrown.
def onNewTerminal (l : Leaf) (terminal : Nat) (x : Identifier) : Leaf × List Effect × Option Id :=
  let (terminals, tm, inserted) := l.terminals.insert x {}
  if ¬inserted then
    ({ l with terminals := terminals }, [], none)
  else
    let l := { l with terminals := terminals.modify tm ({ · with terminal := some terminal }) }
    if l.connection.isSome then
      match l.terminals.get? tm with
      | none   => (l, [], none)
      | some e =>
        let (l, es) := l.evalTerminal e 0 (e.data.fsm.reset false)
        (l, .terminalInserted tm :: es, some tm)
    else
      (l, [.terminalInserted tm], some tm)

def onTerminalDestroyed (l : Leaf) (terminal : Nat) (tm : Id) : Result := do
  let e ← l.terminal! tm
  let l := { l with terminals := l.terminals.modify tm ({ · with terminal := none }) }
  let removed := [.call l (.terminalRemoved terminal tm)]
  if l.connection.isSome then
    let out ← e.data.fsm.processObjectDestroyed
    let r := l.evalTerminal e 0 out
    return ({ r.1 with terminals := r.1.terminals.hide tm }, removed ++ r.2)
  else
    return ({ l with terminals := l.terminals.erase tm }, removed)

def onNewBinding (l : Leaf) (binding : Binding) (x : Identifier) : Leaf × List Effect × Id :=
  let (bindings, bd, _) := l.bindings.insert x {}
  let l := { l with
    bindings := bindings.modify bd fun d => { d with bindings := d.bindings ++ [binding] } }
  match l.bindings.get? bd with
  | none   => (l, [], bd)
  | some e =>
    if l.connection.isSome ∧ e.data.bindings.length = 1 then
      let (l, es) := l.evalBinding e 0 (e.data.fsm.reset false)
      (l, es, bd)
    else if e.data.established then
      (l, [.publishState binding true], bd)
    else
      (l, [], bd)

def onBindingDestroyed (l : Leaf) (binding : Binding) (bd : Id) : Result := do
  let e ← l.binding! bd
  if binding ∉ e.data.bindings then
    .error .dangling
  let l := { l with
    bindings := l.bindings.modify bd fun d => { d with bindings := d.bindings.erase binding } }
  let removed := [.call l (.bindingRemoved binding bd)]
  if e.data.bindings.erase binding ≠ [] then
    return (l, removed)
  if l.connection.isSome then
    let out ← e.data.fsm.processObjectDestroyed
    let r := l.evalBinding e 0 out
    return ({ r.1 with bindings := r.1.bindings.hide bd }, removed ++ r.2)
  else
    return ({ l with bindings := l.bindings.erase bd }, removed)

def onTerminalDescription (l : Leaf) (x : Identifier) (id : Id) : Result :=
  match l.bindings.find? x with
  | none    => return (l, [.send (.terminalNoticed id)])
  | some bd => do
    let out ← bd.data.fsm.processRcvdDescription id
    return l.evalBinding bd id out

def onTerminalMapping (l : Leaf) (terminalId mappedId : Id) : Result := do
  let tm ← l.terminal! terminalId
  let out ← tm.data.fsm.processRcvdMapping mappedId
  return l.evalTerminal tm mappedId out

def onTerminalNoticed (l : Leaf) (terminalId : Id) : Result := do
  let tm ← l.terminal! terminalId
  let out ← tm.data.fsm.processRcvdNoticed
  return l.evalTerminal tm 0 out

def onTerminalRemoved (l : Leaf) (mappedId : Id) : Result := do
  let bd ← l.binding! mappedId
  let out ← bd.data.fsm.processRcvdRemoved
  return l.evalBinding bd 0 out

def onTerminalRemovedAck (l : Leaf) (terminalId : Id) : Result := do
  let tm ← l.terminal! terminalId
  let out ← tm.data.fsm.processRcvdRemovedAck
  return l.evalTerminal tm 0 out

def onBindingDescription (l : Leaf) (x : Identifier) (id : Id) : Result :=
  match l.terminals.find? x with
  | none    => return (l, [.send (.bindingNoticed id)])
  | some tm => do
    let out ← tm.data.fsm.processRcvdDescription id
    return l.evalTerminal tm id out

def onBindingMapping (l : Leaf) (bindingId mappedId : Id) : Result := do
  let bd ← l.binding! bindingId
  let out ← bd.data.fsm.processRcvdMapping mappedId
  return l.evalBinding bd mappedId out

def onBindingNoticed (l : Leaf) (bindingId : Id) : Result := do
  let bd ← l.binding! bindingId
  let out ← bd.data.fsm.processRcvdNoticed
  return l.evalBinding bd 0 out

def onBindingRemoved (l : Leaf) (mappedId : Id) : Result := do
  let tm ← l.terminal! mappedId
  let out ← tm.data.fsm.processRcvdRemoved
  return l.evalTerminal tm 0 out

def onBindingRemovedAck (l : Leaf) (bindingId : Id) : Result := do
  let bd ← l.binding! bindingId
  let out ← bd.data.fsm.processRcvdRemovedAck
  return l.evalBinding bd 0 out

-- A group is established or released unless it awaits the acknowledgement of its removal.
def onBindingStateChanged (l : Leaf) (bindingId : Id) (established : Bool) : Result := do
  let bd ← l.binding! bindingId
  assert (bd.data.fsm.state = .mappedConfirmed ∨ bd.data.fsm.state = .awaitAck)
  if bd.data.fsm.state = .mappedConfirmed then
    return l.updateBindingState bindingId established
  else
    return (l, [])

def onBindingEstablished (l : Leaf) (bindingId : Id) : Result :=
  l.onBindingStateChanged bindingId true

def onBindingReleased (l : Leaf) (bindingId : Id) : Result :=
  l.onBindingStateChanged bindingId false

-- Messages are handed over by the connection, so there is one.
def onMessageReceived (l : Leaf) : Message → Result
  | .terminalDescription x id    => l.onTerminalDescription x id
  | .terminalMapping tmId mId    => l.onTerminalMapping tmId mId
  | .terminalNoticed tmId        => l.onTerminalNoticed tmId
  | .terminalRemoved mId         => l.onTerminalRemoved mId
  | .terminalRemovedAck tmId     => l.onTerminalRemovedAck tmId
  | .bindingDescription x id     => l.onBindingDescription x id
  | .bindingMapping bdId mId     => l.onBindingMapping bdId mId
  | .bindingNoticed bdId         => l.onBindingNoticed bdId
  | .bindingRemoved mId          => l.onBindingRemoved mId
  | .bindingRemovedAck bdId      => l.onBindingRemovedAck bdId
  | .bindingEstablished bdId     => l.onBindingEstablished bdId
  | .bindingReleased bdId        => l.onBindingReleased bdId

-- The register of terminals or that of binding groups has an entry with the given ID.
def Live (l : Leaf) : Role → Id → Prop
  | .terminal, tm => ∃ e, l.terminals.get? tm = some e
  | .binding, bd  => ∃ e, l.bindings.get? bd = some e

end Leaf
end Yogi
