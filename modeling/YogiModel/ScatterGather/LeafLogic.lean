import YogiModel.Base.Except
import YogiModel.Base.ObjectRegister
import YogiModel.Core.LeafActions
import YogiModel.Core.SubscribableLeaf
import YogiModel.Wire.Serialization

namespace Yogi.ScatterGather

open Wire (Byte)

def gatherFinished : Nat         := 1
def gatherIgnored : Nat          := 2
def gatherDeaf : Nat             := 4
def gatherBindingDestroyed : Nat := 8
def gatherConnectionLost : Nat   := 16

def finished (flags : Nat) : Bool :=
  flags.testBit 0

-- The class `Terminal`. A task is known by the ID of its operation and comes with the size of its
-- buffer; `reply` is the size of the buffer of the receive operation if it is armed.
structure Terminal where
  id    : Id
  tasks : List (Id × Nat) := []
  reply : Option Nat := none

-- The extensions of the entries of terminals; `gatherOperations` leads to binding groups.
structure TerminalExt where
  scatterOperations : List Id := []
  gatherOperations  : List (Id × Id) := []

-- The class `LeafLogic`. An extension of the entry of a binding group leads to the terminals that are
-- to answer an operation; `terminals` are the objects of the library user.
structure LeafLogic where
  leaf              : Leaf := {}
  subscribed        : Id → Bool := fun _ => false
  scatterOperations : ObjectRegister (Option Nat) := .empty
  gatherOperations  : List (Id × Nat) := []
  terminalExt       : Id → TerminalExt := fun _ => {}
  bindingExt        : Id → List (Id × Id) := fun _ => []
  terminals         : Nat → Option Terminal := fun _ => none

-- The exceptions that are handed over to the library user.
inductive Exception
  | notBound
  | invalidId
  | asyncOperationRunning
  deriving DecidableEq, Repr

-- What the logic does besides changing its state: the messages it sends and the handlers of the library
-- user it calls, with a flag that tells whether the data fits into the buffer.
inductive Effect
  | subscribable (e : SubscribableLeaf.Effect)
  | sendScatter (subscriptionId operationId : Id) (data : List Byte)
  | sendGather (operationId : Id) (flags : Nat) (data : List Byte)
  | scattered (terminal : Nat) (operationId : Id) (fits : Bool) (size : Nat)
  | gathered (terminal : Nat) (operationId : Id) (flags : Nat) (fits : Bool) (size : Nat)
  | canceled (terminal : Nat) (operationId : Option Id)
  | threw (e : Exception)

abbrev Result := Except Fault (LeafLogic × List Effect)

namespace LeafLogic

def terminal! (s : LeafLogic) (t : Nat) : Except Fault Terminal :=
  match s.terminals t with
  | some o => .ok o
  | none   => .error .dangling

def setTerminal (s : LeafLogic) (t : Nat) (o : Option Terminal) : LeafLogic :=
  { s with terminals := Function.update s.terminals t o }

def setTerminalExt (s : LeafLogic) (tm : Id) (e : TerminalExt) : LeafLogic :=
  { s with terminalExt := Function.update s.terminalExt tm e }

def setBindingExt (s : LeafLogic) (bd : Id) (e : List (Id × Id)) : LeafLogic :=
  { s with bindingExt := Function.update s.bindingExt bd e }

-- Does something for all elements of a list.
def forEach {α : Type} (f : LeafLogic → α → Result) (s : LeafLogic) : List α → Result
  | []      => return (s, [])
  | a :: as => do
    let r ← f s a
    let t ← forEach f r.1 as
    return (t.1, r.2 ++ t.2)

-- The two assertions say that there is such an entry.
def eraseFromMultimap {α : Type} [DecidableEq α] (map : List (Id × α)) (key : Id) (value : α) :
    Except Fault (List (Id × α)) :=
  if (key, value) ∈ map then .ok (map.erase (key, value)) else .error .assertion

-- The pending answer of a terminal is taken from the leaf and from the binding group.
def removeGatherOperation (s : LeafLogic) (t : Nat) (entry : Id × Id) : Result := do
  let bd ← s.leaf.binding! entry.2
  let gatherOperations ← eraseFromMultimap s.gatherOperations entry.1 t
  let o ← s.terminal! t
  let ext ← eraseFromMultimap (s.bindingExt bd.id) entry.1 o.id
  return ({ s with gatherOperations := gatherOperations }.setBindingExt bd.id ext, [])

-- A null pointer is not found in the table of the leaf.
def removeAllGatherOperations (s : LeafLogic) (tm : Element TerminalInfo) : Result :=
  match tm.data.terminal with
  | some t => forEach (removeGatherOperation · t) s (s.terminalExt tm.id).gatherOperations
  | none   => do
    assert (s.terminalExt tm.id).gatherOperations.isEmpty
    return (s, [])

-- The function `on_gathered_message_received` of a terminal; `goOn` is what the handler returns. The
-- task is taken away at the end of the operation.
def onGatheredMessageReceived (s : LeafLogic) (t : Nat) (operationId : Id) (flags : Nat)
    (data : List Byte) (goOn : Bool) : Result := do
  let o ← s.terminal! t
  match o.tasks.find? (·.1 = operationId) with
  | none      => .error .assertion
  | some task =>
    let o' :=
      if !goOn || finished flags then
        { o with tasks := o.tasks.filter (·.1 ≠ operationId) }
      else o
    return (s.setTerminal t (some o'),
      [.gathered t operationId flags (data.length ≤ task.2) data.length])

-- An operation is taken from its terminal.
def releaseScatterOperation (s : LeafLogic) (t : Nat) (operationId : Id) :
    Except Fault LeafLogic := do
  let o ← s.terminal! t
  let tm ← s.leaf.terminal! o.id
  assert ((s.terminalExt tm.id).scatterOperations.contains operationId)
  return s.setTerminalExt tm.id { s.terminalExt tm.id with
    scatterOperations := (s.terminalExt tm.id).scatterOperations.erase operationId }

def eraseScatterOperation (s : LeafLogic) (operationId : Id) : LeafLogic :=
  { s with scatterOperations := s.scatterOperations.erase operationId }

-- The operation may not have a terminal any more. It is aborted if the handler says so, but keeps its ID
-- until it is finished.
def onGather (s : LeafLogic) (operationId : Id) (flags : Nat) (data : List Byte) (goOn : Bool) :
    Result :=
  match s.scatterOperations.get? operationId with
  | none          => .error .assertion
  | some none     =>
    if finished flags then
      return (s.eraseScatterOperation operationId, [])
    else
      return (s, [])
  | some (some t) => do
    let r ← s.onGatheredMessageReceived t operationId flags data goOn
    if goOn then
      if finished flags then
        let s ← r.1.releaseScatterOperation t operationId
        return (s.eraseScatterOperation operationId, r.2)
      else
        return r
    else
      let s ← r.1.releaseScatterOperation t operationId
      assert (s.scatterOperations.get? operationId).isSome
      let s := { s with scatterOperations := s.scatterOperations.set operationId none }
      if finished flags then
        return (s.eraseScatterOperation operationId, r.2)
      else
        return (s, r.2)

-- An operation loses its terminal but keeps its ID.
def abandonScatterOperation (s : LeafLogic) (operationId : Id) : Result := do
  assert (s.scatterOperations.get? operationId).isSome
  return ({ s with scatterOperations := s.scatterOperations.set operationId none }, [])

-- An operation is finished by the leaf itself.
def finishScatterOperation (terminal : Option Nat) (flags : Nat) (s : LeafLogic)
    (operationId : Id) : Result :=
  match terminal with
  | none   => .error .dangling
  | some t => do
    let r ← s.onGatheredMessageReceived t operationId (flags ||| gatherFinished) [] true
    assert (r.1.scatterOperations.get? operationId).isSome
    return (r.1.eraseScatterOperation operationId, r.2)

-- The virtual functions of the base class; the state contains the leaf at the time of the call.

def onTerminalRemoved (s : LeafLogic) (tm : Id) : Result := do
  let tm ← s.leaf.terminal! tm
  let r ← forEach abandonScatterOperation s (s.terminalExt tm.id).scatterOperations
  let t ← r.1.removeAllGatherOperations tm
  return (t.1, r.2 ++ t.2)

-- The operations of a terminal end and its pending answers are dropped with its mapping.

def finishScatterOperations (s : LeafLogic) (isMapped : Bool) (tm : Element TerminalInfo) : Result :=
  if (s.terminalExt tm.id).scatterOperations ≠ [] then do
    assert (!s.leaf.connection.isSome || !isMapped)
    let flags := if s.leaf.connection.isSome then gatherBindingDestroyed else gatherConnectionLost
    let r ← forEach (finishScatterOperation tm.data.terminal flags) s
      (s.terminalExt tm.id).scatterOperations
    return (r.1.setTerminalExt tm.id { r.1.terminalExt tm.id with scatterOperations := [] }, r.2)
  else
    return (s, [])

def dropGatherOperations (s : LeafLogic) (tm : Element TerminalInfo) : Result :=
  if (s.terminalExt tm.id).gatherOperations ≠ [] then do
    let r ← s.removeAllGatherOperations tm
    return (r.1.setTerminalExt tm.id { r.1.terminalExt tm.id with gatherOperations := [] }, r.2)
  else
    return (s, [])

def onTerminalMappingChanged (s : LeafLogic) (isMapped : Bool) (tm : Id) : Result := do
  let base ← SubscribableLeaf.onTerminalMappingChanged s.leaf s.subscribed isMapped tm
  let s := { s with subscribed := base.1 }
  let tm ← s.leaf.terminal! tm
  let r ← s.finishScatterOperations isMapped tm
  let t ← r.1.dropGatherOperations tm
  return (t.1, base.2.map .subscribable ++ r.2 ++ t.2)

-- The pending answer of a terminal is taken from the terminal and from the leaf.
def takeGatherOperation (s : LeafLogic) (entry : Id × Id) : Result := do
  let tm ← s.leaf.terminal! entry.2
  assert (((s.terminalExt tm.id).gatherOperations.map Prod.fst).contains entry.1)
  let s := s.setTerminalExt tm.id { s.terminalExt tm.id with
    gatherOperations := (s.terminalExt tm.id).gatherOperations.filter (·.1 ≠ entry.1) }
  match tm.data.terminal with
  | none   => .error .assertion
  | some t => do
    let gatherOperations ← eraseFromMultimap s.gatherOperations entry.1 t
    return ({ s with gatherOperations := gatherOperations }, [])

def onBindingGroupMappingChanged (s : LeafLogic) (isMapped : Bool) (bd : Id) : Result := do
  let bd ← s.leaf.binding! bd
  if s.bindingExt bd.id ≠ [] then
    assert (!s.leaf.connection.isSome || !isMapped)
    let r ← forEach takeGatherOperation s (s.bindingExt bd.id)
    return (r.1.setBindingExt bd.id [], r.2)
  else
    return (s, [])

-- The pending answer of the terminal of a binding is given if it was the last one.
def destroyGatherOperation (binding : Binding) (bd : Id) (s : LeafLogic) (entry : Id × Id) :
    Result := do
  let tm ← s.leaf.terminal! entry.2
  assert (((s.terminalExt tm.id).gatherOperations.map Prod.fst).contains entry.1)
  match tm.data.terminal with
  | none   => .error .dangling
  | some t => do
    let o ← s.terminal! t
    if o.id = binding.terminal then
      let r ← s.takeGatherOperation entry
      let s := r.1.setBindingExt bd ((r.1.bindingExt bd).erase entry)
      if entry.1 ∉ s.gatherOperations.map Prod.fst then
        assert s.leaf.connection.isSome
        return (s, [.sendGather entry.1 (gatherBindingDestroyed ||| gatherFinished) []])
      else
        return (s, [])
    else
      return (s, [])

def onBindingRemoved (s : LeafLogic) (binding : Binding) (bd : Id) : Result := do
  let bd ← s.leaf.binding! bd
  forEach (destroyGatherOperation binding bd.id) s (s.bindingExt bd.id)

def onEffect (s : LeafLogic) : Leaf.Effect → Result
  | .terminalInserted tm =>
    return ({ s with subscribed := Function.update s.subscribed tm false }.setTerminalExt tm {}, [])
  | .call l hook => do
    let s := { s with leaf := l }
    match hook with
    | .terminalMappingChanged isMapped tm     => s.onTerminalMappingChanged isMapped tm
    | .terminalRemoved _ tm                   => s.onTerminalRemoved tm
    | .bindingGroupMappingChanged isMapped bd => s.onBindingGroupMappingChanged isMapped bd
    | .bindingRemoved binding bd              => s.onBindingRemoved binding bd
  | e => return (s, [.subscribable (.base e)])

-- An operation of the base class.
def onBase (s : LeafLogic) (r : Leaf × List Leaf.Effect) : Result := do
  let t ← forEach onEffect s r.2
  return ({ t.1 with leaf := r.1 }, t.2)

-- The functions that terminals call. An exception leaves the state as it is.

def sgScatter (s : LeafLogic) (t : Nat) (data : List Byte) :
    Except Fault (LeafLogic × List Effect × Option Id) := do
  let o ← s.terminal! t
  let info ← s.leaf.terminal! o.id
  if !s.subscribed info.id then
    return (s, [.threw .notBound], none)
  else
    let (scatterOperations, id) := s.scatterOperations.insert (some t)
    assert !(s.terminalExt info.id).scatterOperations.contains id
    let s := { s with scatterOperations := scatterOperations }.setTerminalExt info.id
      { s.terminalExt info.id with
        scatterOperations := (s.terminalExt info.id).scatterOperations ++ [id] }
    assert s.leaf.connection.isSome
    return (s, [.sendScatter info.data.fsm.mappedId id data], some id)

-- The flag tells whether the operation has been cancelled.
def sgCancelScatter (s : LeafLogic) (t : Nat) (operationId : Id) :
    Except Fault (LeafLogic × List Effect × Bool) := do
  let o ← s.terminal! t
  let info ← s.leaf.terminal! o.id
  if !(s.terminalExt info.id).scatterOperations.contains operationId then
    return (s, [.threw .invalidId], false)
  else
    let s := s.setTerminalExt info.id { s.terminalExt info.id with
      scatterOperations := (s.terminalExt info.id).scatterOperations.erase operationId }
    assert (s.scatterOperations.get? operationId).isSome
    return ({ s with scatterOperations := s.scatterOperations.set operationId none }, [], true)

def sgRespondToScatteredMessage (s : LeafLogic) (t : Nat) (operationId : Id) (flags : Nat)
    (data : List Byte) : Result := do
  assert !finished flags
  assert (flags &&& gatherBindingDestroyed = 0)
  assert (flags &&& gatherConnectionLost = 0)
  let o ← s.terminal! t
  let tm ← s.leaf.terminal! o.id
  match (s.terminalExt tm.id).gatherOperations.find? (·.1 = operationId) with
  | none    => return (s, [.threw .invalidId])
  | some op => do
    let bd ← s.leaf.binding! op.2
    let ext ← eraseFromMultimap (s.bindingExt bd.id) operationId o.id
    let s := s.setBindingExt bd.id ext
    let s := s.setTerminalExt tm.id { s.terminalExt tm.id with
      gatherOperations := (s.terminalExt tm.id).gatherOperations.erase op }
    let gatherOperations ← eraseFromMultimap s.gatherOperations operationId t
    let s := { s with gatherOperations := gatherOperations }
    assert s.leaf.connection.isSome
    if operationId ∉ s.gatherOperations.map Prod.fst then
      return (s, [.sendGather operationId (flags ||| gatherFinished) data])
    else
      return (s, [.sendGather operationId flags data])

-- The functions of terminals that the library user calls.
inductive Call
  | asyncScatterGather (terminal : Nat) (data : List Byte) (buffer : Nat)
  | cancelScatterGather (terminal : Nat) (operationId : Id)
  | asyncReceiveScatteredMessage (terminal : Nat) (buffer : Nat)
  | cancelReceiveScatteredMessage (terminal : Nat)
  | respondToScatteredMessage (terminal : Nat) (operationId : Id) (data : List Byte)
  | ignoreScatteredMessage (terminal : Nat) (operationId : Id)

def Call.terminal : Call → Nat
  | asyncScatterGather t _ _           => t
  | cancelScatterGather t _            => t
  | asyncReceiveScatteredMessage t _   => t
  | cancelReceiveScatteredMessage t    => t
  | respondToScatteredMessage t _ _    => t
  | ignoreScatteredMessage t _         => t

def call (s : LeafLogic) : Call → Result
  | .asyncScatterGather t data buffer => do
    let (s, es, id) ← s.sgScatter t data
    match id with
    | none    => return (s, es)
    | some id => do
      let o ← s.terminal! t
      assert !(o.tasks.map Prod.fst).contains id
      return (s.setTerminal t (some { o with tasks := o.tasks ++ [(id, buffer)] }), es)
  | .cancelScatterGather t operationId => do
    let (s, es, isCanceled) ← s.sgCancelScatter t operationId
    if isCanceled then
      let o ← s.terminal! t
      assert ((o.tasks.map Prod.fst).contains operationId)
      return (s.setTerminal t (some { o with tasks := o.tasks.filter (·.1 ≠ operationId) }),
        [.canceled t (some operationId)])
    else
      return (s, es)
  | .asyncReceiveScatteredMessage t buffer => do
    let o ← s.terminal! t
    if o.reply.isSome then
      return (s, [.threw .asyncOperationRunning])
    else
      return (s.setTerminal t (some { o with reply := some buffer }), [])
  | .cancelReceiveScatteredMessage t => do
    let o ← s.terminal! t
    if o.reply.isSome then
      return (s.setTerminal t (some { o with reply := none }), [.canceled t none])
    else
      return (s, [])
  | .respondToScatteredMessage t operationId data =>
    s.sgRespondToScatteredMessage t operationId 0 data
  | .ignoreScatteredMessage t operationId =>
    s.sgRespondToScatteredMessage t operationId gatherIgnored []

-- The function `on_scattered_message_received` of a terminal. A terminal without an armed receive
-- operation is deaf; otherwise its handler makes the calls `calls`.
def onScatteredMessageReceived (s : LeafLogic) (t : Nat) (operationId : Id) (data : List Byte)
    (calls : List Call) : Result := do
  let o ← s.terminal! t
  match o.reply with
  | none        => s.sgRespondToScatteredMessage t operationId gatherDeaf []
  | some buffer => do
    let s := s.setTerminal t (some { o with reply := none })
    let r ← forEach call s calls
    return (r.1, .scattered t operationId (data.length ≤ buffer) data.length :: r.2)

-- A pending answer is stored in the leaf, the binding group and the terminal, where it does not replace
-- an existing entry; `o` is the terminal and `tm` the ID of its entry.
def storeGatherOperation (s : LeafLogic) (operationId subscriptionId tm : Id) (t : Nat)
    (o : Terminal) : LeafLogic :=
  let s := { s with gatherOperations := s.gatherOperations ++ [(operationId, t)] }
  let s := s.setBindingExt subscriptionId (s.bindingExt subscriptionId ++ [(operationId, o.id)])
  let ops := (s.terminalExt tm).gatherOperations
  s.setTerminalExt tm { s.terminalExt tm with
    gatherOperations :=
      if operationId ∈ ops.map Prod.fst then ops else ops ++ [(operationId, subscriptionId)] }

def scatterTo (operationId subscriptionId : Id) (data : List Byte) (calls : Binding → List Call)
    (s : LeafLogic) (binding : Binding) : Result := do
  let tm ← s.leaf.terminal! binding.terminal
  match tm.data.terminal with
  | none   => .error .dangling
  | some t => do
    let o ← s.terminal! t
    let s := s.storeGatherOperation operationId subscriptionId tm.id t o
    s.onScatteredMessageReceived t operationId data (calls binding)

def onScatter (s : LeafLogic) (subscriptionId operationId : Id) (data : List Byte)
    (calls : Binding → List Call) : Result := do
  let bd ← s.leaf.binding! subscriptionId
  assert (operationId ∉ s.gatherOperations.map Prod.fst)
  assert (operationId ∉ (s.bindingExt bd.id).map Prod.fst)
  if !bd.data.established then
    return (s, [])
  else
    forEach (scatterTo operationId subscriptionId data calls) s bd.data.bindings

def onSubscribe (s : LeafLogic) (terminalId : Id) (subscribed : Bool) : Result := do
  assert (s.leaf.connection = some true)
  let tm ← s.leaf.terminal! terminalId
  assert (s.subscribed tm.id = !subscribed)
  return ({ s with subscribed := Function.update s.subscribed tm.id subscribed },
    (SubscribableLeaf.publishSubscriptionState s.leaf tm.id subscribed).map .subscribable)

-- What the leaf is asked to do. Terminals are objects of the library user; `goOn` and `calls` are what
-- the handlers of the library user do.
inductive Action
  | base (a : Leaf.Action)
  | call (c : Call)
  | subscribeReceived (terminalId : Id)
  | unsubscribeReceived (terminalId : Id)
  | scatterReceived (subscriptionId operationId : Id) (data : List Byte)
    (calls : Binding → List Call)
  | gatherReceived (operationId : Id) (flags : Nat) (data : List Byte) (goOn : Bool)

def onNewTerminal (s : LeafLogic) (t : Nat) (x : Identifier) : Result := do
  let r := s.leaf.onNewTerminal t x
  let q ← s.onBase (r.1, r.2.1)
  match r.2.2 with
  | none    => return q
  | some tm => return (q.1.setTerminal t (some { id := tm }), q.2)

-- The destructor of a terminal.
def onTerminalDestroyed (s : LeafLogic) (t : Nat) (tm : Id) : Result := do
  let r ← s.leaf.onTerminalDestroyed t tm
  let q ← s.onBase r
  let o ← q.1.terminal! t
  return (q.1.setTerminal t none, q.2 ++ o.tasks.map (fun task => .canceled t (some task.1)) ++
    if o.reply.isSome then [.canceled t none] else [])

-- The extension of the entry of a new binding group is empty.
def onNewBinding (s : LeafLogic) (b : Binding) (x : Identifier) : Result :=
  let r := s.leaf.onNewBinding b x
  let s := if (s.leaf.bindings.find? x).isNone then s.setBindingExt r.2.2 [] else s
  s.onBase (r.1, r.2.1)

def step (s : LeafLogic) : Action → Result
  | .base (.newTerminal t x)          => s.onNewTerminal t x
  | .base (.terminalDestroyed t tm)   => s.onTerminalDestroyed t tm
  | .base (.newBinding b x)           => s.onNewBinding b x
  | .base a                           => do s.onBase (← s.leaf.act a)
  | .call c                           => s.call c
  | .subscribeReceived terminalId     => s.onSubscribe terminalId true
  | .unsubscribeReceived terminalId   => s.onSubscribe terminalId false
  | .scatterReceived bd op data calls => s.onScatter bd op data calls
  | .gatherReceived op flags data goOn => s.onGather op flags data goOn

-- The library user calls functions of terminals that exist, and the remote endpoint keeps to the
-- protocols: the messages of the mapping protocol are accepted, a terminal is subscribed while it is
-- mapped, binding groups that get a Scatter exist, and a Gather belongs to an operation.
def enabled (s : LeafLogic) : Action → Prop
  | .base a                    => s.leaf.enabled a ∧ (s.leaf.act a).isOk
  | .call c                    => (s.terminals c.terminal).isSome
  | .subscribeReceived tm      =>
    s.leaf.connection = some true ∧ s.subscribed tm = false ∧
      ∃ e ∈ s.leaf.terminals.get? tm, e.data.fsm.isMapped = true
  | .unsubscribeReceived tm    =>
    s.leaf.connection = some true ∧ s.subscribed tm = true ∧ (s.leaf.terminals.get? tm).isSome
  | .scatterReceived bd _ _ calls =>
    s.leaf.connection ≠ none ∧ (s.leaf.bindings.get? bd).isSome ∧
      ∀ b ∈ s.leaf.bindingsOf bd, ∀ c ∈ calls b, (s.terminals c.terminal).isSome
  | .gatherReceived op _ _ _   =>
    s.leaf.connection ≠ none ∧ (s.scatterOperations.get? op).isSome

instance {s : LeafLogic} {a : Action} : Decidable (s.enabled a) := by
  cases a <;> simp only [enabled] <;> infer_instance

def machine : Machine LeafLogic Action Fault where
  init    := fun s => s = {}
  enabled := enabled
  step    := fun s a => (s.step a).map Prod.fst

instance {s a} : Decidable (machine.enabled s a) :=
  inferInstanceAs (Decidable (s.enabled a))

end LeafLogic
end Yogi.ScatterGather
