import YogiModel.Base.Register

namespace Yogi

-- The ways in which the debug build of the code crashes: a `YOGI_NEVER_REACHED` branch is taken, a
-- `YOGI_ASSERT` fails, the end iterator of a container or a null pointer is dereferenced or there is no
-- handler for a message.
inductive Fault
  | neverReached
  | assertion
  | dangling
  | unhandled
  deriving DecidableEq, Repr

def assert (b : Bool) : Except Fault Unit :=
  if b then .ok () else .error .assertion

inductive FsmState
  | unusedUnconfirmed
  | unusedConfirmed
  | mappedUnconfirmed
  | mappedConfirmed
  | awaitAck
  | awaitConfirmation
  | awaitRemovals
  deriving DecidableEq, Repr

-- The class `MappedObjectFsm`.
structure Fsm where
  state           : FsmState := .unusedConfirmed
  skipRemovedAcks : Int := 0
  mappedId        : Id := 0
  deriving DecidableEq, Repr

namespace Fsm

-- The calls that a transition makes to the functions it is given, in their order.
inductive Call
  | sendDesc
  | sendRem (id : Id)
  | sendMapp
  | sendRemAck (id : Id)
  | mappStCh (isMapped : Bool)
  deriving DecidableEq, Repr

-- The result of a transition; `alive` is the value returned by those functions that return one.
structure Outcome where
  fsm   : Fsm
  calls : List Call
  alive : Bool := true

-- The state machine, unless it has died.
def Outcome.result (out : Outcome) : Option Fsm :=
  if out.alive then some out.fsm else none

def isMapped (f : Fsm) : Bool :=
  match f.state with
  | .mappedUnconfirmed | .mappedConfirmed => true
  | _                                     => false

def destroyed (f : Fsm) : Bool :=
  match f.state with
  | .unusedUnconfirmed | .unusedConfirmed | .mappedUnconfirmed | .mappedConfirmed => false
  | .awaitAck | .awaitConfirmation | .awaitRemovals                               => true

def reset (_ : Fsm) (hidden : Bool) : Outcome :=
  if hidden then
    { fsm := { state := .unusedConfirmed }, calls := [] }
  else
    { fsm := { state := .unusedUnconfirmed }, calls := [.sendDesc] }

def processObjectDestroyed (f : Fsm) : Except Fault Outcome :=
  match f.state with
  | .mappedConfirmed =>
    .ok { fsm := { f with state := .awaitAck }, calls := [.sendRem f.mappedId] }
  | .unusedConfirmed =>
    if f.skipRemovedAcks > 0 then
      .ok { fsm := { f with state := .awaitRemovals }, calls := [] }
    else
      .ok { fsm := f, calls := [], alive := false }
  | .mappedUnconfirmed | .unusedUnconfirmed =>
    .ok { fsm := { f with state := .awaitConfirmation }, calls := [] }
  | _ =>
    .error .neverReached

def processRcvdDescription (f : Fsm) (remoteId : Id) : Except Fault Outcome :=
  match f.state with
  | .unusedUnconfirmed =>
    .ok { fsm   := { f with mappedId := remoteId, state := .mappedUnconfirmed }
          calls := [.sendMapp, .mappStCh true] }
  | .unusedConfirmed =>
    .ok { fsm   := { f with mappedId := remoteId, state := .mappedConfirmed }
          calls := [.sendMapp, .mappStCh true] }
  | .mappedUnconfirmed | .mappedConfirmed =>
    .ok { fsm   := { f with mappedId := remoteId, skipRemovedAcks := f.skipRemovedAcks + 1 }
          calls := [.sendRemAck f.mappedId, .sendMapp, .mappStCh false, .mappStCh true] }
  | _ =>
    .error .neverReached

def processRcvdMapping (f : Fsm) (remoteId : Id) : Except Fault Outcome :=
  match f.state with
  | .unusedUnconfirmed =>
    .ok { fsm   := { f with mappedId := remoteId, state := .mappedConfirmed }
          calls := [.mappStCh true] }
  | .mappedUnconfirmed =>
    if remoteId = f.mappedId then
      .ok { fsm := { f with state := .mappedConfirmed }, calls := [] }
    else
      .error .assertion
  | .awaitConfirmation =>
    if f.mappedId = 0 ∨ f.mappedId = remoteId then
      .ok { fsm   := { f with mappedId := remoteId, state := .awaitAck }
            calls := [.sendRem remoteId] }
    else
      .ok { fsm   := { mappedId := remoteId, state := .awaitAck
                       skipRemovedAcks := f.skipRemovedAcks + 1 }
            calls := [.sendRemAck f.mappedId, .sendRem remoteId] }
  | _ =>
    .error .neverReached

def processRcvdNoticed (f : Fsm) : Except Fault Outcome :=
  match f.state with
  | .unusedUnconfirmed =>
    .ok { fsm := { f with state := .unusedConfirmed }, calls := [] }
  | .mappedUnconfirmed =>
    .ok { fsm   := { mappedId := 0, state := .unusedConfirmed
                     skipRemovedAcks := f.skipRemovedAcks + 1 }
          calls := [.sendRemAck f.mappedId, .mappStCh false] }
  | .awaitConfirmation =>
    if f.mappedId ≠ 0 then
      .ok { fsm   := { mappedId := 0, state := .awaitRemovals
                       skipRemovedAcks := f.skipRemovedAcks + 1 }
            calls := [.sendRemAck f.mappedId] }
    else
      .ok { fsm := f, calls := [], alive := false }
  | _ =>
    .error .neverReached

def processRcvdRemoved (f : Fsm) : Except Fault Outcome :=
  match f.state with
  | .unusedConfirmed =>
    if f.skipRemovedAcks > 0 then
      .ok { fsm := { f with skipRemovedAcks := f.skipRemovedAcks - 1 }, calls := [] }
    else
      .error .assertion
  | .mappedConfirmed =>
    if f.skipRemovedAcks > 0 then
      .ok { fsm := { f with skipRemovedAcks := f.skipRemovedAcks - 1 }, calls := [] }
    else
      .ok { fsm   := { f with mappedId := 0, state := .unusedConfirmed }
            calls := [.sendRemAck f.mappedId, .mappStCh false] }
  | .awaitAck =>
    if f.mappedId = 0 then
      .error .assertion
    else if f.skipRemovedAcks > 0 then
      .ok { fsm := { f with skipRemovedAcks := f.skipRemovedAcks - 1 }, calls := [] }
    else
      .ok { fsm := { f with mappedId := 0 }, calls := [.sendRemAck f.mappedId] }
  | .awaitRemovals =>
    if f.skipRemovedAcks > 1 then
      .ok { fsm := { f with skipRemovedAcks := f.skipRemovedAcks - 1 }, calls := [] }
    else if f.skipRemovedAcks = 1 then
      .ok { fsm := f, calls := [], alive := false }
    else
      .error .assertion
  | _ =>
    .error .neverReached

def processRcvdRemovedAck (f : Fsm) : Except Fault Outcome :=
  match f.state with
  | .awaitAck =>
    if f.skipRemovedAcks = 0 then
      .ok { fsm := f, calls := [], alive := false }
    else
      .error .assertion
  | _ =>
    .error .neverReached

-- What the caller knows about the mapping after a call.
def Call.mapped (b : Bool) : Call → Bool
  | mappStCh isMapped => isMapped
  | _                 => b

-- A transition caused by a message does not destroy the object and reports a change of the mapping.
structure Faithful (f : Fsm) (out : Outcome) : Prop where
  destroyed : out.alive = true → out.fsm.destroyed = f.destroyed
  dead      : out.alive = false → f.destroyed = true
  mapped    : out.calls.foldl Call.mapped f.isMapped = out.fsm.isMapped
  skip      : 0 ≤ f.skipRemovedAcks → 0 ≤ out.fsm.skipRemovedAcks

variable {f : Fsm} {out : Outcome} {i : Id}

theorem faithful_description (h : f.processRcvdDescription i = .ok out) : f.Faithful out := by
  cases hs : f.state <;> simp only [processRcvdDescription, hs, reduceCtorEq] at h
  all_goals
    cases h
    constructor <;> simp [destroyed, isMapped, hs, Call.mapped.eq_def] <;> omega

theorem faithful_mapping (h : f.processRcvdMapping i = .ok out) : f.Faithful out := by
  cases hs : f.state <;> simp only [processRcvdMapping, hs, reduceCtorEq] at h <;> repeat' split at h
  all_goals cases h <;> constructor <;> simp [destroyed, isMapped, hs, Call.mapped.eq_def] <;> omega

theorem faithful_noticed (h : f.processRcvdNoticed = .ok out) : f.Faithful out := by
  cases hs : f.state <;> simp only [processRcvdNoticed, hs, reduceCtorEq] at h <;> repeat' split at h
  all_goals
    cases h
    constructor <;> simp [destroyed, isMapped, hs, Call.mapped.eq_def] <;> omega

theorem faithful_removed (h : f.processRcvdRemoved = .ok out) : f.Faithful out := by
  cases hs : f.state <;> simp only [processRcvdRemoved, hs, reduceCtorEq] at h <;> repeat' split at h
  all_goals cases h <;> constructor <;> simp [destroyed, isMapped, hs, Call.mapped.eq_def] <;> omega

theorem faithful_removedAck (h : f.processRcvdRemovedAck = .ok out) : f.Faithful out := by
  cases hs : f.state <;> simp only [processRcvdRemovedAck, hs, reduceCtorEq] at h
  split at h <;> cases h
  constructor <;> simp [destroyed, isMapped, hs]

theorem exists_processObjectDestroyed (h : f.destroyed = false) :
    ∃ out, f.processObjectDestroyed = .ok out := by
  cases hs : f.state <;> simp only [destroyed, hs, Bool.true_eq_false] at h <;>
    simp only [processObjectDestroyed, hs]
  case unusedConfirmed => split <;> exact ⟨_, rfl⟩
  all_goals exact ⟨_, rfl⟩

theorem destroyed_of_processObjectDestroyed (h : f.processObjectDestroyed = .ok out)
    (ha : out.alive = true) : out.fsm.destroyed = true := by
  simp only [processObjectDestroyed] at h
  repeat' split at h
  all_goals cases h <;> simp_all [destroyed]

theorem skip_of_processObjectDestroyed (h : f.processObjectDestroyed = .ok out) :
    out.fsm.skipRemovedAcks = f.skipRemovedAcks := by
  simp only [processObjectDestroyed] at h
  repeat' split at h
  all_goals cases h <;> rfl

end Fsm
end Yogi
