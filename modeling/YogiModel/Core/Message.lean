import YogiModel.Core.Fsm

namespace Yogi

-- The messages of the mapping protocol.
inductive Message
  | terminalDescription (identifier : Identifier) (id : Id)
  | terminalMapping (terminalId mappedId : Id)
  | terminalNoticed (terminalId : Id)
  | terminalRemoved (mappedId : Id)
  | terminalRemovedAck (terminalId : Id)
  | bindingDescription (identifier : Identifier) (id : Id)
  | bindingMapping (bindingId mappedId : Id)
  | bindingNoticed (bindingId : Id)
  | bindingRemoved (mappedId : Id)
  | bindingRemovedAck (bindingId : Id)
  | bindingEstablished (bindingId : Id)
  | bindingReleased (bindingId : Id)
  deriving DecidableEq, Repr

-- Terminals and bindings are treated alike by the protocol.
inductive Role
  | terminal
  | binding
  deriving DecidableEq, Repr

def Role.flip : Role → Role
  | terminal => binding
  | binding  => terminal

@[simp] theorem Role.flip_flip {r : Role} : r.flip.flip = r := by
  cases r <;> rfl

-- The messages that are sent on behalf of an object, `id` being that of the object itself in the case
-- of a description and that of an object of the receiver otherwise.
inductive Body
  | desc (identifier : Identifier) (id : Id)
  | map (id mappedId : Id)
  | noticed (id : Id)
  | removed (id : Id)
  | ack (id : Id)
  deriving DecidableEq, Repr

-- The message sent on behalf of a terminal or a binding.
def Role.message : Role → Body → Message
  | terminal, .desc x i    => .terminalDescription x i
  | terminal, .map i mId   => .bindingMapping i mId
  | terminal, .noticed i   => .bindingNoticed i
  | terminal, .removed mId => .terminalRemoved mId
  | terminal, .ack i       => .bindingRemovedAck i
  | binding,  .desc x i    => .bindingDescription x i
  | binding,  .map i mId   => .terminalMapping i mId
  | binding,  .noticed i   => .terminalNoticed i
  | binding,  .removed mId => .bindingRemoved mId
  | binding,  .ack i       => .terminalRemovedAck i

theorem Role.message_inj {r r' : Role} {b b' : Body} (h : r.message b = r'.message b') :
    r = r' ∧ b = b' := by
  cases r <;> cases r' <;> cases b <;> cases b' <;> simp_all [message]

-- The entry of a register of the receiver that a message names.
def Message.names : Message → Option (Role × Id)
  | terminalDescription _ _   => none
  | terminalMapping tmId _    => some (.terminal, tmId)
  | terminalNoticed tmId      => some (.terminal, tmId)
  | terminalRemoved mId       => some (.binding, mId)
  | terminalRemovedAck tmId   => some (.terminal, tmId)
  | bindingDescription _ _    => none
  | bindingMapping bdId _     => some (.binding, bdId)
  | bindingNoticed bdId       => some (.binding, bdId)
  | bindingRemoved mId        => some (.terminal, mId)
  | bindingRemovedAck bdId    => some (.binding, bdId)
  | bindingEstablished bdId   => some (.binding, bdId)
  | bindingReleased bdId      => some (.binding, bdId)

-- The message a transition of the state machine of the object `own` gives rise to; `remote` is the ID
-- in the description that has been received.
def Fsm.Call.body (x : Identifier) (own remote : Id) : Fsm.Call → Option Body
  | sendDesc      => some (.desc x own)
  | sendRem id    => some (.removed id)
  | sendMapp      => some (.map remote own)
  | sendRemAck id => some (.ack id)
  | mappStCh _    => none

end Yogi
