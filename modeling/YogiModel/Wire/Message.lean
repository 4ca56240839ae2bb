import YogiModel.Wire.Serialization
import Mathlib

namespace Yogi.Wire

-- The types of the fields of messages.
inductive FieldType
  | identifier
  | id
  | buffer
  | gatherFlags
  deriving DecidableEq, Repr

inductive Field
  | identifier
  | id
  | terminalId
  | bindingId
  | subscriptionId
  | operationId
  | mappedId
  | data
  | gatherFlags
  deriving DecidableEq, Repr

def Field.type : Field → FieldType
  | identifier     => .identifier
  | id             => .id
  | terminalId     => .id
  | bindingId      => .id
  | subscriptionId => .id
  | operationId    => .id
  | mappedId       => .id
  | data           => .buffer
  | gatherFlags    => .gatherFlags

namespace FieldType

def Value : FieldType → Type
  | identifier  => Identifier
  | id          => Id
  | buffer      => List Byte
  | gatherFlags => Nat

instance : (t : FieldType) → DecidableEq t.Value
  | identifier  => inferInstanceAs (DecidableEq Identifier)
  | id          => inferInstanceAs (DecidableEq Nat)
  | buffer      => inferInstanceAs (DecidableEq (List Byte))
  | gatherFlags => inferInstanceAs (DecidableEq Nat)

-- The specializations of `serialize_one`; `none` where an assertion fails.
def serializeOne : (t : FieldType) → t.Value → Option (List Byte)
  | identifier,  value => some (serializeIdentifier value)
  | id,          value => some (serializeId value)
  | buffer,      value => some (serializeBuffer value)
  | gatherFlags, value => serializeGatherFlags value

-- The specializations of `deserialize_one`.
def deserializeOne : (t : FieldType) → Reader Byte t.Value
  | identifier  => deserializeIdentifier
  | id          => deserializeId
  | buffer      => deserializeBuffer
  | gatherFlags => deserializeGatherFlags

-- The values that can be told apart on the wire.
def Bounded : (t : FieldType) → t.Value → Prop
  | identifier,  (value : Identifier) => value.signature < sizeLimit ∧ value.name.length < sizeLimit
  | id,          (value : Nat)        => value ≠ 0 ∧ value < sizeLimit
  | buffer,      (value : List Byte)  => value.length < sizeLimit
  | gatherFlags, (value : Nat)        => value ≤ 127

theorem deserializeOne_reads {t : FieldType} {v : t.Value} (h : t.Bounded v) :
    ∃ word, t.serializeOne v = some word ∧ t.deserializeOne.Reads word v := by
  cases t
  case identifier  => exact ⟨_, rfl, deserializeIdentifier_reads h.left h.right⟩
  case id          => exact ⟨_, rfl, deserializeId_reads h.left h.right⟩
  case buffer      => exact ⟨_, rfl, deserializeBuffer_reads h⟩
  case gatherFlags => exact deserializeGatherFlags_reads h

end FieldType

-- The field values of a message with given fields.
def Values : List Field → Type
  | []      => Unit
  | f :: fs => f.type.Value × Values fs

namespace Values

instance instDecidableEq : (fs : List Field) → DecidableEq (Values fs)
  | []      => inferInstanceAs (DecidableEq Unit)
  | f :: fs =>
    have := instDecidableEq fs
    inferInstanceAs (DecidableEq (f.type.Value × Values fs))

-- The function `serialize` on all fields of a message in order.
def serialize : (fs : List Field) → Values fs → Option (List Byte)
  | [],      _       => some []
  | f :: fs, (v, vs) => do some ((← f.type.serializeOne v) ++ (← serialize fs vs))

def deserialize : (fs : List Field) → Reader Byte (Values fs)
  | []      => Reader.pure ()
  | f :: fs => f.type.deserializeOne.bind fun v => (deserialize fs).bind fun vs => Reader.pure (v, vs)

def Bounded : (fs : List Field) → Values fs → Prop
  | [],      _       => True
  | f :: fs, (v, vs) => f.type.Bounded v ∧ Bounded fs vs

theorem deserialize_reads {fs vs} (h : Bounded fs vs) :
    ∃ word, serialize fs vs = some word ∧ (deserialize fs).Reads word vs := by
  induction fs
  case nil => exact ⟨[], rfl, .pure⟩
  case cons f fs ih =>
    obtain ⟨v, vs⟩ := vs
    obtain ⟨w₁, hs₁, hr₁⟩ := FieldType.deserializeOne_reads h.left
    obtain ⟨w₂, hs₂, hr₂⟩ := ih h.right
    exact ⟨w₁ ++ w₂, by simp [serialize, hs₁, hs₂], hr₁.bind hr₂.map⟩

end Values

-- The structs in `messaging::messages`.
inductive Group
  | deafMute
  | publishSubscribe
  | scatterGather
  | cachedPublishSubscribe
  | producerConsumer
  | cachedProducerConsumer
  | masterSlave
  | cachedMasterSlave
  | serviceClient
  deriving DecidableEq, Repr

-- The names of messages; every group has its own messages of these names.
inductive Kind
  | terminalDescription
  | terminalMapping
  | terminalNoticed
  | terminalRemoved
  | terminalRemovedAck
  | bindingDescription
  | bindingMapping
  | bindingNoticed
  | bindingRemoved
  | bindingRemovedAck
  | bindingEstablished
  | bindingReleased
  | subscribe
  | unsubscribe
  | data
  | cachedData
  | scatter
  | gather
  deriving DecidableEq, Repr

-- The group that declares a message first says what its fields are, the others inherit from it.
def Kind.fields : Kind → List Field
  | terminalDescription => [.identifier, .id]
  | terminalMapping     => [.terminalId, .mappedId]
  | terminalNoticed     => [.terminalId]
  | terminalRemoved     => [.mappedId]
  | terminalRemovedAck  => [.terminalId]
  | bindingDescription  => [.identifier, .id]
  | bindingMapping      => [.bindingId, .mappedId]
  | bindingNoticed      => [.bindingId]
  | bindingRemoved      => [.mappedId]
  | bindingRemovedAck   => [.bindingId]
  | bindingEstablished  => [.bindingId]
  | bindingReleased     => [.bindingId]
  | subscribe           => [.terminalId]
  | unsubscribe         => [.terminalId]
  | data                => [.subscriptionId, .data]
  | cachedData          => [.subscriptionId, .data]
  | scatter             => [.subscriptionId, .operationId, .data]
  | gather              => [.operationId, .gatherFlags, .data]

namespace Group

def mappingKinds : List Kind :=
  [.terminalDescription, .terminalMapping, .terminalNoticed, .terminalRemoved, .terminalRemovedAck,
    .bindingDescription, .bindingMapping, .bindingNoticed, .bindingRemoved, .bindingRemovedAck,
    .bindingEstablished, .bindingReleased]

def kinds : Group → List Kind
  | deafMute               => mappingKinds
  | publishSubscribe       => mappingKinds ++ [.subscribe, .unsubscribe, .data]
  | scatterGather          => mappingKinds ++ [.subscribe, .unsubscribe, .scatter, .gather]
  | cachedPublishSubscribe => mappingKinds ++ [.subscribe, .unsubscribe, .data, .cachedData]
  | producerConsumer       => mappingKinds ++ [.subscribe, .unsubscribe, .data]
  | cachedProducerConsumer => mappingKinds ++ [.subscribe, .unsubscribe, .data, .cachedData]
  | masterSlave            => mappingKinds ++ [.subscribe, .unsubscribe, .data]
  | cachedMasterSlave      => mappingKinds ++ [.subscribe, .unsubscribe, .data, .cachedData]
  | serviceClient          => mappingKinds ++ [.subscribe, .unsubscribe, .scatter, .gather]

def all : List Group :=
  [deafMute, publishSubscribe, scatterGather, cachedPublishSubscribe, producerConsumer,
    cachedProducerConsumer, masterSlave, cachedMasterSlave, serviceClient]

theorem mem_all {g : Group} : g ∈ all := by
  cases g <;> simp [all]

end Group

structure MessageType where
  group : Group
  kind  : Kind
  mem   : kind ∈ group.kinds
  deriving DecidableEq

namespace MessageRegister

-- The template arguments of `MessageRegisterImpl`.
def messages : List MessageType :=
  Group.all.flatMap fun group => group.kinds.attach.map fun ⟨kind, mem⟩ => { group, kind, mem }

-- The template `IndexOf`.
def indexOf (t : MessageType) : List MessageType → Nat
  | []      => 0
  | u :: us => if u = t then 0 else indexOf t us + 1

def messageTypeId (t : MessageType) : Id :=
  indexOf t messages + 1

theorem mem_messages {t : MessageType} : t ∈ messages := by
  obtain ⟨group, kind, mem⟩ := t
  simp only [messages, List.mem_flatMap, List.mem_map, List.mem_attach, true_and]
  exact ⟨group, Group.mem_all, ⟨kind, mem⟩, rfl⟩

theorem getElem?_indexOf {t : MessageType} {ts} (h : t ∈ ts) : ts[indexOf t ts]? = some t := by
  induction ts
  case nil          => cases h
  case cons u us ih =>
    simp only [indexOf]
    split
    case isTrue hu  => simp [hu]
    case isFalse hu =>
      have ht := (List.mem_cons.mp h).resolve_left fun he => hu he.symm
      simpa using ih ht

theorem messages_length : messages.length = 137 := by
  decide +kernel

end MessageRegister

-- A message of a type that is registered.
structure Message where
  type   : MessageType
  values : Values type.kind.fields
  deriving DecidableEq

namespace Message

def Bounded (m : Message) : Prop :=
  Values.Bounded _ m.values

-- What `TcpConnection::send` puts behind the size: the ID of the type and the fields.
def payload (m : Message) : Option (List Byte) := do
  let msg ← Values.serialize _ m.values
  some (serializeId (MessageRegister.messageTypeId m.type) ++ msg)

-- The message register finds the type in its lookup table; `none` where an assertion fails.
def ofTypeId (id : Id) : Reader Byte Message :=
  match MessageRegister.messages[id - 1]? with
  | some t => (Values.deserialize t.kind.fields).bind fun vs => Reader.pure ⟨t, vs⟩
  | none   => fun _ => none

-- The function `deserialize_message_and_forward_to_communicator`.
def deserialize : Reader Byte Message :=
  deserializeId.bind ofTypeId

theorem deserialize_reads {m : Message} (h : m.Bounded) :
    ∃ payload, m.payload = some payload ∧ deserialize.Reads payload m := by
  obtain ⟨word, hs, hr⟩ := Values.deserialize_reads h
  have hi := MessageRegister.getElem?_indexOf (MessageRegister.mem_messages (t := m.type))
  have hl : MessageRegister.messageTypeId m.type < sizeLimit := by
    obtain ⟨hl, _⟩ := List.getElem?_eq_some_iff.mp hi
    exact Nat.lt_of_le_of_lt hl (MessageRegister.messages_length ▸ by decide)
  refine ⟨_, by simp only [payload, hs]; rfl, ?_⟩
  have ho : ofTypeId (MessageRegister.messageTypeId m.type) =
      (Values.deserialize m.type.kind.fields).bind fun vs => Reader.pure ⟨m.type, vs⟩ := by
    simp only [ofTypeId, MessageRegister.messageTypeId, Nat.add_sub_cancel, hi]
  have hn : MessageRegister.messageTypeId m.type ≠ 0 := Nat.succ_ne_zero _
  apply (deserializeId_reads hn hl).bind
  rw [ho]
  exact hr.map

-- Every message is decoded to itself from its payload and from nothing but it, so that no two messages
-- have the same payload.
theorem wire_round_trip :
    (∀ m : Message, m.Bounded → ∃ payload, m.payload = some payload ∧
      ∀ rest, deserialize (payload ++ rest) = some (m, rest)) ∧
    (∀ m m' : Message, m.Bounded → m'.Bounded → m.payload = m'.payload → m = m') := by
  constructor
  case left  => exact fun m h => deserialize_reads h
  case right =>
    intro m m' h h' he
    obtain ⟨w, hw, hr⟩ := deserialize_reads h
    obtain ⟨w', hw', hr'⟩ := deserialize_reads h'
    have hww : w = w' := Option.some.inj (hw.symm.trans (he.trans hw'))
    exact (hr.inj hr' (s := []) (t := []) (by rw [hww])).left

def gather : Message where
  type   := { group := .serviceClient, kind := .gather, mem := by decide }
  values := ((300 : Nat), (5 : Nat), ([1, 2, 3] : List Byte), ())

theorem gather_bounded : gather.Bounded :=
  ⟨⟨by decide, by decide⟩, show 5 ≤ 127 by decide, show 3 < sizeLimit by decide, trivial⟩

theorem wire_round_trip_gather :
    ∃ payload, gather.payload = some payload ∧
      ∀ rest, deserialize (payload ++ rest) = some (gather, rest) :=
  wire_round_trip.left gather gather_bounded

example : gather.payload = some [0x81, 0x09, 0x82, 0x2C, 5, 3, 1, 2, 3] := by
  decide +kernel

end Message

end Yogi.Wire
