import YogiModel.Base.Machine
import YogiModel.Wire.Serialization

namespace Yogi.Tcp

open Wire

inductive ErrorCode
  | ok
  | timeout
  | canceled
  | socketBroken
  | invalidMagicPrefix
  | incompatibleVersion
  | identificationTooLarge
  deriving DecidableEq

inductive SystemError
  | operationAborted
  | other
  deriving DecidableEq

def yogiVersion : List Byte :=
  "0.0.2-alpha".toList.map fun c => UInt8.ofNat c.toNat

def yogiVersionInfoSize : Nat :=
  20

def yogiMaxTcpIdentificationSize : Nat :=
  16 * 1024

def magicPrefix : List Byte :=
  "YOGI ".toList.map fun c => UInt8.ofNat c.toNat

def dot : Byte :=
  UInt8.ofNat '.'.toNat

-- `version.substr(0, version.find_last_of('.'))`
def majorMinor (version : List Byte) : List Byte :=
  if version.contains dot then
    (version.reverse.dropWhile fun b => b != dot).tail.reverse
  else
    version

-- `std::string(m_buffer.data())` when the last byte has been set to zero.
def versionOf (buffer : List Byte) : List Byte :=
  (buffer.dropLast ++ [0]).takeWhile fun b => b != 0

def versionsAreCompatible (remoteVersion : List Byte) : Bool :=
  majorMinor remoteVersion == majorMinor yogiVersion

def ntohl (bytes : List Byte) : Nat :=
  bytes.foldl (fun n b => n * 256 + b.toNat) 0

def resize (buffer : List Byte) (n : Nat) : List Byte :=
  buffer.take n ++ List.replicate (n - buffer.length) 0

inductive Operation
  | sendHeader
  | receiveMagicPrefix
  | receiveVersionInfo
  | receiveIdentificationSize
  | receiveIdentificationData
  deriving DecidableEq

-- What is known of a `TcpConnection` that has been made.
structure Connection where
  remoteVersion        : List Byte
  remoteIdentification : List Byte
  deriving DecidableEq

-- `socket` is the operation of the socket that has not been completed, `timer` says whether the
-- timer has not, `received` are the bytes that the socket has put into the buffer so far and
-- `completed` are the calls of `on_shake_hands_completed`.
structure ConnectionFactory where
  firstResult   : Option ErrorCode
  remoteVersion : List Byte
  buffer        : List Byte
  canceled      : Bool
  socket        : Option Operation
  timer         : Bool
  received      : List Byte
  completed     : List (ErrorCode × Option Connection)
  deriving DecidableEq

namespace ConnectionFactory

def onShakeHandsCompleted (s : ConnectionFactory) (e : ErrorCode) (conn : Option Connection) :
    ConnectionFactory :=
  { s with completed := s.completed ++ [(e, conn)] }

def makeConnection (s : ConnectionFactory) : Connection where
  remoteVersion        := s.remoteVersion
  remoteIdentification := s.buffer

-- The operation is completed with an error or with success later.
def cancelSocket (s : ConnectionFactory) : ConnectionFactory :=
  { s with canceled := true }

-- The timer is canceled too, which completes later.
def finish (s : ConnectionFactory) (e : ErrorCode) : ConnectionFactory :=
  { s with firstResult := some e }

def handleProtocolError (s : ConnectionFactory) (e : ErrorCode) : ConnectionFactory :=
  match s.firstResult with
  | some _ => s.onShakeHandsCompleted .timeout none
  | none   => s.finish e

def completionHandler (s : ConnectionFactory) (ec : Option SystemError)
    (fn : ConnectionFactory → ConnectionFactory) : ConnectionFactory :=
  if !s.canceled && ec.isNone then
    fn s
  else if s.canceled || ec == some .operationAborted then
    match s.firstResult with
    | some .timeout  => s.onShakeHandsCompleted .timeout none
    | some .canceled => s.onShakeHandsCompleted .ok (some s.makeConnection)
    | some e         => s.onShakeHandsCompleted e none
    | none           => s.finish .canceled
  else
    match s.firstResult with
    | some _ => s.onShakeHandsCompleted .socketBroken none
    | none   => s.finish .socketBroken

def startAsyncReceive (s : ConnectionFactory) (op : Operation) (n : Nat) : ConnectionFactory :=
  { s with buffer := resize s.buffer n, socket := some op }

def onSendHeaderSucceeded (s : ConnectionFactory) : ConnectionFactory :=
  s.startAsyncReceive .receiveMagicPrefix magicPrefix.length

def onReceiveMagicPrefixSucceeded (s : ConnectionFactory) : ConnectionFactory :=
  if s.buffer = magicPrefix then
    s.startAsyncReceive .receiveVersionInfo yogiVersionInfoSize
  else
    s.handleProtocolError .invalidMagicPrefix

def onReceiveVersionInfoSucceeded (s : ConnectionFactory) : ConnectionFactory :=
  let s := { s with buffer := s.buffer.dropLast ++ [0], remoteVersion := versionOf s.buffer }
  if versionsAreCompatible s.remoteVersion then
    s.startAsyncReceive .receiveIdentificationSize 4
  else
    s.handleProtocolError .incompatibleVersion

def onReceiveIdentificationSizeSucceeded (s : ConnectionFactory) : ConnectionFactory :=
  let size := ntohl s.buffer
  if size ≤ yogiMaxTcpIdentificationSize then
    s.startAsyncReceive .receiveIdentificationData size
  else
    s.handleProtocolError .identificationTooLarge

def onReceiveIdentificationDataSucceeded (s : ConnectionFactory) : ConnectionFactory :=
  match s.firstResult with
  | some e => s.onShakeHandsCompleted e none
  | none   => s.finish .ok

def onSucceeded : Operation → ConnectionFactory → ConnectionFactory
  | .sendHeader                => onSendHeaderSucceeded
  | .receiveMagicPrefix        => onReceiveMagicPrefixSucceeded
  | .receiveVersionInfo        => onReceiveVersionInfoSucceeded
  | .receiveIdentificationSize => onReceiveIdentificationSizeSucceeded
  | .receiveIdentificationData => onReceiveIdentificationDataSucceeded

def onTimeout (s : ConnectionFactory) (ec : Option SystemError) : ConnectionFactory :=
  match s.firstResult with
  | some e => s.onShakeHandsCompleted e (if e = .ok then some s.makeConnection else none)
  | none   =>
    let s := { s with firstResult := some (if ec.isNone then .timeout else .canceled) }
    s.cancelSocket

-- The errors are the ones of setting the option and of starting a timer, which does not happen
-- for an infinite timeout.
def startAsyncShakeHands (s : ConnectionFactory) (setOption : Option SystemError)
    (expiresFromNow : Option (Option SystemError)) : ConnectionFactory :=
  let s := { s with
    firstResult := none
    canceled    := false
    socket      := some .sendHeader
    timer       := true
    received    := []
    completed   := [] }
  let ec := expiresFromNow.getD setOption
  if ec.isSome then s.cancelSocket else s

def cancelShakeHands (s : ConnectionFactory) : ConnectionFactory :=
  s.cancelSocket

-- How many bytes the operation reads.
def readSize (s : ConnectionFactory) : Operation → Nat
  | .sendHeader => 0
  | _           => s.buffer.length

inductive Action
  | socketCompleted (ec : Option SystemError) (data : List Byte)
  | timerCompleted (ec : Option SystemError)
  | cancelShakeHands
  deriving DecidableEq

-- An operation that succeeds has read all bytes.
def enabled (s : ConnectionFactory) : Action → Prop
  | .socketCompleted ec data =>
    ∃ op ∈ s.socket, data.length ≤ s.readSize op ∧ (ec = none → data.length = s.readSize op)
  | .timerCompleted _ => s.timer = true
  | .cancelShakeHands => True

instance {s : ConnectionFactory} {a : Action} : Decidable (s.enabled a) :=
  match a with
  | .socketCompleted ec data => inferInstanceAs (Decidable
    (∃ op ∈ s.socket, data.length ≤ s.readSize op ∧ (ec = none → data.length = s.readSize op)))
  | .timerCompleted _        => inferInstanceAs (Decidable (s.timer = true))
  | .cancelShakeHands        => isTrue trivial

def act (s : ConnectionFactory) : Action → ConnectionFactory
  | .socketCompleted ec data =>
    match s.socket with
    | none    => s
    | some op =>
      let s := { s with
        socket   := none
        buffer   := data ++ s.buffer.drop data.length
        received := s.received ++ data }
      s.completionHandler ec (onSucceeded op)
  | .timerCompleted ec => { s with timer := false }.onTimeout ec
  | .cancelShakeHands  => s.cancelShakeHands

-- What is left in the buffer by an earlier attempt does not matter.
def machine : Machine ConnectionFactory Action Empty where
  init    := fun s => ∃ s₀ setOption expiresFromNow,
    s = startAsyncShakeHands s₀ setOption expiresFromNow
  enabled := enabled
  step    := fun s a => .ok (s.act a)

end ConnectionFactory

end Yogi.Tcp
