import YogiModel.Base.Machine
import YogiModel.Base.RingBuffer
import YogiModel.Core.Fsm
import YogiModel.Tcp.Frame

namespace Yogi.Tcp

open Wire

-- What a message that is to be sent is serialized to.
structure Outgoing where
  typeId : List Byte
  msg    : List Byte
  deriving DecidableEq, Repr

namespace Outgoing

def header (m : Outgoing) : List Byte :=
  serializeSize (m.msg.length + m.typeId.length) ++ m.typeId

def frame (m : Outgoing) : Frame :=
  .message (m.typeId ++ m.msg)

theorem header_length {m : Outgoing} :
    m.header.length = sizeLength (m.msg.length + m.typeId.length) + m.typeId.length := by
  simp [header, serializeSize_length]

end Outgoing

-- A call that waits for `m_cv`. The iterator `it` points into the contents that the temporary buffers
-- had when they were filled for the `version`-th time.
inductive Waiter
  | header (it version : Nat)
  | message (it version : Nat)
  | heartbeat (it : Nat)
  deriving DecidableEq, Repr

def Waiter.isHeartbeat : Waiter → Bool
  | heartbeat _ => true
  | _           => false

-- The sending half of a `TcpConnection` that is ready. `send` is the size of the array that the socket
-- has been given to send, `called` and `written` record the frames that were to be sent and the bytes
-- that were put into the buffer.
structure Sender (maxSize : Nat) where
  alive               : Bool
  outBuffer           : RingBuffer Byte maxSize
  tmpHeaderBuffer     : List Byte
  tmpMsgBuffer        : List Byte
  tmpVersion          : Nat
  sendSomeDataRunning : Bool
  send                : Option Nat
  waiting             : List Waiter
  called              : List Frame
  written             : List Byte

namespace Sender

variable {maxSize : Nat}

def startAsyncSendSomeData (s : Sender maxSize) : Sender maxSize :=
  if s.sendSomeDataRunning then
    s
  else
    { s with send := some s.outBuffer.firstReadArray.length, sendSomeDataRunning := true }

def done (s : Sender maxSize) : Except Fault (Sender maxSize) := do
  assert s.sendSomeDataRunning
  return { s with sendSomeDataRunning := false }

-- Returns what has not been written.
def write (s : Sender maxSize) (input : List Byte) : List Byte × Sender maxSize :=
  let (rest, b) := s.outBuffer.write input
  (rest, { s with outBuffer := b, written := s.written ++ input.take (input.length - rest.length) })

def block (s : Sender maxSize) (w : Waiter) : Sender maxSize :=
  { s with waiting := s.waiting ++ [w] }

-- The second `m_cv.wait` in `send`. The lambda does not move the iterator forward.
def waitMessage (s : Sender maxSize) (it version : Nat) : Except Fault (Sender maxSize) :=
  if !s.alive then
    .ok s
  else if s.tmpVersion ≠ version then
    .error .dangling
  else
    let (rest, s) := s.write (s.tmpMsgBuffer.drop it)
    .ok (if rest.isEmpty then s else s.block (.message it version))

-- What follows the first `m_cv.wait` in `send`.
def writeMessage (s : Sender maxSize) : Except Fault (Sender maxSize) :=
  let (rest, s) := s.write s.tmpMsgBuffer
  let s := s.startAsyncSendSomeData
  s.waitMessage (s.tmpMsgBuffer.length - rest.length) s.tmpVersion

-- The first `m_cv.wait` in `send`.
def waitHeader (s : Sender maxSize) (it version : Nat) : Except Fault (Sender maxSize) :=
  if !s.alive then
    s.writeMessage
  else if s.tmpVersion ≠ version then
    .error .dangling
  else
    let (rest, s) := s.write (s.tmpHeaderBuffer.drop it)
    if rest.isEmpty then s.writeMessage else .ok (s.block (.header it version))

-- Puts a message into the temporary buffers.
def fill (s : Sender maxSize) (m : Outgoing) : Sender maxSize :=
  { s with tmpMsgBuffer := m.msg, tmpHeaderBuffer := m.header, tmpVersion := s.tmpVersion + 1,
           called := s.called ++ [m.frame] }

def sendMessage (s : Sender maxSize) (m : Outgoing) : Except Fault (Sender maxSize) :=
  if !s.alive then
    .ok s
  else
    let s := s.fill m
    let (rest, s) := s.write s.tmpHeaderBuffer
    let s := if rest.isEmpty then s else s.startAsyncSendSomeData
    s.waitHeader (s.tmpHeaderBuffer.length - rest.length) s.tmpVersion

-- The `m_cv.wait` in `send_heartbeat`.
def waitHeartbeat (s : Sender maxSize) (it : Nat) : Sender maxSize :=
  if !s.alive then
    s
  else
    let (rest, s) := s.write (([0] : List Byte).drop it)
    if rest.isEmpty then s else s.block (.heartbeat it)

def sendHeartbeat (s : Sender maxSize) : Sender maxSize :=
  let s : Sender maxSize := { s with called := s.called ++ [.heartbeat] }
  let (rest, s) := s.write [0]
  s.startAsyncSendSomeData.waitHeartbeat (1 - rest.length)

def resume (s : Sender maxSize) : Waiter → Except Fault (Sender maxSize)
  | .header it version  => s.waitHeader it version
  | .message it version => s.waitMessage it version
  | .heartbeat it       => .ok (s.waitHeartbeat it)

def onSendSomeDataCompleted (s : Sender maxSize) (bytesSent : Nat) : Except Fault (Sender maxSize) := do
  match s.outBuffer.commitFirstReadArray bytesSent with
  | none   => .error .assertion
  | some b =>
    let s := { s with outBuffer := b, send := none }
    if s.outBuffer.isEmpty then
      s.done
    else
      return { s with sendSomeDataRunning := false }.startAsyncSendSomeData

def die (s : Sender maxSize) : Sender maxSize :=
  { s with alive := false }

-- Every action is performed by a thread that holds the mutex of the connection.
inductive Action
  | send (m : Outgoing)
  | sendHeartbeat
  | wake (i : Nat)
  | sent (bytesSent : Nat)
  | sendFailed
  | die
  deriving DecidableEq, Repr

-- The timer does not expire again before `send_heartbeat` has returned. Waiting threads are notified, but
-- may wake up at any other time as well.
def enabled (s : Sender maxSize) : Action → Prop
  | .send _         => True
  | .sendHeartbeat  => s.alive = true ∧ ∀ w ∈ s.waiting, w.isHeartbeat = false
  | .wake i         => i < s.waiting.length
  | .sent bytesSent => ∃ n ∈ s.send, bytesSent ≤ n
  | .sendFailed     => s.send.isSome
  | .die            => True

instance {s : Sender maxSize} {a : Action} : Decidable (s.enabled a) :=
  match a with
  | .send _         => inferInstanceAs (Decidable True)
  | .sendHeartbeat  => inferInstanceAs (Decidable (_ ∧ ∀ w ∈ s.waiting, _))
  | .wake _         => inferInstanceAs (Decidable (_ < _))
  | .sent bytesSent => inferInstanceAs (Decidable (∃ n ∈ s.send, bytesSent ≤ n))
  | .sendFailed     => inferInstanceAs (Decidable (_ = true))
  | .die            => inferInstanceAs (Decidable True)

def step (s : Sender maxSize) : Action → Except Fault (Sender maxSize)
  | .send m         => s.sendMessage m
  | .sendHeartbeat  => .ok s.sendHeartbeat
  | .wake i         =>
    match s.waiting[i]? with
    | some w => { s with waiting := s.waiting.eraseIdx i }.resume w
    | none   => .ok s
  | .sent bytesSent => s.onSendSomeDataCompleted bytesSent
  | .sendFailed     => .ok { s.die with send := none, sendSomeDataRunning := false }
  | .die            => .ok s.die

def init (capacity : Nat) : Sender (capacity + 1) where
  alive               := true
  outBuffer           := .new (Nat.succ_pos _)
  tmpHeaderBuffer     := []
  tmpMsgBuffer        := []
  tmpVersion          := 0
  sendSomeDataRunning := false
  send                := none
  waiting             := []
  called              := []
  written             := []

def machine (capacity : Nat) : Machine (Sender (capacity + 1)) Action Fault where
  init    := fun s => s = init capacity
  enabled := enabled
  step    := step

instance {capacity : Nat} : ∀ s a, Decidable ((machine capacity).enabled s a) :=
  fun s a => inferInstanceAs (Decidable (s.enabled a))

-- The capacity of the buffers, `YOGI_RING_BUFFER_SIZE`.
def ringBufferSize : Nat :=
  64 * 1024 - 1

section

variable {s : Sender maxSize} {w : Waiter} {input : List Byte} {m : Outgoing}

@[simp] theorem write_alive : (s.write input).snd.alive = s.alive := rfl

@[simp] theorem write_tmpHeaderBuffer :
    (s.write input).snd.tmpHeaderBuffer = s.tmpHeaderBuffer := rfl

@[simp] theorem write_tmpMsgBuffer : (s.write input).snd.tmpMsgBuffer = s.tmpMsgBuffer := rfl

@[simp] theorem write_tmpVersion : (s.write input).snd.tmpVersion = s.tmpVersion := rfl

@[simp] theorem write_sendSomeDataRunning :
    (s.write input).snd.sendSomeDataRunning = s.sendSomeDataRunning := rfl

@[simp] theorem write_send : (s.write input).snd.send = s.send := rfl

@[simp] theorem write_waiting : (s.write input).snd.waiting = s.waiting := rfl

@[simp] theorem write_called : (s.write input).snd.called = s.called := rfl

@[simp] theorem write_readIdx :
    (s.write input).snd.outBuffer.readIdx = s.outBuffer.readIdx := rfl

@[simp] theorem block_alive : (s.block w).alive = s.alive := rfl

@[simp] theorem block_outBuffer : (s.block w).outBuffer = s.outBuffer := rfl

@[simp] theorem block_tmpMsgBuffer : (s.block w).tmpMsgBuffer = s.tmpMsgBuffer := rfl

@[simp] theorem block_tmpVersion : (s.block w).tmpVersion = s.tmpVersion := rfl

@[simp] theorem block_sendSomeDataRunning :
    (s.block w).sendSomeDataRunning = s.sendSomeDataRunning := rfl

@[simp] theorem block_send : (s.block w).send = s.send := rfl

@[simp] theorem block_waiting : (s.block w).waiting = s.waiting ++ [w] := rfl

@[simp] theorem block_called : (s.block w).called = s.called := rfl

@[simp] theorem block_written : (s.block w).written = s.written := rfl

@[simp] theorem fill_alive : (s.fill m).alive = s.alive := rfl

@[simp] theorem fill_tmpHeaderBuffer : (s.fill m).tmpHeaderBuffer = m.header := rfl

@[simp] theorem fill_tmpMsgBuffer : (s.fill m).tmpMsgBuffer = m.msg := rfl

@[simp] theorem fill_tmpVersion : (s.fill m).tmpVersion = s.tmpVersion + 1 := rfl

@[simp] theorem fill_outBuffer : (s.fill m).outBuffer = s.outBuffer := rfl

@[simp] theorem fill_written : (s.fill m).written = s.written := rfl

@[simp] theorem fill_waiting : (s.fill m).waiting = s.waiting := rfl

@[simp] theorem fill_called : (s.fill m).called = s.called ++ [m.frame] := rfl

@[simp] theorem startAsyncSendSomeData_alive : s.startAsyncSendSomeData.alive = s.alive := by
  simp only [startAsyncSendSomeData]
  split <;> rfl

@[simp] theorem startAsyncSendSomeData_outBuffer :
    s.startAsyncSendSomeData.outBuffer = s.outBuffer := by
  simp only [startAsyncSendSomeData]
  split <;> rfl

@[simp] theorem startAsyncSendSomeData_tmpHeaderBuffer :
    s.startAsyncSendSomeData.tmpHeaderBuffer = s.tmpHeaderBuffer := by
  simp only [startAsyncSendSomeData]
  split <;> rfl

@[simp] theorem startAsyncSendSomeData_tmpMsgBuffer :
    s.startAsyncSendSomeData.tmpMsgBuffer = s.tmpMsgBuffer := by
  simp only [startAsyncSendSomeData]
  split <;> rfl

@[simp] theorem startAsyncSendSomeData_tmpVersion :
    s.startAsyncSendSomeData.tmpVersion = s.tmpVersion := by
  simp only [startAsyncSendSomeData]
  split <;> rfl

@[simp] theorem startAsyncSendSomeData_waiting :
    s.startAsyncSendSomeData.waiting = s.waiting := by
  simp only [startAsyncSendSomeData]
  split <;> rfl

@[simp] theorem startAsyncSendSomeData_called :
    s.startAsyncSendSomeData.called = s.called := by
  simp only [startAsyncSendSomeData]
  split <;> rfl

@[simp] theorem startAsyncSendSomeData_written :
    s.startAsyncSendSomeData.written = s.written := by
  simp only [startAsyncSendSomeData]
  split <;> rfl

@[simp] theorem startAsyncSendSomeData_running :
    s.startAsyncSendSomeData.sendSomeDataRunning = true := by
  simp only [startAsyncSendSomeData]
  split
  case isTrue h => exact h
  case isFalse  => rfl

end

-- The number of bytes that fit into the buffer.
def free (s : Sender maxSize) : Nat :=
  s.outBuffer.writeAvailable

theorem free_eq {s : Sender maxSize} : s.free = maxSize - 1 - s.outBuffer.contents.length := by
  rw [free, RingBuffer.writeAvailable_eq, RingBuffer.contents_length]

theorem contents_length_of_free {capacity : Nat} {s : Sender (capacity + 1)} (h : s.free = 0) :
    s.outBuffer.contents.length = capacity := by
  have := RingBuffer.readAvailable_lt (b := s.outBuffer)
  simp only [free_eq, RingBuffer.contents_length] at h ⊢
  omega

@[simp] theorem free_fill {s : Sender maxSize} {m} : (s.fill m).free = s.free := rfl

@[simp] theorem free_startAsyncSendSomeData {s : Sender maxSize} :
    s.startAsyncSendSomeData.free = s.free := by
  simp [free]

@[simp] theorem write_fst {s : Sender maxSize} {input} :
    (s.write input).fst = input.drop s.free := by
  simp [write, free]

@[simp] theorem write_outBuffer {s : Sender maxSize} {input} :
    (s.write input).snd.outBuffer.contents =
      s.outBuffer.contents ++ input.take s.free := by
  simp [write, RingBuffer.write_snd, free]

@[simp] theorem write_written {s : Sender maxSize} {input} :
    (s.write input).snd.written = s.written ++ input.take s.free := by
  simp only [write, RingBuffer.write_fst, List.length_drop, free]
  cases Nat.le_total input.length s.outBuffer.writeAvailable
  case inl h => simp [List.take_of_length_le, h]
  case inr h => rw [Nat.sub_sub_self h]

@[simp] theorem free_write {s : Sender maxSize} {input} :
    (s.write input).snd.free = s.free - input.length := by
  simp only [free_eq, write_outBuffer, List.length_append, List.length_take]
  omega

theorem sendMessage_eq {s : Sender maxSize} {m} (ha : s.alive = true)
    (hf : m.header.length ≤ s.free) :
    s.sendMessage m = (((s.fill m).write m.header).snd.write []).snd.writeMessage := by
  simp [sendMessage, waitHeader, ha, hf]

theorem writeMessage_eq {s : Sender maxSize} :
    s.writeMessage = (s.write s.tmpMsgBuffer).snd.startAsyncSendSomeData.waitMessage
      (min s.tmpMsgBuffer.length s.free) s.tmpVersion := by
  simp only [writeMessage, write_fst, List.length_drop, startAsyncSendSomeData_tmpMsgBuffer,
    write_tmpMsgBuffer, startAsyncSendSomeData_tmpVersion, write_tmpVersion]
  congr 1
  omega

end Sender

end Yogi.Tcp
