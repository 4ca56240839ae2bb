import YogiModel.Base.Machine
import YogiModel.Base.RingBuffer
import YogiModel.Core.Fsm
import YogiModel.Tcp.Frame

namespace Yogi.Tcp

open Wire

-- Where `on_receive_some_data_completed` stands, which holds the receive mutex all the time.
inductive Handler
  | none
  | committed
  | scheduled
  deriving DecidableEq, Repr

-- Where `deserialize` stands.
inductive Task
  | idle
  | posted
  | loop
  | payload
  | wait
  | forward
  deriving DecidableEq, Repr

-- The receiving half of a `TcpConnection`; `receive` is the size of the array that the socket has been
-- given to put bytes into, `unread` are the bytes that the other side has sent and the socket has not
-- handed over, and `forwarded` are the payloads that have been passed on to the communicator.
structure Receiver (maxSize : Nat) where
  alive               : Bool
  inBuffer            : RingBuffer Byte maxSize
  remainingPayload    : Nat
  tmpInBuffer         : List Byte
  recvSomeDataRunning : Bool
  deserializeRunning  : Bool
  receive             : Option Nat
  handler             : Handler
  task                : Task
  unread              : List Byte
  forwarded           : List (List Byte)

namespace Receiver

variable {maxSize : Nat}

def startAsyncReceiveSomeData (s : Receiver maxSize) : Receiver maxSize :=
  if s.recvSomeDataRunning then
    s
  else
    { s with receive := some s.inBuffer.firstWriteArraySize, recvSomeDataRunning := true }

def startAsyncDeserialization (s : Receiver maxSize) : Receiver maxSize :=
  if s.deserializeRunning || !s.alive then
    s
  else
    { s with task := .posted, deserializeRunning := true }

def done (s : Receiver maxSize) : Except Fault (Receiver maxSize) := do
  assert s.recvSomeDataRunning
  return { s with recvSomeDataRunning := false }

def ofPop : Option (RingBuffer Byte maxSize) → Except Fault (RingBuffer Byte maxSize)
  | some b => .ok b
  | none   => .error .assertion

-- The first part of `on_receive_some_data_completed`; the deserialization may notice the bytes at once.
def onReceiveSomeDataCompleted (s : Receiver maxSize) (chunk : List Byte) :
    Except Fault (Receiver maxSize) := do
  let b ← ofPop (s.inBuffer.commitFirstWriteArray chunk)
  return { s with inBuffer := b, unread := s.unread.drop chunk.length, receive := none,
                  handler := .committed }

-- The rest of it.
def handle (s : Receiver maxSize) : Except Fault (Receiver maxSize) :=
  match s.handler with
  | .none      => .ok s
  | .committed => .ok { s.startAsyncDeserialization with handler := .scheduled }
  | .scheduled => do
    if s.inBuffer.isFull then
      return { ← s.done with handler := .none }
    else
      return { { s with recvSomeDataRunning := false }.startAsyncReceiveSomeData with handler := .none }

def die (s : Receiver maxSize) : Receiver maxSize :=
  { s with alive := false }

-- `resize` fills up with zeros.
def resize (xs : List Byte) (n : Nat) : List Byte :=
  xs.take n ++ List.replicate (n - xs.length) 0

def waitForMoreDataToDeserialize (s : Receiver maxSize) : Receiver maxSize :=
  let s := s.startAsyncReceiveSomeData
  let s := { s with task := .idle, deserializeRunning := false }
  if s.inBuffer.isEmpty then s else s.startAsyncDeserialization

-- One step of `deserialize` up to its next access to something that it shares with the receive handler.
def deserialize (s : Receiver maxSize) : Except Fault (Receiver maxSize) :=
  match s.task with
  | .idle    => .ok s
  | .posted  => .ok { s with task := .loop }
  | .loop    =>
    if s.remainingPayload = 0 then
      if canDeserializeSize s.tmpInBuffer then
        let n := (deserializeSize s.tmpInBuffer).fst.getD s.remainingPayload
        .ok { s with remainingPayload := n, tmpInBuffer := resize s.tmpInBuffer n,
                     task := if n = 0 then .loop else .payload }
      else if s.inBuffer.isEmpty then
        .ok { s with task := .wait }
      else do
        let b ← ofPop s.inBuffer.pop
        return { s with inBuffer := b, tmpInBuffer := s.tmpInBuffer ++ [s.inBuffer.front] }
    else
      .ok { s with task := .payload }
  | .payload =>
    let (xs, b) := s.inBuffer.read s.remainingPayload
    let offset  := s.tmpInBuffer.length - s.remainingPayload
    let n       := s.remainingPayload - xs.length
    .ok { s with
      inBuffer         := b
      tmpInBuffer      := s.tmpInBuffer.take offset ++ xs ++ s.tmpInBuffer.drop (offset + xs.length)
      remainingPayload := n
      task             := if n > 0 then .wait else .forward }
  | .wait    => .ok s.waitForMoreDataToDeserialize
  | .forward =>
    .ok { s with
      forwarded   := if s.alive then s.forwarded ++ [s.tmpInBuffer] else s.forwarded
      tmpInBuffer := []
      task        := .loop }

inductive Action
  | received (chunk : List Byte)
  | receiveFailed
  | handle
  | deserialize
  | die

-- The receive mutex is taken as long as the receive handler is being executed.
def enabled (s : Receiver maxSize) : Action → Prop
  | .received chunk =>
    s.handler = .none ∧ (∃ n ∈ s.receive, chunk.length ≤ n) ∧ chunk <+: s.unread
  | .receiveFailed  => s.handler = .none ∧ s.receive.isSome
  | .handle         => s.handler ≠ .none
  | .deserialize    => s.task ≠ .idle ∧ ((s.task = .wait ∨ s.task = .forward) → s.handler = .none)
  | .die            => True

instance {s : Receiver maxSize} {a : Action} : Decidable (s.enabled a) :=
  match a with
  | .received chunk =>
    have : Decidable (∃ n ∈ s.receive, chunk.length ≤ n) :=
      match h : s.receive with
      | some n => decidable_of_iff (chunk.length ≤ n) (by simp)
      | none   => isFalse (by simp)
    inferInstanceAs (Decidable (_ = _ ∧ (∃ n ∈ s.receive, chunk.length ≤ n) ∧ _))
  | .receiveFailed  => inferInstanceAs (Decidable (_ = _ ∧ _ = true))
  | .handle         => inferInstanceAs (Decidable (_ ≠ _))
  | .deserialize    => inferInstanceAs (Decidable (_ ≠ _ ∧ (_ ∨ _ → _)))
  | .die            => inferInstanceAs (Decidable True)

def step (s : Receiver maxSize) : Action → Except Fault (Receiver maxSize)
  | .received chunk => s.onReceiveSomeDataCompleted chunk
  | .receiveFailed  => .ok { s.die with receive := none, recvSomeDataRunning := false }
  | .handle         => s.handle
  | .deserialize    => s.deserialize
  | .die            => .ok s.die

-- The connection has become ready and starts to receive.
def init (capacity : Nat) (stream : List Byte) : Receiver (capacity + 1) :=
  startAsyncReceiveSomeData {
    alive               := true
    inBuffer            := .new (Nat.succ_pos _)
    remainingPayload    := 0
    tmpInBuffer         := []
    recvSomeDataRunning := false
    deserializeRunning  := false
    receive             := none
    handler             := .none
    task                := .idle
    unread              := stream
    forwarded           := [] }

def machine (capacity : Nat) (frames : List Frame) :
    Machine (Receiver (capacity + 1)) Action Fault where
  init    := fun s => s = init capacity (Frame.encodeAll frames)
  enabled := enabled
  step    := step

instance {capacity : Nat} {frames : List Frame} :
    ∀ s a, Decidable ((machine capacity frames).enabled s a) :=
  fun s a => inferInstanceAs (Decidable (s.enabled a))

end Receiver

end Yogi.Tcp
