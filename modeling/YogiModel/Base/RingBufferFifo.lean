import YogiModel.Base.RingBufferWords

namespace Yogi.LockFreeRingBuffer

variable {α : Type} {c : RingBufferConfig}

-- What a side asks the buffer for. It may hold the array it was handed out until it commits.
inductive Action (α : Type)
  | write (input : List α)
  | firstWriteArray
  | fill (i : Nat) (x : α)
  | commitFirstWriteArray (n : SizeT)
  | read (maxSize : SizeT)
  | frontPop
  | firstReadArray
  | look
  | commitFirstReadArray (n : SizeT)

inductive Answer (α : Type)
  | done
  | accepted (n : Nat)
  | bytes (xs : List α)

-- The two sides, each with the array that it was handed out and has not committed.
structure Sides (α : Type) where
  buffer     : LockFreeRingBuffer α
  writeArray : Option BufferSpan
  readArray  : Option BufferSpan

namespace Sides

def enabled (s : Sides α) : Action α → Prop
  | .fill i _                => ∃ span ∈ s.writeArray, i < span.size.toNat
  | .commitFirstWriteArray n => ∃ span ∈ s.writeArray, n ≤ span.size
  | .frontPop                => s.buffer.empty = false
  | .look                    => s.readArray.isSome
  | .commitFirstReadArray n  => ∃ span ∈ s.readArray, n ≤ span.size
  | _                        => True

instance (s : Sides α) : (a : Action α) → Decidable (s.enabled a)
  | .write _                 => .isTrue trivial
  | .firstWriteArray         => .isTrue trivial
  | .fill i _                =>
    decidable_of_iff (s.writeArray.any fun span => i < span.size.toNat) (by
      simp [enabled, Option.any_eq_true])
  | .commitFirstWriteArray n =>
    decidable_of_iff (s.writeArray.any fun span => n ≤ span.size) (by
      simp [enabled, Option.any_eq_true])
  | .read _                  => .isTrue trivial
  | .frontPop                => inferInstanceAs (Decidable (_ = _))
  | .firstReadArray          => .isTrue trivial
  | .look                    => inferInstanceAs (Decidable (_ = _))
  | .commitFirstReadArray n  =>
    decidable_of_iff (s.readArray.any fun span => n ≤ span.size) (by
      simp [enabled, Option.any_eq_true])

-- The bytes that a side sees through the array it was handed out.
def through (b : LockFreeRingBuffer α) (span : BufferSpan) : Except RingBufferFault (List α) :=
  copyFrom b.data span.first.toNat span.size.toNat

def step (c : RingBufferConfig) (s : Sides α) :
    Action α → Except RingBufferFault (Answer α × Sides α)
  | .write input => do
    let (n, b) ← s.buffer.write c input
    pure (.accepted n, { s with buffer := b, writeArray := none })
  | .firstWriteArray => do
    let span := s.buffer.firstWriteArray c
    let xs ← through s.buffer span
    pure (.bytes xs, { s with writeArray := some span })
  | .fill i x => do
    let span ← s.writeArray.elim (.error .assertion) .ok
    let data ← store s.buffer.data (span.first.toNat + i) x
    pure (.done, { s with buffer := { s.buffer with data := data } })
  | .commitFirstWriteArray n => do
    let b ← s.buffer.commitFirstWriteArray c n
    pure (.done, { s with buffer := b, writeArray := none })
  | .read maxSize => do
    let (xs, b) ← s.buffer.read c maxSize
    pure (.bytes xs, { s with buffer := b, readArray := none })
  | .frontPop => do
    let x ← s.buffer.front
    let b ← s.buffer.pop c
    pure (.bytes [x], { s with buffer := b, readArray := none })
  | .firstReadArray => do
    let span := s.buffer.firstReadArray c
    let xs ← through s.buffer span
    pure (.bytes xs, { s with readArray := some span })
  | .look => do
    let span ← s.readArray.elim (.error .assertion) .ok
    let xs ← through s.buffer span
    pure (.bytes xs, s)
  | .commitFirstReadArray n => do
    let span ← s.readArray.elim (.error .assertion) .ok
    let xs ← through s.buffer { span with size := n }
    let b ← s.buffer.commitFirstReadArray c n
    pure (.bytes xs, { s with buffer := b, readArray := none })

end Sides

-- What the buffer is for: a queue that lends each side a part of itself.
structure Fifo (α : Type) where
  queue     : List α
  draft     : Option (List α)
  lent      : Option Nat
  accepted  : List α
  delivered : List α

namespace Fifo

def new : Fifo α where
  queue     := []
  draft     := none
  lent      := none
  accepted  := []
  delivered := []

def put (f : Fifo α) (xs : List α) : Fifo α :=
  { f with queue := f.queue ++ xs, draft := none, accepted := f.accepted ++ xs }

def get (f : Fifo α) (n : Nat) : Fifo α :=
  { f with queue := f.queue.drop n, lent := none, delivered := f.delivered ++ f.queue.take n }

-- `none` if it does not give the answer.
def step [DecidableEq α] (capacity : Nat) (f : Fifo α) : Action α → Answer α → Option (Fifo α)
  | .write input, .accepted n =>
    if n = min input.length (capacity - f.queue.length) then some (f.put (input.take n)) else none
  | .firstWriteArray, .bytes xs =>
    if xs.length ≤ capacity - f.queue.length ∧ (xs = [] ↔ f.queue.length = capacity) then
      some { f with draft := some xs }
    else
      none
  | .fill i x, .done =>
    f.draft.bind fun xs =>
      if i < xs.length then some { f with draft := some (xs.set i x) } else none
  | .commitFirstWriteArray n, .done =>
    f.draft.bind fun xs => if n.toNat ≤ xs.length then some (f.put (xs.take n.toNat)) else none
  | .read maxSize, .bytes xs =>
    if xs = f.queue.take maxSize.toNat then some (f.get maxSize.toNat) else none
  | .frontPop, .bytes xs =>
    if xs ≠ [] ∧ xs = f.queue.take 1 then some (f.get 1) else none
  | .firstReadArray, .bytes xs =>
    if xs = f.queue.take xs.length ∧ (xs = [] ↔ f.queue = []) then
      some { f with lent := some xs.length }
    else
      none
  | .look, .bytes xs =>
    f.lent.bind fun n => if xs.length = n ∧ xs = f.queue.take n then some f else none
  | .commitFirstReadArray n, .bytes xs =>
    f.lent.bind fun k =>
      if n.toNat ≤ k ∧ xs.length = n.toNat ∧ xs = f.queue.take n.toNat then
        some (f.get n.toNat)
      else
        none
  | _, _ => none

end Fifo

inductive Failure
  | fault (f : RingBufferFault)
  | differs

-- The buffer and the queue it stands for. A step fails when the buffer's answer is not the queue's.
def lockstep [DecidableEq α] (c : RingBufferConfig) : Machine (Sides α × Fifo α) (Action α) Failure where
  init    := fun (s, f) =>
    s.buffer.writeIdx = 0 ∧ s.buffer.readIdx = 0 ∧ s.buffer.data.size = c.maxSize.toNat ∧
      s.writeArray = none ∧ s.readArray = none ∧ f = Fifo.new
  enabled := fun (s, _) a => s.enabled a
  step    := fun (s, f) a =>
    match s.step c a with
    | .error e       => .error (.fault e)
    | .ok (ans, s') =>
      match f.step c.ringBufferSize a ans with
      | none    => .error .differs
      | some f' => .ok (s', f')

instance [DecidableEq α] {c : RingBufferConfig} (s : Sides α × Fifo α) (a : Action α) :
    Decidable ((lockstep c).enabled s a) :=
  inferInstanceAs (Decidable (s.fst.enabled a))

end Yogi.LockFreeRingBuffer
