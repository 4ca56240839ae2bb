import YogiModel.Base.Machine
import YogiModel.Base.Except
import YogiModel.Base.RingBuffer

namespace Yogi

abbrev SizeT := BitVec 64

def SizeT.min (a b : SizeT) : SizeT :=
  if b < a then b else a

-- `YOGI_RING_BUFFER_SIZE`. The indexes are added up before they wrap around.
structure RingBufferConfig where
  ringBufferSize : Nat
  fits           : 2 * (ringBufferSize + 1) ≤ 2 ^ 64

namespace RingBufferConfig

variable {c : RingBufferConfig}

def maxSize (c : RingBufferConfig) : SizeT :=
  BitVec.ofNat 64 (c.ringBufferSize + 1)

-- The value in config.h.
def default : RingBufferConfig where
  ringBufferSize := 64 * 1024 - 1
  fits           := by decide

@[simp] theorem maxSize_toNat : c.maxSize.toNat = c.ringBufferSize + 1 := by
  have := c.fits
  rw [maxSize, BitVec.toNat_ofNat]
  exact Nat.mod_eq_of_lt (by omega)

end RingBufferConfig

-- The ways in which the code can go wrong.
inductive RingBufferFault
  | assertion
  | outOfBounds
  deriving DecidableEq

-- A part of the array that is handed out to one of the two sides.
structure BufferSpan where
  first : SizeT
  size  : SizeT
  deriving DecidableEq

structure LockFreeRingBuffer (α : Type) where
  writeIdx : SizeT
  readIdx  : SizeT
  data     : Array α

namespace LockFreeRingBuffer

variable {α : Type} {c : RingBufferConfig}

def load (data : Array α) (idx : Nat) : Except RingBufferFault α :=
  match data[idx]? with
  | some x => .ok x
  | none   => .error .outOfBounds

def store (data : Array α) (idx : Nat) (x : α) : Except RingBufferFault (Array α) :=
  if h : idx < data.size then .ok (data.set idx x) else .error .outOfBounds

-- The two directions of `std::copy`.
def copyFrom (data : Array α) (first : Nat) : Nat → Except RingBufferFault (List α)
  | 0     => .ok []
  | n + 1 => do
    let x ← load data first
    let xs ← copyFrom data (first + 1) n
    pure (x :: xs)

def copyTo (data : Array α) (first : Nat) : List α → Except RingBufferFault (Array α)
  | []      => .ok data
  | x :: xs => do
    let data ← store data first x
    copyTo data (first + 1) xs

def readAvailable (c : RingBufferConfig) (writeIdx readIdx : SizeT) : SizeT :=
  if writeIdx ≥ readIdx then writeIdx - readIdx else writeIdx + c.maxSize - readIdx

def writeAvailable (c : RingBufferConfig) (writeIdx readIdx : SizeT) : SizeT :=
  let n := readIdx - writeIdx - 1
  if writeIdx ≥ readIdx then n + c.maxSize else n

def nextIndex (c : RingBufferConfig) (idx : SizeT) : SizeT :=
  let idx := idx + 1
  if idx ≥ c.maxSize then idx - c.maxSize else idx

def empty (b : LockFreeRingBuffer α) : Bool :=
  b.writeIdx == b.readIdx

def full (c : RingBufferConfig) (b : LockFreeRingBuffer α) : Bool :=
  writeAvailable c b.writeIdx b.readIdx == 0

def front (b : LockFreeRingBuffer α) : Except RingBufferFault α :=
  load b.data b.readIdx.toNat

def pop (c : RingBufferConfig) (b : LockFreeRingBuffer α) :
    Except RingBufferFault (LockFreeRingBuffer α) :=
  if b.empty then .error .assertion else .ok { b with readIdx := nextIndex c b.readIdx }

def read (c : RingBufferConfig) (b : LockFreeRingBuffer α) (maxSize : SizeT) :
    Except RingBufferFault (List α × LockFreeRingBuffer α) :=
  let avail := readAvailable c b.writeIdx b.readIdx
  if avail = 0 then
    .ok ([], b)
  else
    let maxSize := maxSize.min avail
    let newRi := b.readIdx + maxSize
    if newRi > c.maxSize then do
      let count0 := c.maxSize - b.readIdx
      let count1 := maxSize - count0
      let xs ← copyFrom b.data b.readIdx.toNat (c.maxSize.toNat - b.readIdx.toNat)
      let ys ← copyFrom b.data 0 count1.toNat
      pure (xs ++ ys, { b with readIdx := newRi - c.maxSize })
    else do
      let xs ← copyFrom b.data b.readIdx.toNat maxSize.toNat
      pure (xs, { b with readIdx := if newRi = c.maxSize then 0 else newRi })

def firstReadArray (c : RingBufferConfig) (b : LockFreeRingBuffer α) : BufferSpan where
  first := b.readIdx
  size  := if b.writeIdx < b.readIdx then c.maxSize - b.readIdx else b.writeIdx - b.readIdx

def commitFirstReadArray (c : RingBufferConfig) (b : LockFreeRingBuffer α) (n : SizeT) :
    Except RingBufferFault (LockFreeRingBuffer α) :=
  if n ≤ (b.firstReadArray c).size then
    let ri := b.readIdx + n
    .ok { b with readIdx := if ri = c.maxSize then 0 else ri }
  else
    .error .assertion

-- Returns how much of the input has been written.
def write (c : RingBufferConfig) (b : LockFreeRingBuffer α) (input : List α) :
    Except RingBufferFault (Nat × LockFreeRingBuffer α) :=
  let avail := writeAvailable c b.writeIdx b.readIdx
  if avail = 0 then
    .ok (0, b)
  else
    let inputCnt := BitVec.ofNat 64 (min input.length avail.toNat)
    let newWi := b.writeIdx + inputCnt
    if newWi > c.maxSize then do
      let count0 := c.maxSize - b.writeIdx
      let data ← copyTo b.data b.writeIdx.toNat (input.take count0.toNat)
      let data ← copyTo data 0 ((input.take inputCnt.toNat).drop count0.toNat)
      pure (inputCnt.toNat, { b with writeIdx := newWi - c.maxSize, data := data })
    else do
      let data ← copyTo b.data b.writeIdx.toNat (input.take inputCnt.toNat)
      pure (inputCnt.toNat,
        { b with writeIdx := if newWi = c.maxSize then 0 else newWi, data := data })

def firstWriteArray (c : RingBufferConfig) (b : LockFreeRingBuffer α) : BufferSpan where
  first := b.writeIdx
  size  :=
    if b.writeIdx < b.readIdx then
      b.readIdx - b.writeIdx - 1
    else
      c.maxSize - b.writeIdx - (if b.readIdx = 0 then 1 else 0)

def commitFirstWriteArray (c : RingBufferConfig) (b : LockFreeRingBuffer α) (n : SizeT) :
    Except RingBufferFault (LockFreeRingBuffer α) :=
  if n ≤ (b.firstWriteArray c).size then
    let wi := b.writeIdx + n
    .ok { b with writeIdx := if wi ≥ c.maxSize then wi - c.maxSize else wi }
  else
    .error .assertion

end LockFreeRingBuffer

end Yogi
