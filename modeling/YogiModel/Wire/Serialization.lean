import YogiModel.Base.Codec
import YogiModel.Base.Register

namespace Yogi.Wire

abbrev Byte := UInt8

-- A `std::string` may hold any bytes.
structure Identifier where
  signature : Nat
  name      : List Byte
  hidden    : Bool
  deriving DecidableEq, Repr

-- Serialization of `std::size_t`

def sizeLength (value : Nat) : Nat :=
  1 + (if value ≥ 2 ^ 7 then 1 else 0) + (if value ≥ 2 ^ 14 then 1 else 0)
    + (if value ≥ 2 ^ 21 then 1 else 0) + (if value ≥ 2 ^ 28 then 1 else 0)

-- The byte for the group of seven bits with the number `i - 1`.
def sizeByte (value i : Nat) : Byte :=
  UInt8.ofNat (((value >>> ((i - 1) * 7)) &&& 0x7F) ||| (if i > 1 then 0x80 else 0))

def serializeSizeFrom (value : Nat) : Nat → List Byte
  | 0     => []
  | i + 1 => sizeByte value (i + 1) :: serializeSizeFrom value i

def serializeSize (value : Nat) : List Byte :=
  serializeSizeFrom value (sizeLength value)

-- The most significant bit tells that another byte follows.
def continues (byte : Byte) : Bool :=
  byte.toNat &&& 0x80 != 0

def deserializeSizeFrom : List Byte → Nat → Option Nat × List Byte
  | [],           _   => (none, [])
  | byte :: rest, tmp =>
    let tmp' := tmp ||| (byte.toNat &&& 0x7F)
    if continues byte then deserializeSizeFrom rest ((tmp' <<< 7) % 2 ^ 64) else (some tmp', rest)

-- The value is left alone, that is `none`, if the buffer ends before it does.
def deserializeSize (buffer : List Byte) : Option Nat × List Byte :=
  deserializeSizeFrom buffer 0

-- The function `can_deserialize_one<std::size_t>`.
def canDeserializeSize (buffer : List Byte) : Bool :=
  buffer.any (!continues ·)

-- Numbers of up to five groups of seven bits.
def sizeLimit : Nat := 2 ^ 35

theorem and_0x7F {n : Nat} : n &&& 0x7F = n % 128 :=
  Nat.and_two_pow_sub_one_eq_mod n 7

theorem sizeByte_toNat {value i : Nat} :
    (sizeByte value (i + 1)).toNat = value / 128 ^ i % 128 + (if i = 0 then 0 else 128) := by
  have hd : value >>> (i * 7) = value / 128 ^ i := by
    rw [Nat.shiftRight_eq_div_pow, Nat.mul_comm i 7, Nat.pow_mul]
  have hm := Nat.mod_lt (value / 128 ^ i) (show 0 < 128 by decide)
  simp only [sizeByte, Nat.add_sub_cancel, hd, and_0x7F]
  cases i
  case zero   =>
    simp
    omega
  case succ i =>
    have ho := Nat.two_pow_add_eq_or_of_lt (i := 7) hm 1
    simp only [Nat.succ_ne_zero, if_false, gt_iff_lt, Nat.lt_add_left_iff_pos, Nat.succ_pos, if_true]
    rw [Nat.or_comm, ← ho]
    simp
    omega

theorem continues_eq {byte : Byte} : continues byte = decide (128 ≤ byte.toNat) := by
  have h : ∀ n : Fin 256, (n.val &&& 0x80 != 0) = decide (128 ≤ n.val) := by decide +kernel
  exact h ⟨byte.toNat, byte.toNat_lt⟩

theorem continues_sizeByte {value i : Nat} :
    continues (sizeByte value (i + 1)) = decide (i ≠ 0) := by
  have hm := Nat.mod_lt (value / 128 ^ i) (show 0 < 128 by decide)
  rw [continues_eq, sizeByte_toNat]
  by_cases h : i = 0
  · simp [h, Nat.mod_lt]
  · simp [h]

theorem sizeByte_and_0x7F {value i : Nat} :
    (sizeByte value (i + 1)).toNat &&& 0x7F = value / 128 ^ i % 128 := by
  rw [and_0x7F, sizeByte_toNat]
  split <;> omega

theorem shiftLeft_or {m n : Nat} (h : n < 128) : m * 128 ||| n = m * 128 + n := by
  have := Nat.two_pow_add_eq_or_of_lt (i := 7) h m
  rw [Nat.mul_comm m, ← this]

-- The groups of the value before the last `i` ones have been read already.
theorem deserializeSizeFrom_serializeSizeFrom {value i rest} (h : value < sizeLimit) :
    deserializeSizeFrom (serializeSizeFrom value (i + 1) ++ rest) (value / 128 ^ (i + 1) * 128) =
      (some value, rest) := by
  have hm {j} := Nat.mod_lt (value / 128 ^ j) (show 0 < 128 by decide)
  have hd {j} : value / 128 ^ (j + 1) * 128 + value / 128 ^ j % 128 = value / 128 ^ j := by
    rw [Nat.pow_succ, ← Nat.div_div_eq_div_mul]
    omega
  induction i
  case zero =>
    simp only [serializeSizeFrom, List.cons_append, List.nil_append, deserializeSizeFrom,
      continues_sizeByte, sizeByte_and_0x7F, shiftLeft_or hm, hd]
    simp
  case succ i ih =>
    have hl : value / 128 ^ (i + 1) * 128 < 2 ^ 64 := by
      have := Nat.div_le_self value (128 ^ (i + 1))
      simp only [sizeLimit] at h
      omega
    rw [serializeSizeFrom, List.cons_append, deserializeSizeFrom]
    simp only [continues_sizeByte, sizeByte_and_0x7F, shiftLeft_or hm, hd, Nat.shiftLeft_eq,
      Nat.mod_eq_of_lt hl, ih]
    simp

theorem exists_sizeLength_eq {n} : ∃ i, sizeLength n = i + 1 :=
  ⟨sizeLength n - 1, by simp only [sizeLength]; omega⟩

theorem lt_pow_sizeLength {value} (h : value < sizeLimit) : value < 128 ^ sizeLength value := by
  simp only [sizeLimit] at h
  simp only [sizeLength]
  repeat' split
  all_goals omega

theorem deserializeSize_serializeSize {value rest} (h : value < sizeLimit) :
    deserializeSize (serializeSize value ++ rest) = (some value, rest) := by
  obtain ⟨i, hi⟩ := exists_sizeLength_eq (n := value)
  have hp := lt_pow_sizeLength h
  rw [hi] at hp
  have hz : value / 128 ^ (i + 1) * 128 = 0 := by rw [Nat.div_eq_of_lt hp, Nat.zero_mul]
  rw [deserializeSize, serializeSize, hi, ← hz]
  exact deserializeSizeFrom_serializeSizeFrom h

theorem serializeSizeFrom_length {value i} : (serializeSizeFrom value i).length = i := by
  induction i
  case zero      => rfl
  case succ i ih => rw [serializeSizeFrom, List.length_cons, ih]

theorem serializeSize_length {n} : (serializeSize n).length = sizeLength n :=
  serializeSizeFrom_length

-- All bytes of a size but the last one announce another byte.
theorem serializeSizeFrom_eq {value i} : ∃ init last, serializeSizeFrom value (i + 1) = init ++ [last] ∧
    (∀ b ∈ init, continues b = true) ∧ continues last = false := by
  induction i
  case zero => exact ⟨[], _, rfl, by simp, by simp [continues_sizeByte]⟩
  case succ i ih =>
    obtain ⟨init, last, hs, hi, hl⟩ := ih
    refine ⟨sizeByte value (i + 2) :: init, last, by rw [serializeSizeFrom, hs]; rfl, ?_, hl⟩
    simp only [List.mem_cons, forall_eq_or_imp]
    exact ⟨by simp [continues_sizeByte], hi⟩

theorem serializeSize_eq {v} : ∃ init last, serializeSize v = init ++ [last] ∧
    (∀ b ∈ init, continues b = true) ∧ continues last = false := by
  obtain ⟨i, hi⟩ := exists_sizeLength_eq (n := v)
  rw [serializeSize, hi]
  exact serializeSizeFrom_eq

-- Serialization of the other types

def serializeBool (value : Bool) : List Byte :=
  [if value then 1 else 0]

def deserializeBool : Reader Byte Bool
  | []           => none
  | byte :: rest => some (byte != 0, rest)

def serializeId (value : Id) : List Byte :=
  serializeSize value

-- The constructor of `Id` asserts that the number is not zero.
def deserializeId : Reader Byte Id :=
  fun buffer =>
    let (number, rest) := deserializeSize buffer
    if number.getD 0 = 0 then none else some (number.getD 0, rest)

def serializeIdentifier (value : Identifier) : List Byte :=
  serializeSize value.signature ++ serializeBool value.hidden ++ serializeSize value.name.length
    ++ value.name

-- A number that has no initial value.
def deserializeUninitialized : Reader Byte Nat :=
  fun buffer =>
    match deserializeSize buffer with
    | (some n, rest) => some (n, rest)
    | (none, _)      => none

def deserializeSignature : Reader Byte Nat :=
  fun buffer =>
    let (signature, rest) := deserializeSize buffer
    some (signature.getD 0, rest)

def deserializeIdentifier : Reader Byte Identifier :=
  deserializeSignature.bind fun signature =>
  deserializeBool.bind fun hidden =>
  deserializeUninitialized.bind fun nameSize =>
  (Reader.take nameSize).bind fun name =>
  Reader.pure { signature, name, hidden }

def serializeBuffer (value : List Byte) : List Byte :=
  serializeSize value.length ++ value

def deserializeBuffer : Reader Byte (List Byte) :=
  deserializeUninitialized.bind fun size => Reader.take size

-- `none` where the assertion fails.
def serializeGatherFlags (value : Nat) : Option (List Byte) :=
  if value ≤ 127 then some [UInt8.ofNat value] else none

-- A `char` is taken to be unsigned.
def deserializeGatherFlags : Reader Byte Nat
  | []           => none
  | byte :: rest => some (byte.toNat, rest)

theorem deserializeUninitialized_reads {n} (h : n < sizeLimit) :
    deserializeUninitialized.Reads (serializeSize n) n := by
  intro rest
  simp [deserializeUninitialized, deserializeSize_serializeSize h]

theorem deserializeSignature_reads {n} (h : n < sizeLimit) :
    deserializeSignature.Reads (serializeSize n) n := by
  intro rest
  simp [deserializeSignature, deserializeSize_serializeSize h]

theorem deserializeBool_reads {b} : deserializeBool.Reads (serializeBool b) b := by
  intro rest
  cases b <;> rfl

theorem deserializeId_reads {id} (h₀ : id ≠ 0) (h : id < sizeLimit) :
    deserializeId.Reads (serializeId id) id := by
  intro rest
  simp [deserializeId, serializeId, deserializeSize_serializeSize h, h₀]

theorem deserializeBuffer_reads {data} (h : data.length < sizeLimit) :
    deserializeBuffer.Reads (serializeBuffer data) data :=
  (deserializeUninitialized_reads h).bind .take

theorem deserializeIdentifier_reads {x : Identifier} (hs : x.signature < sizeLimit)
    (hn : x.name.length < sizeLimit) : deserializeIdentifier.Reads (serializeIdentifier x) x := by
  simp only [serializeIdentifier, List.append_assoc]
  apply (deserializeSignature_reads hs).bind
  apply deserializeBool_reads.bind
  apply (deserializeUninitialized_reads hn).bind
  exact Reader.Reads.take.map

theorem deserializeGatherFlags_reads {flags} (h : flags ≤ 127) :
    ∃ word, serializeGatherFlags flags = some word ∧ deserializeGatherFlags.Reads word flags := by
  refine ⟨_, if_pos h, ?_⟩
  intro rest
  have : flags < 256 := by omega
  simp [deserializeGatherFlags, this]

end Yogi.Wire
