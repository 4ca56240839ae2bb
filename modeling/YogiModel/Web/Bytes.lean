import Mathlib

-- Sequences of bytes as they are exchanged with a web client.
namespace Yogi.Web

abbrev Bytes := List UInt8

-- A string of a browser is a sequence of UTF-16 code units.
abbrev JsString := List UInt16

-- `String.fromCharCode.apply(null, bytes)`
def fromCharCode (bytes : Bytes) : JsString :=
  bytes.map UInt8.toUInt16

-- A string that survives being terminated with a zero.
structure HubString where
  bytes   : Bytes
  nulFree : 0 ∉ bytes
  deriving DecidableEq

namespace HubString

-- The text whose Latin-1 encoding the string is.
def text (s : HubString) : JsString :=
  fromCharCode s.bytes

-- `to_byte_array<std::string>`
def toByteArray (s : HubString) : Bytes :=
  s.bytes ++ [0]

theorem text_inj {s t : HubString} (h : s.text = t.text) : s = t := by
  have hi : Function.Injective UInt8.toUInt16 := by
    intro a b he
    have := congrArg UInt16.toNat he
    exact UInt8.toNat_inj.mp (by simpa using this)
  have hb := List.map_injective_iff.mpr hi h
  cases s
  cases t
  congr

end HubString

-- `to_byte_array<unsigned>`
def unsignedToByteArray (val : UInt32) : Bytes :=
  [val.toUInt8, (val >>> 8).toUInt8, (val >>> 16).toUInt8, (val >>> 24).toUInt8]

@[simp] theorem unsignedToByteArray_length {val} : (unsignedToByteArray val).length = 4 :=
  rfl

theorem idxOf?_lt {data : Bytes} {pos} (h : data.idxOf? 0 = some pos) : pos < data.length := by
  simp only [List.idxOf?, List.findIdx?_eq_some_iff_getElem] at h
  exact h.fst

-- The strings that end with a zero.
def zeroTerminated (data : Bytes) : List Bytes :=
  match h : data.idxOf? 0 with
  | none     => []
  | some pos => data.take pos :: zeroTerminated (data.drop (pos + 1))
termination_by data.length
decreasing_by
  have := idxOf?_lt h
  simp only [List.length_drop]
  omega

theorem zeroTerminated_nil : zeroTerminated [] = [] := by
  rw [zeroTerminated]
  simp

theorem HubString.idxOf?_toByteArray {s : HubString} {rest} :
    (s.toByteArray ++ rest).idxOf? 0 = some s.bytes.length := by
  obtain ⟨bytes, hn⟩ := s
  simp only [HubString.toByteArray]
  induction bytes
  case nil => simp [List.idxOf?_cons]
  case cons b bs ih =>
    simp only [List.mem_cons, not_or] at hn
    have hb : (b == 0) = false := by
      simp only [beq_eq_false_iff_ne]
      exact fun h => hn.left h.symm
    simpa [List.idxOf?_cons, hb] using ih hn.right

theorem zeroTerminated_toByteArray {s : HubString} {rest} :
    zeroTerminated (s.toByteArray ++ rest) = s.bytes :: zeroTerminated rest := by
  rw [zeroTerminated]
  split
  case h_1 h => cases HubString.idxOf?_toByteArray.symm.trans h
  case h_2 pos h =>
    cases HubString.idxOf?_toByteArray.symm.trans h
    simp [HubString.toByteArray]

-- A concatenation of strings decides which strings it was made of.
theorem zeroTerminated_flatMap {ss : List HubString} :
    zeroTerminated (ss.flatMap HubString.toByteArray) = ss.map HubString.bytes := by
  induction ss
  case nil            => exact zeroTerminated_nil
  case cons s ss ih =>
    rw [List.flatMap_cons, zeroTerminated_toByteArray, ih, List.map_cons]

end Yogi.Web
