import Mathlib
import YogiModel.Wire.Serialization

namespace Yogi.Wire

variable {value i j it : Nat} {bytes before after : List Byte}

-- `serialize_one<std::size_t>`
def serializeOneSize (buffer : List Byte) (value : UInt64) : List Byte :=
  buffer ++ serializeSize value.toNat

-- `deserialize_one<std::size_t>`: an iterator is its distance from the beginning of the buffer.
def deserializeOneSize (buffer : List Byte) (it value : Nat) : Nat × Nat :=
  let (tmp, rest) := deserializeSize (buffer.drop it)
  (buffer.length - rest.length, tmp.getD value)

-- `can_deserialize_one<std::size_t>`
def canDeserializeOneSize (buffer : List Byte) (start : Nat) : Bool :=
  canDeserializeSize (buffer.drop start)

-- The number that is made up of the groups of seven bits, of which the first is the most significant one.
def groupsValue (bytes : List Byte) : Nat :=
  Nat.ofDigits 128 (bytes.reverse.map fun b => b.toNat % 128)

structure GroupEncoding (bytes : List Byte) (value : Nat) : Prop where
  delimited : ∃ init last, bytes = init ++ [last] ∧ (∀ b ∈ init, continues b = true) ∧ continues last = false
  value     : groupsValue bytes = value

theorem groupsValue_cons {b : Byte} :
    groupsValue (b :: bytes) = groupsValue bytes + 128 ^ bytes.length * (b.toNat % 128) := by
  simp [groupsValue, Nat.ofDigits_append]

theorem groupsValue_lt : groupsValue bytes < 128 ^ bytes.length := by
  induction bytes
  case nil            => simp [groupsValue]
  case cons b bytes ih =>
    have hb := Nat.mod_lt b.toNat (show 0 < 128 by decide)
    rw [groupsValue_cons, List.length_cons, Nat.pow_succ]
    nlinarith

theorem groupsValue_serializeSizeFrom : groupsValue (serializeSizeFrom value i) = value % 128 ^ i := by
  induction i
  case zero      => simp [serializeSizeFrom, groupsValue, Nat.mod_one]
  case succ i ih =>
    have hd : (sizeByte value (i + 1)).toNat % 128 = value / 128 ^ i % 128 := by
      rw [← and_0x7F, sizeByte_and_0x7F]
    rw [serializeSizeFrom, groupsValue_cons, ih, serializeSizeFrom_length, hd, Nat.mod_pow_succ]

-- The groups after the fifth one are not written.
theorem serializeSizeFrom_mod (h : j ≤ 5) :
    serializeSizeFrom (value % sizeLimit) j = serializeSizeFrom value j := by
  induction j
  case zero      => rfl
  case succ j ih =>
    rw [serializeSizeFrom, serializeSizeFrom, ih (by omega)]
    congr 1
    rw [← UInt8.toNat_inj, sizeByte_toNat, sizeByte_toNat]
    congr 1
    obtain ⟨k, hk⟩ : ∃ k, sizeLimit = 128 ^ j * (128 * k) :=
      ⟨128 ^ (4 - j), by
        rw [← mul_assoc, ← pow_succ, ← pow_add, show j + 1 + (4 - j) = 5 by omega]
        rfl⟩
    rw [hk, Nat.mod_mul_right_div_self, Nat.mod_mul_right_mod]

theorem sizeLength_of_le (h : sizeLimit ≤ value) : sizeLength value = 5 := by
  simp only [sizeLimit] at h
  simp only [sizeLength]
  repeat' split
  all_goals omega

theorem sizeLength_bounds : 1 ≤ sizeLength value ∧ sizeLength value ≤ 5 := by
  simp only [sizeLength]
  repeat' split
  all_goals omega

theorem pow_le_of_sizeLength (h : sizeLength value = i + 2) : 128 ^ (i + 1) ≤ value := by
  have hi : i ≤ 3 := by
    have : sizeLength value ≤ 5 := sizeLength_bounds.right
    omega
  simp only [sizeLength] at h
  interval_cases i
  all_goals
    repeat' split at h
    all_goals omega

theorem deserializeSize_mod {rest} :
    deserializeSize (serializeSize value ++ rest) = (some (value % sizeLimit), rest) := by
  by_cases h : value < sizeLimit
  case pos => rw [Nat.mod_eq_of_lt h, deserializeSize_serializeSize h]
  case neg =>
    have hm : value % sizeLimit < sizeLimit := Nat.mod_lt _ (by decide)
    have hz : value % sizeLimit / 128 ^ 5 * 128 = 0 := by
      rw [Nat.div_eq_of_lt (show value % sizeLimit < 128 ^ 5 from hm), Nat.zero_mul]
    rw [deserializeSize, serializeSize, sizeLength_of_le (by omega), ← serializeSizeFrom_mod le_rfl, ← hz]
    exact deserializeSizeFrom_serializeSizeFrom hm

theorem deserializeOneSize_eq : deserializeOneSize (before ++ serializeSize value ++ after) before.length i =
    (before.length + (serializeSize value).length, value % sizeLimit) := by
  simp [deserializeOneSize, deserializeSize_mod]
  omega

theorem groupEncoding_serializeSize (h : value < sizeLimit) : GroupEncoding (serializeSize value) value where
  delimited := serializeSize_eq
  value     := by
    rw [serializeSize, groupsValue_serializeSizeFrom, Nat.mod_eq_of_lt (lt_pow_sizeLength h)]

theorem GroupEncoding.length_le (h : GroupEncoding bytes value) :
    (serializeSize value).length ≤ bytes.length := by
  rw [serializeSize_length]
  by_contra hl
  obtain ⟨init, last, he, _⟩ := h.delimited
  have hpos : 0 < bytes.length := by simp [he]
  obtain ⟨i, hi⟩ : ∃ i, sizeLength value = i + 2 := ⟨sizeLength value - 2, by omega⟩
  have hlt : value < 128 ^ bytes.length := h.value ▸ groupsValue_lt
  have hle : 128 ^ bytes.length ≤ 128 ^ (i + 1) := Nat.pow_le_pow_right (by decide) (by omega)
  exact absurd (pow_le_of_sizeLength hi) (by omega)

theorem byte_eq {b b' : Byte} (hc : continues b = continues b') (hm : b.toNat % 128 = b'.toNat % 128) :
    b = b' := by
  rw [continues_eq, continues_eq, decide_eq_decide] at hc
  rw [← UInt8.toNat_inj]
  have := b.toNat_lt
  have := b'.toNat_lt
  omega

theorem delimited_cons {b : Byte} (h : ∃ init last, b :: bytes = init ++ [last] ∧
    (∀ b ∈ init, continues b = true) ∧ continues last = false) :
    continues b = !bytes.isEmpty ∧ (bytes = [] ∨ ∃ init last, bytes = init ++ [last] ∧
      (∀ b ∈ init, continues b = true) ∧ continues last = false) := by
  obtain ⟨init, last, he, hi, hl⟩ := h
  cases init
  case nil =>
    cases he
    exact ⟨hl, .inl rfl⟩
  case cons c init =>
    cases he
    have hb : continues b = true := hi b (by simp)
    exact ⟨by cases init <;> simp [hb], .inr ⟨init, last, rfl, fun c hc => hi c (by simp [hc]), hl⟩⟩

theorem groupsValue_inj {bytes' : List Byte} (hlen : bytes.length = bytes'.length)
    (hd : bytes = [] ∨ ∃ init last, bytes = init ++ [last] ∧
      (∀ b ∈ init, continues b = true) ∧ continues last = false)
    (hd' : bytes' = [] ∨ ∃ init last, bytes' = init ++ [last] ∧
      (∀ b ∈ init, continues b = true) ∧ continues last = false)
    (h : groupsValue bytes = groupsValue bytes') : bytes = bytes' := by
  induction bytes generalizing bytes'
  case nil => simpa [eq_comm] using hlen
  case cons b bytes ih =>
    cases bytes'
    case nil => simp at hlen
    case cons b' bytes' =>
      simp only [List.length_cons, Nat.add_right_cancel_iff] at hlen
      obtain ⟨hc, ht⟩ := delimited_cons (hd.resolve_left (by simp))
      obtain ⟨hc', ht'⟩ := delimited_cons (hd'.resolve_left (by simp))
      rw [groupsValue_cons, groupsValue_cons, ← hlen] at h
      have hlt : groupsValue bytes < 128 ^ bytes.length := groupsValue_lt
      have hlt' : groupsValue bytes' < 128 ^ bytes.length := hlen ▸ groupsValue_lt
      have hm := congrArg (· % 128 ^ bytes.length) h
      simp only [Nat.add_mul_mod_self_left, Nat.mod_eq_of_lt hlt, Nat.mod_eq_of_lt hlt'] at hm
      rw [hm, Nat.add_left_cancel_iff] at h
      have hb := Nat.eq_of_mul_eq_mul_left (Nat.pow_pos (by decide)) h
      obtain rfl := ih hlen ht ht' hm
      rw [byte_eq (hc.trans hc'.symm) hb]

-- A prefix is complete if it has the last byte, the only one after which none follows.
theorem canDeserializeSize_initial {p : List Byte} (h : p <+: serializeSize value) :
    canDeserializeSize p = true ↔ p = serializeSize value := by
  obtain ⟨init, last, he, hi, hl⟩ : ∃ init last, serializeSize value = init ++ [last] ∧ _ :=
    serializeSize_eq
  rw [he] at h ⊢
  cases List.prefix_concat_iff.mp h
  case inl hp => simp [hp, canDeserializeSize, hl]
  case inr hp =>
    have hne : p ≠ init ++ [last] := by
      rintro rfl
      simpa using hp.length_le
    simpa [canDeserializeSize, hne] using fun b hb => hi b (hp.subset hb)

theorem serializeSize_prefix_free {w : Nat} (h : serializeSize value <+: serializeSize w) :
    serializeSize value = serializeSize w := by
  refine (canDeserializeSize_initial h).mp ?_
  exact (canDeserializeSize_initial List.prefix_rfl).mpr rfl

theorem varint_codec (v : UInt64) : ∃ bytes, bytes = serializeSize v.toNat ∧
    (∀ buffer, serializeOneSize buffer v = buffer ++ bytes) ∧
    1 ≤ bytes.length ∧ bytes.length ≤ 5 ∧
    (∀ before after value, deserializeOneSize (before ++ bytes ++ after) before.length value =
      (before.length + bytes.length, v.toNat % 2 ^ 35)) ∧
    (v.toNat < 2 ^ 35 →
      (∀ before after value, deserializeOneSize (before ++ bytes ++ after) before.length value =
        (before.length + bytes.length, v.toNat)) ∧
      GroupEncoding bytes v.toNat ∧ ∀ bytes', GroupEncoding bytes' v.toNat → bytes' ≠ bytes →
        bytes.length < bytes'.length) ∧
    (∀ before p, p <+: bytes → (canDeserializeOneSize (before ++ p) before.length = true ↔ p = bytes)) ∧
    ∀ w : UInt64, bytes <+: serializeOneSize [] w → bytes = serializeOneSize [] w := by
  have hb : 1 ≤ sizeLength v.toNat ∧ sizeLength v.toNat ≤ 5 := sizeLength_bounds
  refine ⟨_, rfl, fun _ => rfl, ?_, ?_, fun _ _ _ => deserializeOneSize_eq, fun h => ⟨fun _ _ _ => ?_, ?_, ?_⟩,
    fun before p hp => ?_, fun w hw => ?_⟩
  case refine_1 => exact serializeSize_length ▸ hb.left
  case refine_2 => exact serializeSize_length ▸ hb.right
  case refine_3 => rw [deserializeOneSize_eq, Nat.mod_eq_of_lt (show v.toNat < sizeLimit from h)]
  case refine_4 => exact groupEncoding_serializeSize h
  case refine_5 =>
    intro bytes' h' hne
    refine lt_of_le_of_ne h'.length_le fun hlen => hne ?_
    have h := groupEncoding_serializeSize (show v.toNat < sizeLimit from h)
    exact groupsValue_inj hlen.symm (.inr h'.delimited) (.inr h.delimited) (h'.value.trans h.value.symm)
  case refine_6 =>
    simp only [canDeserializeOneSize, List.drop_left]
    exact canDeserializeSize_initial hp
  case refine_7 => exact serializeSize_prefix_free hw

end Yogi.Wire
