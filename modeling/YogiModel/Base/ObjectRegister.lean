import Mathlib

namespace Yogi

-- The class `ObjectRegister`: a table of objects the free slots of which are used again.
structure ObjectRegister (α : Type) where
  lut        : List α
  freeIds    : List Nat
  free_valid : ∀ i ∈ freeIds, 0 < i ∧ i ≤ lut.length
  free_nodup : freeIds.Nodup

namespace ObjectRegister

variable {α : Type}

def empty : ObjectRegister α where
  lut        := []
  freeIds    := []
  free_valid := by simp
  free_nodup := List.nodup_nil

instance : Inhabited (ObjectRegister α) := ⟨empty⟩

def get? (r : ObjectRegister α) (i : Nat) : Option α :=
  if i = 0 ∨ i ∈ r.freeIds then none else r.lut[i - 1]?

-- Returns the ID of the inserted object.
def insert (r : ObjectRegister α) (d : α) : ObjectRegister α × Nat :=
  match h : r.freeIds with
  | [] =>
    ({ lut        := r.lut ++ [d]
       freeIds    := []
       free_valid := by simp
       free_nodup := List.nodup_nil }, r.lut.length + 1)
  | i :: is =>
    ({ lut        := r.lut.set (i - 1) d
       freeIds    := is
       free_valid := by
         intro j hj
         rw [List.length_set]
         exact r.free_valid j (by simp [h, hj])
       free_nodup := (List.nodup_cons.mp (h ▸ r.free_nodup)).right }, i)

def set (r : ObjectRegister α) (i : Nat) (d : α) : ObjectRegister α :=
  { r with
    lut        := if i = 0 then r.lut else r.lut.set (i - 1) d
    free_valid := by
      intro j hj
      have := r.free_valid j hj
      split <;> simpa using this }

-- The slot of an object keeps its content until it is used again.
def erase (r : ObjectRegister α) (i : Nat) : ObjectRegister α :=
  if h : i ≠ 0 ∧ i ∉ r.freeIds ∧ i ≤ r.lut.length then
    { r with
      freeIds    := i :: r.freeIds
      free_valid := by
        intro j hj
        cases List.mem_cons.mp hj
        case inl hj => exact hj ▸ ⟨Nat.pos_of_ne_zero h.left, h.right.right⟩
        case inr hj => exact r.free_valid j hj
      free_nodup := List.nodup_cons.mpr ⟨h.right.left, r.free_nodup⟩ }
  else
    r

variable {r : ObjectRegister α} {i j : Nat} {d : α}

@[simp] theorem get?_empty : (empty : ObjectRegister α).get? i = none := by
  simp [get?, empty]

theorem insert_of_nil (h : r.freeIds = []) :
    (r.insert d).1.lut = r.lut ++ [d] ∧ (r.insert d).1.freeIds = [] ∧
    (r.insert d).2 = r.lut.length + 1 := by
  simp only [insert]
  split <;> simp_all

theorem insert_of_cons {is : List Nat} (h : r.freeIds = i :: is) :
    (r.insert d).1.lut = r.lut.set (i - 1) d ∧ (r.insert d).1.freeIds = is ∧
    (r.insert d).2 = i := by
  simp only [insert]
  split <;> simp_all

theorem insert_ne_zero : (r.insert d).2 ≠ 0 := by
  cases h : r.freeIds
  case nil       => simp [insert_of_nil h]
  case cons i is =>
    have := (r.free_valid i (by simp [h])).left
    rw [(insert_of_cons h).right.right]
    omega

theorem get?_insert_self : r.get? (r.insert d).2 = none := by
  cases h : r.freeIds
  case nil       => simp [get?, insert_of_nil h]
  case cons i is => simp [get?, insert_of_cons h, h]

theorem get?_insert : (r.insert d).1.get? j = if j = (r.insert d).2 then some d else r.get? j := by
  cases h : r.freeIds
  case nil =>
    obtain ⟨hl, hf, hi⟩ := insert_of_nil (d := d) h
    simp only [get?, hl, hf, hi, h, List.not_mem_nil, or_false]
    cases Decidable.em (j = 0) <;> cases Decidable.em (j = r.lut.length + 1) <;> simp_all
    case inr.inr => rw [List.getElem?_append]; split <;> simp_all; omega
  case cons i is =>
    obtain ⟨hl, hf, hi⟩ := insert_of_cons (d := d) h
    have hv := r.free_valid i (by simp [h])
    have hn := (List.nodup_cons.mp (h ▸ r.free_nodup)).left
    simp only [get?, hl, hf, hi, h, List.mem_cons]
    cases Decidable.em (j = i)
    case inl hj =>
      have hlt : i - 1 < r.lut.length := by omega
      have h0 : i ≠ 0 := by omega
      simp [hj, hn, h0, hlt]
    case inr hj =>
      simp only [hj, false_or, if_false]
      split
      case isTrue  => rfl
      case isFalse h0 =>
        have : i - 1 ≠ j - 1 := by omega
        rw [List.getElem?_set_ne this]

theorem get?_set : (r.set i d).get? j = if j = i then (r.get? j).map fun _ => d else r.get? j := by
  simp only [get?, set]
  cases Decidable.em (j = 0 ∨ j ∈ r.freeIds)
  case inl hj => simp [hj]
  case inr hj =>
    simp only [hj, if_false]
    cases Decidable.em (j = i)
    case inl hi =>
      have h0 : i ≠ 0 := fun h => hj (.inl (hi.trans h))
      simp only [hi, h0, if_false, if_true, List.getElem?_set_self']
      rfl
    case inr hi =>
      simp only [hi, if_false]
      split
      case isTrue  => rfl
      case isFalse h0 =>
        have : i - 1 ≠ j - 1 := by omega
        rw [List.getElem?_set_ne this]

theorem get?_erase : (r.erase i).get? j = if j = i then none else r.get? j := by
  simp only [get?, erase]
  split
  case isTrue h =>
    simp only [List.mem_cons]
    cases Decidable.em (j = i) <;> simp [*]
  case isFalse h =>
    cases Decidable.em (j = i)
    case inl hj =>
      simp only [hj, if_true, ite_eq_left_iff, not_or]
      rintro ⟨h0, hf⟩
      have : r.lut.length < i := by
        have := mt (fun hle => ⟨h0, hf, hle⟩) h
        omega
      exact List.getElem?_eq_none (by omega)
    case inr hj => simp [hj]

end ObjectRegister
end Yogi
