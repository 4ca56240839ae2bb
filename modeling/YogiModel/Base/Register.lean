import Mathlib

namespace Yogi

-- IDs are numbers; `0` is the invalid ID and a register hands out the IDs `1, 2, ...`.
abbrev Id := Nat

structure Identifier where
  signature : Nat
  name      : String
  hidden    : Bool
  deriving DecidableEq, Repr

structure Element (α : Type) where
  identifier : Identifier
  id         : Id
  hidden     : Bool
  data       : α

def Element.modify {α : Type} (f : α → α) (e : Element α) : Element α :=
  { e with data := f e.data }

@[simp] theorem Element.modify_id {α : Type} {f : α → α} {e : Element α} :
    (e.modify f).id = e.id := rfl

@[simp] theorem Element.modify_identifier {α : Type} {f : α → α} {e : Element α} :
    (e.modify f).identifier = e.identifier := rfl

@[simp] theorem Element.modify_hidden {α : Type} {f : α → α} {e : Element α} :
    (e.modify f).hidden = e.hidden := rfl

@[simp] theorem Element.modify_data {α : Type} {f : α → α} {e : Element α} :
    (e.modify f).data = f e.data := rfl

@[simp] theorem Element.modify_comp {α : Type} {f g : α → α} :
    Element.modify f ∘ Element.modify g = Element.modify (f ∘ g) := rfl

-- The class `IdentifiedObjectRegister`: `lut i` is slot `i - 1` of the lookup table, which has `size`
-- slots, `freeIds` is the stack of the IDs whose slots are empty and `map` finds the elements that
-- are not hidden.
structure Register (α : Type) where
  map        : Identifier → Option Id
  lut        : Id → Option (Element α)
  size       : Nat
  freeIds    : List Id
  lut_id     : ∀ {i e}, lut i = some e → e.id = i ∧ i ≠ 0 ∧ i ≤ size
  free_iff   : ∀ {i}, i ∈ freeIds ↔ i ≠ 0 ∧ i ≤ size ∧ lut i = none
  free_nodup : freeIds.Nodup
  map_iff    : ∀ {x i}, map x = some i ↔ ∃ e, lut i = some e ∧ e.identifier = x ∧ e.hidden = false

namespace Register

variable {α : Type}

def empty : Register α where
  map        := fun _ => none
  lut        := fun _ => none
  size       := 0
  freeIds    := []
  lut_id     := by simp
  free_iff   := by simp
  free_nodup := by simp
  map_iff    := by simp

instance : Inhabited (Register α) := ⟨empty⟩

-- The overload `find(const id_type&)`.
def get? (r : Register α) (i : Id) : Option (Element α) :=
  r.lut i

-- The overload `find(const identifier_type&)`.
def find? (r : Register α) (x : Identifier) : Option (Element α) :=
  r.map x >>= r.get?

-- All IDs in use in the order of iteration, those of hidden elements included.
def ids (r : Register α) : List Id :=
  (List.range' 1 r.size).filter fun i => (r.get? i).isSome

def elements (r : Register α) : List (Element α) :=
  r.ids.filterMap r.get?

@[simp] theorem get?_empty {i} : (empty : Register α).get? i = none := rfl

theorem get?_id {r : Register α} {i e} (h : r.get? i = some e) : e.id = i :=
  (r.lut_id h).left

theorem get?_ne_zero {r : Register α} {i e} (h : r.get? i = some e) : i ≠ 0 :=
  (r.lut_id h).right.left

theorem find?_eq_some_iff {r : Register α} {x e} :
    r.find? x = some e ↔ r.get? e.id = some e ∧ e.identifier = x ∧ e.hidden = false := by
  simp only [find?, Option.bind_eq_bind, Option.bind_eq_some_iff, r.map_iff]
  constructor
  · rintro ⟨i, ⟨e', hg', h⟩, hg⟩
    cases hg.symm.trans hg'
    exact ⟨get?_id hg ▸ hg, h⟩
  · rintro ⟨hg, h⟩
    exact ⟨e.id, ⟨e, hg, h⟩, hg⟩

theorem find?_of_get? {r : Register α} {i e} (h : r.get? i = some e) (hh : e.hidden = false) :
    r.find? e.identifier = some e :=
  find?_eq_some_iff.mpr ⟨get?_id h ▸ h, rfl, hh⟩

-- There is at most one element per identifier that is not hidden.
theorem visible_unique {r : Register α} {i j d e} (hi : r.get? i = some d)
    (hj : r.get? j = some e) (hx : d.identifier = e.identifier) (hd : d.hidden = false)
    (he : e.hidden = false) : i = j := by
  have h₁ := r.map_iff.mpr ⟨d, hi, rfl, hd⟩
  have h₂ := r.map_iff.mpr ⟨e, hj, hx.symm, he⟩
  exact Option.some.inj (h₁.symm.trans h₂)

theorem find?_eq_none_iff {r : Register α} {x} :
    r.find? x = none ↔ ∀ i e, r.get? i = some e → e.identifier = x → e.hidden = true := by
  constructor
  · intro h i e hg hx
    by_contra hh
    have he := find?_of_get? hg (Bool.not_eq_true _ ▸ hh)
    simp [hx, h] at he
  · intro h
    by_contra hn
    obtain ⟨e, he⟩ := Option.ne_none_iff_exists'.mp hn
    obtain ⟨hg, hx, hh⟩ := find?_eq_some_iff.mp he
    simp [h _ _ hg hx] at hh

theorem mem_ids_iff {r : Register α} {i} : i ∈ r.ids ↔ ∃ e, r.get? i = some e := by
  simp only [ids, List.mem_filter, List.mem_range'_1, Option.isSome_iff_exists]
  constructor
  · exact fun h => h.right
  · rintro ⟨e, h⟩
    obtain ⟨_, h₀, hs⟩ := r.lut_id h
    refine ⟨⟨?_, ?_⟩, e, h⟩
    · exact Nat.one_le_iff_ne_zero.mpr h₀
    · exact Nat.lt_one_add_iff.mpr hs

theorem ids_nodup {r : Register α} : r.ids.Nodup :=
  (List.nodup_range' (n := r.size)).filter _

theorem mem_elements_iff {r : Register α} {e} : e ∈ r.elements ↔ r.get? e.id = some e := by
  simp only [elements, List.mem_filterMap, mem_ids_iff]
  constructor
  · rintro ⟨i, _, h⟩
    exact get?_id h ▸ h
  · intro h
    exact ⟨e.id, ⟨e, h⟩, h⟩

theorem elements_nodup {r : Register α} : (r.elements.map (·.id)).Nodup := by
  have h : r.elements.map (·.id) = r.ids := by
    have hi : ∀ i ∈ r.ids, (r.get? i).map (·.id) = some i := by
      intro i hi
      obtain ⟨e, he⟩ := mem_ids_iff.mp hi
      simp [he, get?_id he]
    rw [elements, List.map_filterMap, List.filterMap_congr hi, List.filterMap_some]
  exact h ▸ ids_nodup

theorem elements_identifier_nodup {r : Register α} (h : ∀ e ∈ r.elements, e.hidden = false) :
    (r.elements.map (·.identifier)).Nodup := by
  refine List.Nodup.map_on (fun d hd e he hx => ?_) (List.Nodup.of_map _ elements_nodup)
  have hd' := mem_elements_iff.mp hd
  have he' := mem_elements_iff.mp he
  have hi := visible_unique hd' he' hx (h _ hd) (h _ he)
  exact Option.some.inj (hd'.symm.trans (hi ▸ he'))

-- `insert` first makes sure that there is a free ID, even if the identifier is already taken.
def grow (r : Register α) : Register α :=
  if hf : r.freeIds = [] then
    have hl : r.lut (r.size + 1) = none := by
      by_contra hn
      obtain ⟨e, he⟩ := Option.ne_none_iff_exists'.mp hn
      exact Nat.not_succ_le_self _ (r.lut_id he).right.right
    { map        := r.map
      lut        := r.lut
      size       := r.size + 1
      freeIds    := [r.size + 1]
      lut_id     := fun h => ⟨(r.lut_id h).left, (r.lut_id h).right.left,
                      Nat.le_succ_of_le (r.lut_id h).right.right⟩
      free_iff   := by
        intro i
        have hi := r.free_iff (i := i)
        simp only [hf, List.not_mem_nil, false_iff, not_and] at hi
        simp only [List.mem_singleton]
        constructor
        · rintro rfl
          exact ⟨Nat.succ_ne_zero _, le_rfl, hl⟩
        · rintro ⟨h₀, hs, hn⟩
          rcases Nat.le_succ_iff.mp hs with hs | hs
          · exact absurd hn (hi h₀ hs)
          · exact hs
      free_nodup := List.nodup_singleton _
      map_iff    := r.map_iff }
  else r

theorem grow_freeIds_ne_nil {r : Register α} : r.grow.freeIds ≠ [] := by
  simp only [grow]
  split <;> simp_all

@[simp] theorem grow_map {r : Register α} : r.grow.map = r.map := by
  simp only [grow]
  split <;> rfl

@[simp] theorem grow_get? {r : Register α} {i} : r.grow.get? i = r.get? i := by
  simp only [grow]
  split <;> rfl

-- The part of `insert` that constructs the new element on the top ID of the stack of free IDs.
def construct (r : Register α) (x : Identifier) (d : α) (hx : r.map x = none)
    (hf : r.freeIds ≠ []) : Register α :=
  let i := r.freeIds.head hf
  have hi : i ≠ 0 ∧ i ≤ r.size ∧ r.lut i = none := r.free_iff.mp (r.freeIds.head_mem hf)
  { map        := Function.update r.map x (some i)
    lut        := Function.update r.lut i (some ⟨x, i, false, d⟩)
    size       := r.size
    freeIds    := r.freeIds.tail
    lut_id     := by
      intro j e h
      by_cases hj : j = i
      · subst hj
        simp only [Function.update_self, Option.some.injEq] at h
        exact ⟨by rw [← h], hi.left, hi.right.left⟩
      · rw [Function.update_of_ne hj] at h
        exact r.lut_id h
    free_iff   := by
      intro j
      have hc : r.freeIds.head hf :: r.freeIds.tail = r.freeIds := List.cons_head_tail hf
      have hn : i ∉ r.freeIds.tail := (List.nodup_cons.mp (hc ▸ r.free_nodup)).left
      by_cases hj : j = i
      · subst hj
        simp [hn]
      · rw [Function.update_of_ne hj, ← r.free_iff]
        conv_rhs => rw [← hc]
        exact ⟨List.mem_cons_of_mem _, fun h => (List.mem_cons.mp h).resolve_left hj⟩
    free_nodup := r.free_nodup.tail
    map_iff    := by
      intro y j
      by_cases hj : j = i
      · subst hj
        by_cases hy : y = x
        · simp [hy]
        · have hm : r.map y ≠ some i := by
            intro h
            obtain ⟨e, he, _⟩ := r.map_iff.mp h
            simp [hi.right.right] at he
          simp [hy, hm, Ne.symm hy]
      · rw [Function.update_of_ne hj]
        by_cases hy : y = x
        · subst hy
          simp only [Function.update_self, Option.some.injEq, ← r.map_iff, hx, reduceCtorEq,
            iff_false]
          exact fun h => hj h.symm
        · rw [Function.update_of_ne hy, r.map_iff] }

-- Returns the ID of the inserted or of the already existing element and whether there was an
-- insertion.
def insert (r : Register α) (x : Identifier) (d : α) : Register α × Id × Bool :=
  match hx : r.grow.map x with
  | some i => (r.grow, i, false)
  | none   => (r.grow.construct x d hx grow_freeIds_ne_nil,
               r.grow.freeIds.head grow_freeIds_ne_nil, true)

theorem insert_of_find?_some {r : Register α} {x d e} (h : r.find? x = some e) :
    (r.insert x d).2 = (e.id, false) ∧ ∀ j, (r.insert x d).1.get? j = r.get? j := by
  obtain ⟨hg, hx, hh⟩ := find?_eq_some_iff.mp h
  have hm : r.grow.map x = some e.id := by
    rw [grow_map]
    exact r.map_iff.mpr ⟨e, hg, hx, hh⟩
  simp only [insert]
  split <;> simp_all

theorem insert_eq_construct {r : Register α} {x d} (h : r.grow.map x = none) :
    r.insert x d = (r.grow.construct x d h grow_freeIds_ne_nil,
      r.grow.freeIds.head grow_freeIds_ne_nil, true) := by
  simp only [insert]
  split <;> simp_all

theorem insert_of_find?_none {r : Register α} {x d} (h : r.find? x = none) :
    (r.insert x d).2.2 = true ∧ (r.insert x d).2.1 ≠ 0 ∧ r.get? (r.insert x d).2.1 = none ∧
    ∀ j, (r.insert x d).1.get? j =
      if j = (r.insert x d).2.1 then some ⟨x, (r.insert x d).2.1, false, d⟩ else r.get? j := by
  have hm : r.grow.map x = none := by
    rw [grow_map]
    by_contra hn
    obtain ⟨i, hi⟩ := Option.ne_none_iff_exists'.mp hn
    obtain ⟨e, he, hx, hh⟩ := r.map_iff.mp hi
    have := find?_of_get? he hh
    simp [hx, h] at this
  have hf := r.grow.free_iff.mp (r.grow.freeIds.head_mem grow_freeIds_ne_nil)
  have hg : ∀ j, r.grow.lut j = r.get? j := fun j => grow_get?
  rw [insert_eq_construct hm]
  refine ⟨rfl, hf.left, hg _ ▸ hf.right.right, fun j => ?_⟩
  simp only [construct, get?, Function.update_apply, hg]

theorem insert_identifier {r : Register α} {x d e}
    (h : (r.insert x d).1.get? (r.insert x d).2.1 = some e) : e.identifier = x := by
  cases hf : r.find? x
  case some e' =>
    obtain ⟨hi, hg⟩ := insert_of_find?_some (d := d) hf
    obtain ⟨he, hx, _⟩ := find?_eq_some_iff.mp hf
    rw [hg, hi, he] at h
    exact Option.some.inj h ▸ hx
  case none =>
    rw [(insert_of_find?_none hf).right.right.right, if_pos rfl] at h
    exact Option.some.inj h ▸ rfl

def modify (r : Register α) (i : Id) (f : α → α) : Register α :=
  match h : r.lut i with
  | none   => r
  | some e =>
    { map        := r.map
      lut        := Function.update r.lut i (some (e.modify f))
      size       := r.size
      freeIds    := r.freeIds
      lut_id     := by
        intro j d hj
        by_cases hji : j = i
        · subst hji
          simp only [Function.update_self, Option.some.injEq] at hj
          rw [← hj]
          have he := r.lut_id h
          exact he
        · rw [Function.update_of_ne hji] at hj
          exact r.lut_id hj
      free_iff   := by
        intro j
        rw [r.free_iff]
        by_cases hji : j = i <;> simp [hji, h]
      free_nodup := r.free_nodup
      map_iff    := by
        intro x j
        rw [r.map_iff]
        by_cases hji : j = i <;> simp [hji, h] }

theorem get?_modify {r : Register α} {i j f} :
    (r.modify i f).get? j =
      if j = i then (r.get? j).map (Element.modify f) else r.get? j := by
  simp only [get?, modify]
  split
  · split <;> simp_all
  · by_cases hji : j = i <;> simp [*]

def hide (r : Register α) (i : Id) : Register α :=
  match h : r.lut i with
  | none   => r
  | some e =>
    { map        := if e.hidden then r.map else Function.update r.map e.identifier none
      lut        := Function.update r.lut i (some { e with hidden := true })
      size       := r.size
      freeIds    := r.freeIds
      lut_id     := by
        intro j d hj
        by_cases hji : j = i
        · subst hji
          simp only [Function.update_self, Option.some.injEq] at hj
          rw [← hj]
          have he := r.lut_id h
          exact he
        · rw [Function.update_of_ne hji] at hj
          exact r.lut_id hj
      free_iff   := by
        intro j
        rw [r.free_iff]
        by_cases hji : j = i <;> simp [hji, h]
      free_nodup := r.free_nodup
      map_iff    := by
        intro x j
        have hm := r.map_iff (x := x) (i := j)
        by_cases hx : e.hidden = false ∧ x = e.identifier
        · have hi := r.map_iff.mpr ⟨e, h, hx.right.symm, hx.left⟩
          simp only [hx.left, Bool.false_eq_true, if_false, hx.right, Function.update_self,
            reduceCtorEq, false_iff, not_exists, not_and]
          intro d hd hy hh
          by_cases hji : j = i
          · subst hji
            simp only [Function.update_self, Option.some.injEq] at hd
            simp [← hd] at hh
          · rw [Function.update_of_ne hji] at hd
            have := hm.mpr ⟨d, hd, hy.trans hx.right.symm, hh⟩
            exact hji (Option.some.inj (this.symm.trans hi))
        · have hs : (if e.hidden then r.map else Function.update r.map e.identifier none) x = r.map x := by
            split
            · rfl
            · rw [Function.update_of_ne]
              rintro rfl
              simp_all
          rw [hs, hm]
          by_cases hji : j = i
          · subst hji
            simp only [h, Function.update_self, Option.some.injEq, exists_eq_left', Bool.true_eq_false,
              and_false, iff_false, not_and]
            intro hy hh
            exact hx ⟨hh, hy.symm⟩
          · rw [Function.update_of_ne hji] }

theorem get?_hide {r : Register α} {i j} :
    (r.hide i).get? j =
      if j = i then (r.get? j).map fun e => { e with hidden := true } else r.get? j := by
  simp only [get?, hide]
  split
  · split <;> simp_all
  · by_cases hji : j = i <;> simp [*]

def erase (r : Register α) (i : Id) : Register α :=
  match h : (r.hide i).lut i with
  | none   => r
  | some e =>
    have hm : e.hidden = true := by
      have := get?_hide (r := r) (i := i) (j := i)
      simp only [get?, h, if_true] at this
      obtain ⟨_, _, hd⟩ := Option.map_eq_some_iff.mp this.symm
      simp [← hd]
    { map        := (r.hide i).map
      lut        := Function.update (r.hide i).lut i none
      size       := (r.hide i).size
      freeIds    := i :: (r.hide i).freeIds
      lut_id     := by
        intro j d hj
        by_cases hji : j = i
        · subst hji
          simp at hj
        · rw [Function.update_of_ne hji] at hj
          exact (r.hide i).lut_id hj
      free_iff   := by
        intro j
        rw [List.mem_cons, (r.hide i).free_iff]
        by_cases hji : j = i
        · have := (r.hide i).lut_id h
          simp [hji, this.right]
        · simp [hji]
      free_nodup := by
        refine List.nodup_cons.mpr ⟨fun hi => ?_, (r.hide i).free_nodup⟩
        have := (r.hide i).free_iff.mp hi
        simp [h] at this
      map_iff    := by
        intro x j
        rw [(r.hide i).map_iff]
        by_cases hji : j = i
        · simp [hji, h, hm]
        · rw [Function.update_of_ne hji] }

theorem get?_erase {r : Register α} {i j} :
    (r.erase i).get? j = if j = i then none else r.get? j := by
  have hh : (r.hide i).lut j = _ := get?_hide
  simp only [get?, erase]
  split <;> rename_i h
  · by_cases hji : j = i
    · subst hji
      have := get?_hide (r := r) (i := j) (j := j)
      simp only [get?, h, if_true] at this
      simpa using this.symm
    · simp [hji]
  · by_cases hji : j = i
    · simp [hji]
    · simp [hji, hh, get?]

-- All elements satisfy `P`.
def All (P : Element α → Prop) (r : Register α) : Prop :=
  ∀ i e, r.get? i = some e → P e

namespace All

variable {r : Register α} {P Q : Element α → Prop} {i : Id} {f : α → α}

theorem mono (h : r.All P) (hi : ∀ e, P e → Q e) : r.All Q :=
  fun i e he => hi e (h i e he)

theorem and (h : r.All P) (h' : r.All Q) : r.All fun e => P e ∧ Q e :=
  fun i e he => ⟨h i e he, h' i e he⟩

theorem modify (h : r.All P) (hf : ∀ e, r.get? i = some e → P e → P (e.modify f)) :
    (r.modify i f).All P := by
  intro j e he
  rw [get?_modify] at he
  split at he
  case isFalse => exact h j e he
  case isTrue hj =>
    obtain ⟨d, hd, hde⟩ := Option.map_eq_some_iff.mp he
    exact hde ▸ hf d (hj ▸ hd) (h j d hd)

theorem hide (h : r.All P) (hf : ∀ e, r.get? i = some e → P e → P { e with hidden := true }) :
    (r.hide i).All P := by
  intro j e he
  rw [get?_hide] at he
  split at he
  case isFalse => exact h j e he
  case isTrue hj =>
    obtain ⟨d, hd, hde⟩ := Option.map_eq_some_iff.mp he
    exact hde ▸ hf d (hj ▸ hd) (h j d hd)

theorem erase (h : r.All P) : (r.erase i).All P := by
  intro j e he
  rw [get?_erase] at he
  split at he
  case isTrue  => cases he
  case isFalse => exact h j e he

theorem insert {x : Identifier} {d : α} (h : r.All P)
    (hd : ∀ i, r.find? x = none → P ⟨x, i, false, d⟩) : (r.insert x d).1.All P := by
  intro j e he
  cases hf : r.find? x
  case some d =>
    rw [(insert_of_find?_some hf).right] at he
    exact h j e he
  case none =>
    rw [(insert_of_find?_none hf).right.right.right] at he
    split at he
    case isTrue  => exact Option.some.inj he ▸ hd _ hf
    case isFalse => exact h j e he

end All

end Register
end Yogi
