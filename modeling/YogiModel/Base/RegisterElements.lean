import YogiModel.Base.Register

-- The elements of a register that has been changed and what its map finds.
namespace Yogi.Register

variable {α : Type} {r : Register α} {i j : Id} {x y : Identifier} {e : Element α} {f : α → α} {d : α}

theorem perm_elements {r r' : Register α} (h : ∀ e, e ∈ r.elements ↔ e ∈ r'.elements) :
    r.elements.Perm r'.elements :=
  (List.perm_ext_iff_of_nodup (List.Nodup.of_map _ elements_nodup) (List.Nodup.of_map _ elements_nodup)).mpr h

theorem perm_ids {r r' : Register α} (h : ∀ i, i ∈ r.ids ↔ i ∈ r'.ids) : r.ids.Perm r'.ids :=
  (List.perm_ext_iff_of_nodup ids_nodup ids_nodup).mpr h

theorem map_identifier_elements {r : Register α} :
    r.elements.map (·.identifier) = r.ids.filterMap fun i => (r.get? i).map (·.identifier) := by
  rw [elements, List.map_filterMap]

-- The identifiers only depend on the IDs and their identifiers.
theorem perm_identifiers {r r' : Register α}
    (h : ∀ i, (r.get? i).map (·.identifier) = (r'.get? i).map (·.identifier)) :
    (r.elements.map (·.identifier)).Perm (r'.elements.map (·.identifier)) := by
  have hi : ∀ i, i ∈ r.ids ↔ i ∈ r'.ids := by
    intro i
    have := congrArg Option.isSome (h i)
    simpa [mem_ids_iff, Option.isSome_iff_exists] using Bool.eq_iff_iff.mp this
  rw [map_identifier_elements, map_identifier_elements, List.filterMap_congr fun i _ => h i]
  exact (perm_ids hi).filterMap _

theorem perm_identifiers_modify :
    ((r.modify i f).elements.map (·.identifier)).Perm (r.elements.map (·.identifier)) := by
  refine perm_identifiers fun j => ?_
  rw [get?_modify]
  split
  case isTrue  => cases r.get? j <;> rfl
  case isFalse => rfl

theorem perm_identifiers_hide :
    ((r.hide i).elements.map (·.identifier)).Perm (r.elements.map (·.identifier)) := by
  refine perm_identifiers fun j => ?_
  rw [get?_hide]
  split
  case isTrue  => cases r.get? j <;> rfl
  case isFalse => rfl

theorem perm_elements_erase (h : r.get? i = some e) : r.elements.Perm (e :: (r.erase i).elements) := by
  have hi : e.id = i := get?_id h
  refine (List.perm_ext_iff_of_nodup (List.Nodup.of_map _ elements_nodup) ?_).mpr fun e' => ?_
  case refine_1 =>
    refine List.nodup_cons.mpr ⟨fun hm => ?_, List.Nodup.of_map _ elements_nodup⟩
    rw [mem_elements_iff, get?_erase, if_pos hi] at hm
    cases hm
  case refine_2 =>
    rw [List.mem_cons, mem_elements_iff, mem_elements_iff, get?_erase]
    by_cases hj : e'.id = i
    case neg =>
      rw [if_neg hj]
      refine ⟨.inr, fun he => he.resolve_left ?_⟩
      rintro rfl
      exact hj hi
    case pos =>
      rw [if_pos hj, hj, h, Option.some.injEq, eq_comm]
      simp

theorem perm_elements_insert (h : r.find? x = none) :
    (r.insert x d).1.elements.Perm (⟨x, (r.insert x d).2.1, false, d⟩ :: r.elements) := by
  obtain ⟨_, _, hn, hg⟩ := insert_of_find?_none (d := d) h
  refine (List.perm_ext_iff_of_nodup (List.Nodup.of_map _ elements_nodup) ?_).mpr fun e => ?_
  case refine_1 =>
    refine List.nodup_cons.mpr ⟨fun hm => ?_, List.Nodup.of_map _ elements_nodup⟩
    rw [mem_elements_iff, hn] at hm
    cases hm
  case refine_2 =>
    rw [List.mem_cons, mem_elements_iff, mem_elements_iff, hg]
    split
    case isTrue hi  =>
      rw [hi, hn, Option.some.injEq, eq_comm]
      simp
    case isFalse hi =>
      refine ⟨.inr, fun he => he.resolve_left ?_⟩
      rintro rfl
      exact hi rfl

theorem perm_elements_insert_some (h : r.find? x = some e) : (r.insert x d).1.elements.Perm r.elements :=
  perm_elements fun e' => by rw [mem_elements_iff, mem_elements_iff, (insert_of_find?_some h).right]


-- The map

@[simp] theorem map_modify : (r.modify i f).map = r.map := by
  simp only [modify]
  split <;> rfl

theorem map_hide_of_hidden (h : r.get? i = some e) (hh : e.hidden = true) : (r.hide i).map = r.map := by
  simp only [get?] at h
  simp only [hide]
  split
  case h_1 => rfl
  case h_2 d hd =>
    cases h.symm.trans hd
    exact if_pos hh

theorem map_hide (h : r.get? i = some e) (hh : e.hidden = false) :
    (r.hide i).map = Function.update r.map e.identifier none := by
  simp only [get?] at h
  simp only [hide]
  split
  case h_1 hd => cases h.symm.trans hd
  case h_2 d hd =>
    cases h.symm.trans hd
    exact if_neg (by simp [hh])

-- An element is hidden before it is erased.
theorem map_erase : (r.erase i).map = (r.hide i).map := by
  have hl := get?_hide (r := r) (i := i) (j := i)
  simp only [get?] at hl
  simp only [erase]
  split
  case h_2 => rfl
  case h_1 hn =>
    have hr : r.lut i = none := by simpa [hn] using hl.symm
    simp only [hide]
    split
    case h_1      => rfl
    case h_2 e he => cases hr.symm.trans he

theorem map_eq_none (h : r.find? x = none) : r.map x = none := by
  by_contra hn
  obtain ⟨i, hi⟩ := Option.ne_none_iff_exists'.mp hn
  obtain ⟨e, he, hx, hh⟩ := r.map_iff.mp hi
  exact absurd (find?_eq_none_iff.mp h i e he hx) (by simp [hh])

theorem map_eq_some (h : r.find? x = some e) : r.map x = some e.id := by
  obtain ⟨he, hx, hh⟩ := find?_eq_some_iff.mp h
  exact r.map_iff.mpr ⟨e, he, hx, hh⟩

theorem map_insert_some (h : r.find? x = some e) : (r.insert x d).1.map = r.map := by
  have hm : r.grow.map x = some e.id := by rw [grow_map, map_eq_some h]
  simp only [insert]
  split
  case h_1     => exact grow_map
  case h_2 hn  => cases hm.symm.trans hn

theorem map_insert_none (h : r.find? x = none) :
    (r.insert x d).1.map = Function.update r.map x (some (r.insert x d).2.1) := by
  have hm : r.grow.map x = none := by rw [grow_map, map_eq_none h]
  rw [insert_eq_construct hm]
  simp only [construct, grow_map]

end Yogi.Register
