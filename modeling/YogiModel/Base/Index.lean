import Mathlib

namespace Yogi

variable {α β κ : Type} [DecidableEq κ] {key : α → κ} {value : α → β} {table table' : κ → List β}
  {P : Multiset α} {a : α} {b : β} {k : κ}

theorem coe_of_mem [BEq β] [LawfulBEq β] {l : List β} (h : b ∈ l) :
    (l : Multiset β) = b ::ₘ (l.erase b : Multiset β) :=
  Multiset.coe_eq_coe.mpr (List.perm_cons_erase h)

theorem coe_erase [BEq β] [LawfulBEq β] {l : List β} {M : Multiset β}
    (h : (l : Multiset β) = b ::ₘ M) : (l.erase b : Multiset β) = M := by
  have hm : b ∈ l := by
    rw [← Multiset.mem_coe, h]
    exact Multiset.mem_cons_self ..
  exact (Multiset.cons_inj_right b).mp ((coe_of_mem hm).symm.trans h)

-- A table that has for every key the values of the records with that key.
def Indexes (key : α → κ) (value : α → β) (table : κ → List β) (P : Multiset α) : Prop :=
  ∀ k, (table k : Multiset β) = (P.filter (key · = k)).map value

namespace Indexes

theorem zero (h : ∀ k, table k = []) : Indexes key value table 0 := by
  intro k
  simp [h]

theorem congr (h : Indexes key value table P) (ht : ∀ k, table' k = table k) :
    Indexes key value table' P := by
  intro k
  rw [ht]
  exact h k

theorem mem (h : Indexes key value table P) : b ∈ table k ↔ ∃ a ∈ P, key a = k ∧ value a = b := by
  rw [← Multiset.mem_coe, h k]
  simp [and_assoc]

theorem eq_nil (h : Indexes key value table P) : table k = [] ↔ ∀ a ∈ P, key a ≠ k := by
  rw [← Multiset.coe_eq_zero, h k, Multiset.map_eq_zero, Multiset.filter_eq_nil]

theorem filter_key (hk : key a = k) :
    (a ::ₘ P).filter (key · = k) = a ::ₘ P.filter (key · = k) :=
  Multiset.filter_cons_of_pos P hk

theorem filter_key_ne (hk : key a ≠ k) : (a ::ₘ P).filter (key · = k) = P.filter (key · = k) :=
  Multiset.filter_cons_of_neg P hk

theorem insert (h : Indexes key value table P) :
    Indexes key value (Function.update table (key a) (table (key a) ++ [value a])) (a ::ₘ P) := by
  intro k
  rw [Function.update_apply]
  split
  case isTrue hk =>
    rw [filter_key hk.symm, Multiset.map_cons, ← h k, hk, ← Multiset.coe_add,
      Multiset.add_comm]
    rfl
  case isFalse hk =>
    rw [filter_key_ne (Ne.symm hk)]
    exact h k

theorem erase [BEq β] [LawfulBEq β] (h : Indexes key value table (a ::ₘ P)) :
    Indexes key value (Function.update table (key a) ((table (key a)).erase (value a))) P := by
  intro k
  rw [Function.update_apply]
  split
  case isTrue hk =>
    rw [hk]
    refine coe_erase ((h (key a)).trans ?_)
    rw [filter_key rfl, Multiset.map_cons]
  case isFalse hk =>
    rw [h k, filter_key_ne (Ne.symm hk)]

-- The values of other records are told apart by `c`.
theorem filter {c : β → Prop} [DecidablePred c] (h : Indexes key value table (a ::ₘ P))
    (ha : ¬c (value a)) (hP : ∀ b ∈ P, key b = key a → c (value b)) :
    Indexes key value (Function.update table (key a) ((table (key a)).filter c)) P := by
  intro k
  rw [Function.update_apply]
  split
  case isTrue hk =>
    rw [← Multiset.filter_coe, h, hk, filter_key rfl, Multiset.map_cons,
      Multiset.filter_cons_of_neg _ ha, Multiset.filter_eq_self]
    intro b hb
    obtain ⟨a', ha', hb⟩ := Multiset.mem_map.mp hb
    obtain ⟨ha', hk'⟩ := Multiset.mem_filter.mp ha'
    exact hb ▸ hP a' ha' hk'
  case isFalse hk =>
    rw [h k, filter_key_ne (Ne.symm hk)]

theorem clear (h : Indexes key value table P) :
    Indexes key value (Function.update table k []) (P.filter (key · ≠ k)) := by
  intro j
  rw [Function.update_apply, Multiset.filter_filter]
  split
  case isTrue hj =>
    rw [Multiset.filter_eq_nil.mpr]
    · rfl
    · intro a _ ha
      exact ha.right (ha.left.trans hj)
  case isFalse hj =>
    rw [h j]
    refine congrArg _ (Multiset.filter_congr fun a _ => ?_)
    exact ⟨fun ha => ⟨ha, fun hk => hj (ha.symm.trans hk)⟩, And.left⟩

-- The records that a list of the table stands for if `m` restores them.
theorem split {m : κ → β → α} (h : Indexes key value table P)
    (hk : ∀ k b, key (m k b) = k) (hv : ∀ k b, value (m k b) = b)
    (hm : ∀ a, m (key a) (value a) = a) (k : κ) :
    ∃ L : List α, table k = L.map value ∧ P = L + P.filter (key · ≠ k) ∧ ∀ a ∈ L, key a = k := by
  refine ⟨(table k).map (m k), ?_, ?_, fun a ha => ?_⟩
  · rw [List.map_map]
    refine ((List.map_congr_left fun b _ => ?_).trans (List.map_id _)).symm
    exact hv k b
  · have hL : (((table k).map (m k) : List α) : Multiset α) = P.filter (key · = k) := by
      rw [← Multiset.map_coe, h k, Multiset.map_map]
      refine (Multiset.map_congr rfl fun a ha => ?_).trans (Multiset.map_id _)
      rw [Function.comp_apply, ← (Multiset.mem_filter.mp ha).right]
      exact hm a
    rw [hL, Multiset.filter_add_not]
  · obtain ⟨b, _, hb⟩ := List.mem_map.mp ha
    exact hb ▸ hk k b

-- All values of the table if it is read key by key.
theorem flatMap (h : Indexes key value table P) {ks : List κ} (hn : ks.Nodup)
    (hk : ∀ a ∈ P, key a ∈ ks) {f : κ → β → γ} :
    (ks.flatMap fun k => (table k).map (f k) : Multiset γ) = P.map fun a => f (key a) (value a) := by
  induction ks generalizing P table
  case nil =>
    have : P = 0 := Multiset.eq_zero_of_forall_notMem fun a ha => by simpa using hk a ha
    simp [this]
  case cons j ks ih =>
    obtain ⟨hj, hn⟩ := List.nodup_cons.mp hn
    have ht := ih (h.clear (k := j)) hn fun a ha => by
      obtain ⟨ha, hne⟩ := Multiset.mem_filter.mp ha
      exact (List.mem_cons.mp (hk a ha)).resolve_left hne
    have hks : ks.flatMap (fun k => (Function.update table j [] k).map (f k)) =
        ks.flatMap fun k => (table k).map (f k) := by
      refine List.flatMap_congr fun k hk => ?_
      have hkj : k ≠ j := fun hkj => hj (hkj ▸ hk)
      rw [Function.update_of_ne hkj]
    rw [hks] at ht
    rw [List.flatMap_cons, ← Multiset.coe_add, ht, ← Multiset.map_coe, h j, Multiset.map_map]
    conv_rhs => rw [← Multiset.filter_add_not (key · = j) P, Multiset.map_add]
    refine congrArg (· + _) (Multiset.map_congr rfl fun a ha => ?_)
    rw [Function.comp_apply, (Multiset.mem_filter.mp ha).right]

end Indexes
end Yogi
