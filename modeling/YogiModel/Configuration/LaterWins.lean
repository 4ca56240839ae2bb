import Mathlib
import YogiModel.Configuration.Overlay

namespace Yogi.Configuration

open Ptree

-- The trees that are read from JSON texts whose objects have distinct keys. Empty objects and empty
-- arrays are leafs.
inductive OfJson : Ptree → Prop
  | leaf {d : Text} : OfJson (.leaf d)
  | object {cs : List (Text × Ptree)} (hk : (cs.map Prod.fst).Nodup)
      (h : ∀ c ∈ cs, OfJson c.snd) : OfJson (.node [] cs)
  | array {cs : List (Text × Ptree)} (hk : ∀ c ∈ cs, c.fst = [])
      (h : ∀ c ∈ cs, OfJson c.snd) : OfJson (.node [] cs)

-- No key occurs twice in an object. The elements of an array have no keys.
inductive Distinct : Ptree → Prop
  | node {d : Text} {cs : List (Text × Ptree)} (hk : ((cs.map Prod.fst).filter (· ≠ [])).Nodup)
      (h : ∀ c ∈ cs, Distinct c.snd) : Distinct (.node d cs)

inductive Keys (p : Text → Prop) : Ptree → Prop
  | node {d : Text} {cs : List (Text × Ptree)} (hk : ∀ c ∈ cs, p c.fst)
      (h : ∀ c ∈ cs, Keys p c.snd) : Keys p (.node d cs)

def isArray (t : Ptree) : Bool :=
  !t.children.isEmpty && t.children.all fun c => c.fst.isEmpty

-- What a path through objects leads to.
def value (t : Ptree) : List Text → Option Ptree
  | []      => some t
  | k :: ks => if isArray t then none else (t.child k).bind fun c => value c ks

-- The tree contains the path, deletes it or has an array in its place.
def touches (t : Ptree) : List Text → Bool
  | []      => true
  | k :: ks => t.data == null || isArray t || (t.child k).any fun c => touches c ks

structure Merged (dest src merged : Ptree) : Prop where
  leaf     : ∀ p v, value src p = some v → v.children = [] → v.data ≠ null →
    ∃ c, merged.get p = some c ∧ c.data = v.data
  array    : ∀ p v, value src p = some v → isArray v = true → merged.get p = some v
  deleted  : ∀ p v, value src p = some v → v.data = null → merged.get p = none
  kept     : ∀ p v, dest.get p = some v → touches src p = false → merged.get p = some v
  distinct : Distinct merged
  again    : mergePropertyTrees merged src = .ok merged

def LaterWins (dest src : Ptree) : Prop :=
  ∃ merged, mergePropertyTrees dest src = .ok merged ∧ Merged dest src merged

-- There are no dots and no empty keys, which an array has, and neither the tree itself nor one of
-- its members is deleted.
structure Mergeable (src : Ptree) : Prop where
  keys    : Keys Key src
  root    : src.data ≠ null
  members : ∀ c ∈ src.children, c.snd.data ≠ null

variable {d k : Text} {ks : List Text} {s t dest : Ptree} {cs : List (Text × Ptree)}
  {f : Ptree → Ptree} {p : Text → Prop}

theorem OfJson.distinct (h : OfJson t) : Distinct t := by
  induction h
  case leaf            => exact .node (by simp) (fun _ h => by cases h)
  case object hk _ ih  => exact .node (hk.filter _) ih
  case array hk _ ih   =>
    apply Distinct.node _ ih
    rw [List.filter_eq_nil_iff.mpr]
    · exact List.nodup_nil
    · intro k hm
      obtain ⟨c, hc, he⟩ := List.mem_map.mp hm
      simp [← he, hk c hc]

theorem OfJson.of_mem (h : OfJson (node d cs)) : ∀ c ∈ cs, OfJson c.snd := by
  cases h
  case leaf     => exact fun _ h => by cases h
  case object h => exact h
  case array h  => exact h

theorem OfJson.eq_nil_of_null (h : OfJson (node d cs)) (hd : d = null) : cs = [] := by
  cases h
  case leaf   => rfl
  case object => exact absurd hd (by decide)
  case array  => exact absurd hd (by decide)

theorem fst_ne_nil_of_count (hc : (node d cs).count [] = 0) : ∀ c ∈ cs, c.fst ≠ [] := by
  intro c hm he
  have := List.filter_eq_nil_iff.mp (List.length_eq_zero_iff.mp hc) c hm
  simp [he] at this

theorem OfJson.nodup (h : OfJson (node d cs)) (hc : (node d cs).count [] = 0) :
    (cs.map Prod.fst).Nodup := by
  cases h
  case leaf         => exact List.nodup_nil
  case object hk _  => exact hk
  case array hk _   =>
    have hn : cs = [] := by
      rw [List.eq_nil_iff_forall_not_mem]
      exact fun c hm => fst_ne_nil_of_count hc c hm (hk c hm)
    rw [hn]
    exact List.nodup_nil

theorem Keys.count_eq_zero (h : Keys Key t) : t.count [] = 0 := by
  cases h with | node hk _
  rw [count, List.length_eq_zero_iff, List.filter_eq_nil_iff]
  intro c hc
  simp [(hk c hc).left]

theorem Keys.isArray_eq_false (h : Keys Key t) : isArray t = false := by
  cases t with | node d cs
  cases h with | node hk _
  cases hcs : cs
  case nil       => rfl
  case cons c cs => simp [isArray, (hk c (hcs ▸ List.mem_cons_self)).left]

theorem mem_of_child_node (h : (node d cs).child k = some s) : (k, s) ∈ cs := by
  simp only [child, Option.map_eq_some_iff, children_node] at h
  obtain ⟨c, hf, hs⟩ := h
  have hk := List.find?_some hf
  have hk : c.fst = k := by simpa using hk
  exact hk ▸ hs ▸ List.mem_of_find?_eq_some hf

theorem child_of_mem (hn : (cs.map Prod.fst).Nodup) (h : (k, s) ∈ cs) :
    (node d cs).child k = some s := by
  induction cs
  case nil          => cases h
  case cons c cs ih =>
    rw [List.map_cons, List.nodup_cons] at hn
    rw [child_cons]
    cases List.mem_cons.mp h
    case inl he => simp [← he]
    case inr hm =>
      have hne : c.fst ≠ k := fun he => hn.left (he ▸ List.mem_map_of_mem hm)
      simp [hne, ih hn.right hm]

-- The child with a key after the merge.
def overlaid (s : Ptree) (c : Option Ptree) : Option Ptree :=
  if s.data = null then none
  else if s.count [] != 0 then c.or (some s)
  else some (overlay s (c.getD empty))

theorem child_overlayChild_self : (overlayChild k s t).child k = overlaid s (t.child k) := by
  simp only [overlayChild, overlaid]
  split
  case isTrue  => exact child_eraseKey_self
  case isFalse =>
    split
    case isTrue  => simp [child_pushBack]
    case isFalse => exact child_assign

theorem child_assign_ne {k' : Text} (h : k ≠ k') : (assign k f t).child k' = t.child k' := by
  cases t with | node d cs
  rw [assign]
  split
  case h_1 => exact child_modifyChild h
  case h_2 => simp [child_pushBack, h]

theorem child_overlayChild_ne {k' : Text} (h : k ≠ k') :
    (overlayChild k s t).child k' = t.child k' := by
  simp only [overlayChild]
  split
  case isTrue  => exact child_eraseKey h
  case isFalse =>
    split
    case isTrue  => simp [child_pushBack, h]
    case isFalse => exact child_assign_ne h

theorem child_overlayAll (hn : (cs.map Prod.fst).Nodup) :
    (overlayAll cs t).child k =
      match (node d cs).child k with
      | none   => t.child k
      | some s => overlaid s (t.child k) := by
  induction cs generalizing t
  case nil          => rw [overlayAll_nil, child_node_nil]
  case cons c cs ih =>
    obtain ⟨k', s⟩ := c
    rw [List.map_cons, List.nodup_cons] at hn
    rw [overlayAll_cons, ih hn.right, child_cons]
    by_cases hk : k' = k
    case pos =>
      subst hk
      have hc : (node d cs).child k' = none := by
        rw [child_eq_none]
        exact fun c hc he => hn.left (List.mem_map.mpr ⟨c, hc, he⟩)
      simp [hc, child_overlayChild_self]
    case neg => simp [hk, child_overlayChild_ne hk]

theorem child_overlay (hj : OfJson s) (hc : s.count [] = 0) :
    (overlay s t).child k =
      match s.child k with
      | none   => t.child k
      | some c => overlaid c (t.child k) := by
  cases s with | node d cs
  rw [overlay_node, child_overlayAll (hj.nodup hc)]
  rfl

theorem data_overlayChild : (overlayChild k s t).data = t.data := by
  simp only [overlayChild, assign]
  split
  case isTrue  => rfl
  case isFalse =>
    split
    case isTrue  => rfl
    case isFalse => split <;> rfl

theorem data_overlayAll : (overlayAll cs t).data = t.data := by
  induction cs generalizing t
  case nil          => rw [overlayAll_nil]
  case cons c cs ih => rw [overlayAll_cons, ih, data_overlayChild]

theorem data_overlay : (overlay s t).data = s.data := by
  cases s
  rw [overlay_node, data_overlayAll]
  rfl

-- Lookups in the merged tree.

theorem get_overlay_none (hj : OfJson s) (hc : s.count [] = 0) (hk : s.child k = none) :
    (overlay s t).get (k :: ks) = t.get (k :: ks) := by
  simp [get_cons, child_overlay hj hc, hk]

theorem get_overlay_some {c : Ptree} (hj : OfJson s) (hc : s.count [] = 0)
    (hk : s.child k = some c) (hcc : c.count [] = 0) :
    (overlay s t).get (k :: ks) =
      if c.data = null then none else (overlay c ((t.child k).getD empty)).get ks := by
  simp only [get_cons, child_overlay hj hc, hk, overlaid, hcc]
  by_cases hd : c.data = null <;> simp [hd]

theorem Keys.of_child {c : Ptree} (h : Keys p t) (hc : t.child k = some c) : Keys p c := by
  cases t
  cases h with | node _ h
  exact h _ (mem_of_child_node hc)

theorem OfJson.of_child {c : Ptree} (h : OfJson t) (hc : t.child k = some c) : OfJson c := by
  cases t
  exact h.of_mem _ (mem_of_child_node hc)

theorem value_of_null {v : Ptree} (h : OfJson t) (hd : t.data = null)
    (hv : value t ks = some v) : ks = [] ∧ v = t := by
  cases t with | node d cs
  have hcs := h.eq_nil_of_null hd
  subst hcs
  cases ks
  case nil =>
    cases hv
    exact ⟨rfl, rfl⟩
  case cons => simp [value] at hv

theorem value_cons {v : Ptree} (hk : Keys Key t) (h : value t (k :: ks) = some v) :
    ∃ c, t.child k = some c ∧ value c ks = some v := by
  simpa [value, hk.isArray_eq_false, Option.bind_eq_some_iff] using h

theorem leaf_overlay {v : Ptree} (hj : OfJson s) (hk : Keys Key s) (hv : value s ks = some v)
    (hd : v.data ≠ null) : ∃ c, (overlay s t).get ks = some c ∧ c.data = v.data := by
  induction ks generalizing s t
  case nil =>
    cases hv
    exact ⟨_, rfl, data_overlay⟩
  case cons k ks ih =>
    obtain ⟨c, hc, hv⟩ := value_cons hk hv
    have hcd : c.data ≠ null := by
      intro he
      obtain ⟨_, hvc⟩ := value_of_null (hj.of_child hc) he hv
      exact hd (hvc ▸ he)
    rw [get_overlay_some hj hk.count_eq_zero hc (hk.of_child hc).count_eq_zero, if_neg hcd]
    exact ih (hj.of_child hc) (hk.of_child hc) hv

theorem deleted_overlay {v : Ptree} (hj : OfJson s) (hk : Keys Key s) (hs : s.data ≠ null)
    (hv : value s ks = some v) (hd : v.data = null) : (overlay s t).get ks = none := by
  induction ks generalizing s t
  case nil =>
    cases hv
    exact absurd hd hs
  case cons k ks ih =>
    obtain ⟨c, hc, hv⟩ := value_cons hk hv
    rw [get_overlay_some hj hk.count_eq_zero hc (hk.of_child hc).count_eq_zero]
    split
    case isTrue      => rfl
    case isFalse hcd => exact ih (hj.of_child hc) (hk.of_child hc) hcd hv

-- This holds also for paths that are missing before.
theorem kept_overlay (hj : OfJson s) (hk : Keys Key s) (h : touches s ks = false) :
    (overlay s t).get ks = t.get ks := by
  induction ks generalizing s t
  case nil           => cases h
  case cons k ks ih =>
    simp only [touches, Bool.or_eq_false_iff, Option.any_eq_false] at h
    obtain ⟨⟨_, _⟩, hc⟩ := h
    cases hs : s.child k
    case none   => exact get_overlay_none hj hk.count_eq_zero hs
    case some c =>
      have ht : touches c ks = false := by simpa using hc c hs
      rw [get_overlay_some hj hk.count_eq_zero hs (hk.of_child hs).count_eq_zero]
      cases ks
      case nil          => cases ht
      case cons k' ks' =>
        have hcd : c.data ≠ null := by
          intro he
          simp [touches, he] at ht
        rw [if_neg hcd, ih (hj.of_child hs) (hk.of_child hs) ht]
        cases htk : t.child k
        case none =>
          rw [get_cons (t := t), htk]
          rfl
        case some c => simp [get_cons, htk]

-- Keys stay distinct.

theorem Distinct.of_mem (h : Distinct t) {c} (hc : c ∈ t.children) : Distinct c.snd := by
  cases h with | node _ h
  exact h c hc

theorem Distinct.of_child {c : Ptree} (h : Distinct t) (hc : t.child k = some c) : Distinct c :=
  have ⟨_, hm⟩ := mem_of_child hc
  h.of_mem hm

theorem Distinct.setData (h : Distinct t) : Distinct (setData d t) := by
  cases h with | node hk h
  exact .node hk h

theorem distinct_empty : Distinct empty :=
  OfJson.leaf.distinct

theorem Distinct.eraseKey (h : Distinct t) : Distinct (t.eraseKey k) := by
  cases h with | node hk h
  apply Distinct.node
  · exact hk.sublist ((List.filter_sublist.map _).filter _)
  · exact fun c hc => h c (List.mem_filter.mp hc).left

theorem Distinct.pushBack {c : Ptree} (h : Distinct t) (hc : Distinct c)
    (hk : t.child k = none) : Distinct (t.pushBack k c) := by
  rw [child_eq_none] at hk
  cases h with | node hn h
  apply Distinct.node
  · rw [List.map_append, List.filter_append, List.nodup_append]
    refine ⟨hn, ?_, ?_⟩
    · exact (List.nodup_singleton k).filter _
    · intro x hx y hy he
      obtain ⟨c', hm, hf⟩ := List.mem_map.mp (List.mem_filter.mp hx).left
      have hy := List.mem_singleton.mp (List.mem_filter.mp hy).left
      exact hk c' hm (hf.trans (he.trans hy))
  · intro x hx
    cases List.mem_append.mp hx
    case inl hx => exact h x hx
    case inr hx => exact List.mem_singleton.mp hx ▸ hc

theorem Distinct.assign (h : Distinct t) (hf : ∀ c, Distinct c → Distinct (f c)) :
    Distinct (assign k f t) := by
  rw [Configuration.assign]
  split
  case h_2 hk => exact h.pushBack (hf _ distinct_empty) hk
  case h_1 =>
    cases h with | node hn h
    apply Distinct.node
    · rw [children_node, map_fst_modifyChild]
      exact hn
    · intro x hx
      cases mem_modifyChild hx
      case inl hx => exact h x hx
      case inr hx =>
        obtain ⟨c, hm, he⟩ := hx
        exact he ▸ hf c (h _ hm)

theorem Distinct.overlay (hk : Keys Key s) (ht : Distinct t) : Distinct (overlay s t) := by
  induction hk generalizing t
  case node d cs hk h ih =>
    have hall : ∀ l : List (Text × Ptree), (∀ c ∈ l, c ∈ cs) → ∀ t, Distinct t →
        Distinct (overlayAll l t) := by
      intro l hl
      induction l
      case nil            => exact fun t ht => overlayAll_nil ▸ ht
      case cons c l ihl   =>
        intro t ht
        have hc := hl c List.mem_cons_self
        rw [overlayAll_cons]
        apply ihl (fun x hx => hl x (List.mem_cons_of_mem c hx))
        simp only [overlayChild, (h c hc).count_eq_zero]
        split
        case isTrue  => exact ht.eraseKey
        case isFalse => exact ht.assign fun c' hc' => ih c hc hc'
    rw [overlay_node]
    exact hall cs (fun _ h => h) _ ht.setData

-- Merging again.

theorem overlayAll_eq_self (h : ∀ c ∈ cs, overlayChild c.fst c.snd t = t) :
    overlayAll cs t = t := by
  induction cs
  case nil          => exact overlayAll_nil
  case cons c cs ih =>
    rw [overlayAll_cons, h c List.mem_cons_self]
    exact ih fun x hx => h x (List.mem_cons_of_mem c hx)

theorem eraseKey_eq_self (h : t.child k = none) : t.eraseKey k = t := by
  rw [child_eq_none] at h
  cases t
  rw [eraseKey, List.filter_eq_self.mpr]
  · rfl
  · intro c hc
    simp [h c hc]

theorem assign_eq_self {c : Ptree} (h : t.child k = some c) (hf : f c = c) :
    assign k f t = t := by
  cases t with | node d cs
  simp only [assign, h]
  rw [data_node, children_node, modifyChild_eq_self (d := d)]
  intro c' hc'
  cases h.symm.trans hc'
  exact hf

theorem overlay_overlay (hj : OfJson s) (hk : Keys Key s) :
    overlay s (overlay s t) = overlay s t := by
  induction hk generalizing t
  case node d cs hk h ih =>
    have hk : Keys Key (node d cs) := .node hk h
    have hd : setData d (overlay (node d cs) t) = overlay (node d cs) t := by
      have hd : (overlay (node d cs) t).data = d := data_overlay
      cases ht : overlay (node d cs) t
      rw [ht] at hd
      exact hd ▸ rfl
    have he : overlay (node d cs) (overlay (node d cs) t) =
        overlayAll cs (overlay (node d cs) t) := by rw [overlay_node, hd]
    rw [he]
    apply overlayAll_eq_self
    intro c hc
    have hs := child_of_mem (d := d) (hj.nodup hk.count_eq_zero) hc
    have hu := child_overlay (t := t) (k := c.fst) hj hk.count_eq_zero
    simp only [hs, overlaid, (h c hc).count_eq_zero] at hu
    simp only [overlayChild, (h c hc).count_eq_zero]
    by_cases hn : c.snd.data = null
    case pos =>
      rw [if_pos hn] at hu
      rw [if_pos hn, eraseKey_eq_self hu]
    case neg =>
      rw [if_neg hn] at hu
      rw [if_neg hn]
      exact assign_eq_self hu (ih c hc (hj.of_mem c hc))

-- What goes wrong with an array.

theorem count_assign {k' : Text} (h : k ≠ k') : (assign k f t).count k' = t.count k' := by
  rw [assign]
  split
  case h_1 => rw [count_eq_count_map, count_eq_count_map, children_node, map_fst_modifyChild]
  case h_2 => exact count_pushBack h

theorem count_overlayChild {k' : Text} (h : k ≠ k') :
    (overlayChild k s t).count k' = t.count k' := by
  simp only [overlayChild]
  split
  case isTrue  => exact count_eraseKey h
  case isFalse =>
    split
    case isTrue  => exact count_pushBack h
    case isFalse => exact count_assign h

theorem count_overlayAll_of_not_mem (h : k ∉ cs.map Prod.fst) :
    (overlayAll cs t).count k = t.count k := by
  induction cs generalizing t
  case nil          => rw [overlayAll_nil]
  case cons c cs ih =>
    rw [List.map_cons, List.mem_cons, not_or] at h
    rw [overlayAll_cons, ih h.right, count_overlayChild (Ne.symm h.left)]

theorem count_overlayAll (hn : (cs.map Prod.fst).Nodup) (hs : (k, s) ∈ cs)
    (hd : s.data ≠ null) (ha : s.count [] ≠ 0) :
    (overlayAll cs t).count k = t.count k + 1 := by
  induction cs generalizing t
  case nil          => cases hs
  case cons c cs ih =>
    rw [List.map_cons, List.nodup_cons] at hn
    cases List.mem_cons.mp hs
    case inl he =>
      subst he
      rw [overlayAll_cons, count_overlayAll_of_not_mem hn.left, overlayChild, if_neg hd, if_pos]
      · exact count_pushBack_self
      · simpa using ha
    case inr hm =>
      have hne : c.fst ≠ k := fun he => hn.left (he ▸ List.mem_map_of_mem hm)
      rw [overlayAll_cons, ih hn.right hm, count_overlayChild hne]

theorem Distinct.count_le (h : Distinct t) (hk : k ≠ []) : t.count k ≤ 1 := by
  cases h with | node hn _
  rw [count_eq_count_map]
  have := List.nodup_iff_count_le_one.mp hn k
  rwa [List.count_filter (by simpa using hk)] at this

theorem keys_of_distinct (hj : OfJson s) (hk : Keys (fun k => '.' ∉ k) s) (hc : s.count [] = 0)
    (hd : Distinct (overlay s (overlay s t))) : Keys Key s := by
  induction hk generalizing t
  case node d cs hk h ih =>
    have hn := hj.nodup hc
    have hkeys : ∀ c ∈ cs, Key c.fst := fun c hm =>
      key_of_count hc (List.mem_map_of_mem hm) (hk c hm)
    refine .node hkeys fun c hm => ?_
    have hcs := child_of_mem (d := d) hn hm
    by_cases hnull : c.snd.data = null
    case pos =>
      obtain ⟨k, s⟩ := c
      cases s
      have hnil := (hj.of_mem _ hm).eq_nil_of_null hnull
      subst hnil
      exact .node (fun _ h => by cases h) (fun _ h => by cases h)
    case neg =>
      by_cases ha : c.snd.count [] = 0
      case pos =>
        have h₂ := child_overlay (t := overlay (.node d cs) t) (k := c.fst) hj hc
        simp only [hcs, overlaid, ha, if_neg hnull] at h₂
        have h₁ := child_overlay (t := t) (k := c.fst) hj hc
        simp only [hcs, overlaid, ha, if_neg hnull] at h₁
        simp only [h₁] at h₂
        exact ih c hm (hj.of_mem c hm) ha (hd.of_child h₂)
      case neg =>
        -- The array is there twice.
        have hle := hd.count_le (hkeys c hm).left
        have hcount : ∀ t, (overlay (.node d cs) t).count c.fst = t.count c.fst + 1 := by
          intro t
          rw [overlay_node, count_overlayAll hn hm hnull ha]
          rfl
        rw [hcount, hcount] at hle
        omega

theorem regular_of_keys (hj : OfJson s) (hk : Keys (fun k => '.' ∉ k) s) : Regular s := by
  induction hk
  case node d cs hk h ih =>
    exact .node hk (fun c hc => ih c hc (hj.of_mem c hc)) hj.eq_nil_of_null

theorem mergeNode_null_member {parentPath} (hk : '.' ∉ k) (hd : s.data = null) :
    mergeNode s parentPath (join [] k) dest = .error .outOfRange := by
  have hj : join [] k = k := by
    rw [join]
    split
    case isTrue h  => exact h.symm
    case isFalse   => rfl
  rw [hj, mergeNode, if_pos hd, lastDot_dotless hk]
  rfl

theorem members_of_ok {cs : List (Text × Ptree)} {merged} (hk : ∀ c ∈ cs, Key c.fst)
    (h : traverseChildren mergeNode cs [] dest = .ok merged) :
    ∀ c ∈ cs, c.snd.data ≠ null := by
  induction cs generalizing dest
  case nil          => exact fun _ h => by cases h
  case cons c cs ih =>
    obtain ⟨k, s⟩ := c
    rw [traverseChildren] at h
    obtain ⟨dest', hc, h⟩ := Except.bind_eq_ok.mp h
    intro x hx
    cases List.mem_cons.mp hx
    case inr hm => exact ih (fun x hx => hk x (List.mem_cons_of_mem _ hx)) h x hm
    case inl he =>
      subst he
      intro hd
      have hdot : '.' ∉ k := (hk _ List.mem_cons_self).right
      cases s
      rw [traversePropertyTree, mergeNode_null_member hdot hd] at hc
      cases hc

theorem Keys.mono {q : Text → Prop} (hpq : ∀ k, p k → q k) (h : Keys p t) : Keys q t := by
  induction h
  case node hk _ ih => exact .node (fun c hc => hpq c.fst (hk c hc)) ih

theorem Keys.of_value {v : Ptree} (h : Keys Key t) (hv : value t ks = some v) : Keys Key v := by
  induction ks generalizing t
  case nil =>
    cases hv
    exact h
  case cons k ks ih =>
    obtain ⟨c, hc, hv⟩ := value_cons h hv
    exact ih (h.of_child hc) hv

theorem Mergeable.laterWins (hd : Distinct dest) (hs : OfJson s) (hm : Mergeable s) :
    LaterWins dest s := by
  have hr := regular_of_keys hs (hm.keys.mono fun _ h => h.right)
  have he := fun dest => mergePropertyTrees_eq dest hr hm.keys.count_eq_zero hm.root
    hm.members
  refine ⟨overlay s dest, he dest, ?_⟩
  exact {
    leaf     := fun p v hv _ hn => leaf_overlay hs hm.keys hv hn
    array    := fun p v hv ha => by simp [(hm.keys.of_value hv).isArray_eq_false] at ha
    deleted  := fun p v hv hn => deleted_overlay hs hm.keys hm.root hv hn
    kept     := fun p v hv ht => (kept_overlay hs hm.keys ht).trans hv
    distinct := hd.overlay hm.keys
    again    := by rw [he, overlay_overlay hs hm.keys] }

theorem Mergeable.of_laterWins (hs : OfJson s) (hk : Keys (fun k => '.' ∉ k) s)
    (hc : s.count [] = 0) (h : LaterWins dest s) : Mergeable s := by
  obtain ⟨merged, he, hm⟩ := h
  have hroot : s.data ≠ null := by
    intro hn
    cases hm.deleted [] s rfl hn
  have hmembers : ∀ c ∈ s.children, c.snd.data ≠ null := by
    cases s with | node d cs
    cases hk with | node hk _
    have hkeys : ∀ c ∈ cs, Key c.fst := fun c hm =>
      key_of_count hc (List.mem_map_of_mem hm) (hk c hm)
    rw [mergePropertyTrees, traversePropertyTree] at he
    obtain ⟨⟨b, dest'⟩, hn, he⟩ := Except.bind_eq_ok.mp he
    simp only [data_node] at hroot
    simp only [mergeNode, data_node, if_neg hroot, List.isEmpty_nil, Bool.true_or, if_true] at hn
    cases hn
    exact members_of_ok hkeys he
  have heq := fun dest => mergePropertyTrees_eq dest (regular_of_keys hs hk) hc hroot
    hmembers
  have h₁ := (heq dest).symm.trans he
  have h₂ := (heq merged).symm.trans hm.again
  rw [Except.ok.injEq] at h₁ h₂
  have hd : Distinct (overlay s (overlay s dest)) := by
    rw [h₁, h₂]
    exact hm.distinct
  exact ⟨keys_of_distinct hs hk hc hd, hroot, hmembers⟩

def host (value : Ptree) : Ptree :=
  .node [] [("host".toList, value)]

theorem ofJson_host {v : Ptree} (h : OfJson v) : OfJson (host v) :=
  .object (List.nodup_singleton _) (by simp [h])

end Yogi.Configuration
