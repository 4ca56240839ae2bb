import YogiModel.Base.Except
import YogiModel.Configuration.Merge

namespace Yogi.Configuration

open Ptree

variable {d k : Text} {ks : List Text} {s t dest : Ptree} {cs : List (Text × Ptree)}
  {f : Ptree → Ptree}

-- Changes the child with the key, which is created before if it is missing.
def assign (k : Text) (f : Ptree → Ptree) (t : Ptree) : Ptree :=
  match t.child k with
  | some _ => node t.data (modifyChild k f t.children)
  | none   => t.pushBack k (f empty)

-- What merging a tree without dots in its keys comes down to.

mutual

def overlay : Ptree → Ptree → Ptree
  | .node d cs, t => overlayAll cs (setData d t)

def overlayAll : List (Text × Ptree) → Ptree → Ptree
  | [], t           => t
  | (k, s) :: cs, t =>
    overlayAll cs <|
      if s.data = null then t.eraseKey k
      else if s.count [] != 0 then t.pushBack k s
      else assign k (overlay s) t

end

def overlayChild (k : Text) (s t : Ptree) : Ptree :=
  if s.data = null then t.eraseKey k
  else if s.count [] != 0 then t.pushBack k s
  else assign k (overlay s) t

theorem overlay_node : overlay (node d cs) t = overlayAll cs (setData d t) := by
  rw [overlay]

theorem overlayAll_nil : overlayAll [] t = t := by
  rw [overlayAll]

theorem overlayAll_cons : overlayAll ((k, s) :: cs) t = overlayAll cs (overlayChild k s t) := by
  rw [overlayAll, overlayChild]

-- The traversal needs keys without dots and nothing below what is deleted.
inductive Regular : Ptree → Prop
  | array {t : Ptree} (h : t.count [] ≠ 0) (hn : t.data ≠ null) : Regular t
  | node {d : Text} {cs} (hk : ∀ c ∈ cs, '.' ∉ c.fst) (h : ∀ c ∈ cs, Regular c.snd)
      (hn : d = null → cs = []) : Regular (.node d cs)

theorem key_of_count (hc : (node d cs).count [] = 0) (h : k ∈ cs.map Prod.fst) (hd : '.' ∉ k) :
    Key k := by
  refine ⟨?_, hd⟩
  intro he
  obtain ⟨c, hm, hk⟩ := List.mem_map.mp h
  have := List.filter_eq_nil_iff.mp (List.length_eq_zero_iff.mp hc) c hm
  simp [hk, he] at this

theorem put_root : put [] d t = setData d t := by
  rfl

theorem put_pathOf (hks : ∀ k ∈ ks, Key k) (hk : Key k) (hg : dest.get ks = some t) :
    dest.put (pathOf (ks ++ [k])) d = dest.modify (assign k (setData d)) ks := by
  have hc : ∀ x ∈ ks ++ [k], Key x := by
    intro x hx
    cases List.mem_append.mp hx
    case inl h => exact hks x h
    case inr h => exact List.mem_singleton.mp h ▸ hk
  have he : dest.get (ks ++ [k]) = t.child k := by simp [get_concat, hg]
  simp only [put, putChild, fragments_pathOf hc, splits_pathOf hc (by simp), he]
  cases ht : t.child k
  case some c =>
    rw [modify_append]
    apply modify_congr
    intro t' ht'
    cases hg.symm.trans ht'
    simp [Ptree.modify, assign, ht]
  case none =>
    rw [force_concat hg]
    apply modify_congr
    intro t' ht'
    cases hg.symm.trans ht'
    simp [assign, ht, leaf, setData, empty]

theorem atChild_pathOf (hks : ∀ k ∈ ks, Key k) (hg : dest.get ks = some t) :
    dest.atChild (pathOf ks) f = .ok (dest.modify f ks) := by
  simp [atChild, fragments_pathOf hks, hg]

theorem child_assign : (assign k f t).child k = some (f ((t.child k).getD empty)) := by
  cases t with | node d cs
  rw [assign]
  cases h : (node d cs).child k
  case some c => simp [child_modifyChild_self, h]
  case none   => simp [child_pushBack, h]

theorem modify_assign {g : Ptree → Ptree} :
    modify g [k] (assign k f t) = assign k (g ∘ f) t := by
  cases t with | node d cs
  simp only [assign, Ptree.modify]
  cases h : (node d cs).child k
  case some c => simp [modifyChild_modifyChild]
  case none   => simp [pushBack, modifyChild_append_new (d := d) h]

theorem addChild_key (hk : Key k) : (fun t => addChild t k s) = fun t => t.pushBack k s := by
  funext t
  simp [addChild, splits_dotless hk.right, force]

theorem lastDot_pathOf (hks : ∀ k ∈ ks, Key k) (hn : ks ≠ []) (hk : Key k) :
    lastDot (pathOf (ks ++ [k])) = some (pathOf ks, k) := by
  rw [pathOf_concat, join_pathOf hks hn hk, lastDot_append hk.right]

-- The name of the child is the last key in any case.
theorem childName_pathOf (hks : ∀ k ∈ ks, Key k) (hk : Key k) :
    childName (pathOf (ks ++ [k])) = k := by
  rw [childName]
  by_cases hn : ks = []
  case pos =>
    subst hn
    have hp : pathOf ([] ++ [k]) = k := by simp [pathOf, join, hk.left]
    rw [hp, lastDot_dotless hk.right]
  case neg => rw [lastDot_pathOf hks hn hk]

theorem pathOf_isEmpty (hks : ∀ k ∈ ks, Key k) (hk : Key k) :
    (pathOf (ks ++ [k])).isEmpty = false := by
  rw [List.isEmpty_eq_false_iff]
  apply pathOf_ne_nil _ (by simp)
  intro x hx
  cases List.mem_append.mp hx
  case inl h => exact hks x h
  case inr h => exact List.mem_singleton.mp h ▸ hk

theorem mergeNode_null (hks : ∀ k ∈ ks, Key k) (hk : Key k) (hg : dest.get ks = some t)
    (hn : ks ≠ []) (hs : s.data = null) {parentPath} :
    mergeNode s parentPath (pathOf (ks ++ [k])) dest =
      .ok (true, dest.modify (eraseKey k) ks) := by
  simp [mergeNode, hs, lastDot_pathOf hks hn hk, atChild_pathOf hks hg, bind, Except.bind, pure,
    Except.pure]

theorem mergeNode_array (hks : ∀ k ∈ ks, Key k) (hk : Key k) (hg : dest.get ks = some t)
    (hs : s.data ≠ null) (ha : s.count [] ≠ 0) :
    mergeNode s (pathOf ks) (pathOf (ks ++ [k])) dest =
      .ok (false, dest.modify (fun t => t.pushBack k s) ks) := by
  simp [mergeNode, hs, ha, pathOf_isEmpty hks hk, childName_pathOf hks hk, addChild_key hk,
    atChild_pathOf hks hg, bind, Except.bind, pure, Except.pure]

theorem mergeNode_value (hks : ∀ k ∈ ks, Key k) (hk : Key k) (hg : dest.get ks = some t)
    (hs : s.data ≠ null) (ha : s.count [] = 0) {parentPath} :
    mergeNode s parentPath (pathOf (ks ++ [k])) dest =
      .ok (true, dest.modify (assign k (setData s.data)) ks) := by
  simp [mergeNode, hs, ha, put_pathOf hks hk hg, pure, Except.pure]

theorem keys_concat (hks : ∀ k ∈ ks, Key k) (hk : Key k) : ∀ x ∈ ks ++ [k], Key x := by
  intro x hx
  cases List.mem_append.mp hx
  case inl h => exact hks x h
  case inr h => exact List.mem_singleton.mp h ▸ hk

mutual

theorem traverse_eq : ∀ (s : Ptree) {k ks dest t}, Regular s → Key k → (∀ k ∈ ks, Key k) →
    dest.get ks = some t → (s.data = null → ks ≠ []) →
    traversePropertyTree mergeNode s (pathOf ks) (pathOf (ks ++ [k])) dest =
      .ok (dest.modify (overlayChild k s) ks)
  | .node d cs, k, ks, dest, t, hr, hk, hks, hg, hn => by
    rw [traversePropertyTree]
    by_cases hd : d = null
    case pos =>
      -- There is nothing below.
      have hcs : cs = [] := by
        cases hr
        case array hn => exact absurd hd hn
        case node hn  => exact hn hd
      subst hcs
      have hf : overlayChild k (node d []) = eraseKey k := by
        funext t
        simp [overlayChild, hd]
      rw [mergeNode_null (s := node d []) hks hk hg (hn hd) hd, hf]
      rfl
    case neg =>
      by_cases ha : (node d cs).count [] = 0
      case neg =>
        have hf : overlayChild k (node d cs) = fun t => t.pushBack k (node d cs) := by
          funext t
          simp [overlayChild, hd, ha]
        rw [mergeNode_array (s := node d cs) hks hk hg hd ha, hf]
        rfl
      case pos =>
        have hf : ∀ t, overlayChild k (node d cs) t = assign k (overlay (node d cs)) t := by
          intro t
          simp [overlayChild, hd, ha]
        have hcs : ∀ c ∈ cs, Key c.fst ∧ Regular c.snd := by
          cases hr
          case array h _ => exact absurd ha h
          case node hk h _ =>
            intro c hc
            exact ⟨key_of_count ha (List.mem_map_of_mem hc) (hk c hc), h c hc⟩
        have hg' : (dest.modify (assign k (setData d)) ks).get (ks ++ [k]) =
            some (setData d ((t.child k).getD empty)) := by
          rw [get_concat, get_modify hg, Option.bind_some, child_assign]
        have hc := traverseChildren_eq cs hcs (keys_concat hks hk) hg' fun _ _ _ => by simp
        rw [mergeNode_value (s := node d cs) hks hk hg hd ha]
        refine hc.trans ?_
        rw [modify_append, modify_modify]
        congr 1
        apply modify_congr
        intro c hc
        rw [Function.comp_apply, modify_assign, hf]
        congr 1

theorem traverseChildren_eq : ∀ (cs : List (Text × Ptree)) {ks dest t},
    (∀ c ∈ cs, Key c.fst ∧ Regular c.snd) → (∀ k ∈ ks, Key k) → dest.get ks = some t →
    (∀ c ∈ cs, c.snd.data = null → ks ≠ []) →
    traverseChildren mergeNode cs (pathOf ks) dest = .ok (dest.modify (overlayAll cs) ks)
  | [], ks, dest, t, _, _, hg, _ => by
    have hf : dest.modify (overlayAll []) ks = dest := modify_eq_self fun _ => overlayAll_nil
    rw [traverseChildren, hf]
    rfl
  | (k, s) :: cs, ks, dest, t, hr, hks, hg, hn => by
    obtain ⟨hk, hs⟩ : Key k ∧ Regular s := hr (k, s) List.mem_cons_self
    have h₁ := traverse_eq s hs hk hks hg (hn (k, s) List.mem_cons_self)
    have hg' := get_modify (f := overlayChild k s) hg
    have h₂ := traverseChildren_eq cs (fun c hc => hr c (List.mem_cons_of_mem _ hc)) hks hg'
      (fun c hc => hn c (List.mem_cons_of_mem _ hc))
    rw [traverseChildren, ← pathOf_concat, h₁]
    refine h₂.trans ?_
    rw [modify_modify]
    congr 1

end

theorem mergePropertyTrees_eq (dest : Ptree) (hs : Regular s) (ha : s.count [] = 0) (hn : s.data ≠ null)
    (hc : ∀ c ∈ s.children, c.snd.data ≠ null) :
    mergePropertyTrees dest s = .ok (overlay s dest) := by
  cases s with | node d cs
  have hcs : ∀ c ∈ cs, Key c.fst ∧ Regular c.snd := by
    cases hs
    case array h _ => exact absurd ha h
    case node hk h _ =>
      intro c hc
      exact ⟨key_of_count ha (List.mem_map_of_mem hc) (hk c hc), h c hc⟩
  have hm : mergeNode (node d cs) [] [] dest = .ok (true, setData d dest) := by
    simp only [data_node] at hn
    simp [mergeNode, hn, put_root, pure, Except.pure]
  have ht : traverseChildren mergeNode cs (pathOf []) (setData d dest) =
      .ok ((setData d dest).modify (overlayAll cs) []) :=
    traverseChildren_eq cs hcs (fun _ h => by cases h) rfl fun c hm he => absurd he (hc c hm)
  rw [mergePropertyTrees, traversePropertyTree, hm, overlay_node]
  exact ht

end Yogi.Configuration
