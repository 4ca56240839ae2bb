import Mathlib
import YogiModel.Base.Ptree

-- The operations of a property tree that take a path. A path is a text with dots between the keys.
namespace Ptree

inductive PathError
  | badPath
  | outOfRange
  deriving DecidableEq

-- The parts of a text between its dots.
def splits : Text → List Text
  | []      => [[]]
  | c :: cs =>
    if c = '.' then [] :: splits cs
    else
      match splits cs with
      | []      => [[c]]
      | p :: ps => (c :: p) :: ps

-- The keys that a lookup goes through: nothing follows a dot at the end.
def fragments (path : Text) : List Text :=
  if (splits path).getLast? = some [] then (splits path).dropLast else splits path

-- `path / other`
def join (path other : Text) : Text :=
  if other = [] then path
  else if path = [] then other
  else path ++ '.' :: other

-- The text behind the last dot with what is before that dot.
def lastDot (path : Text) : Option (Text × Text) :=
  let back := path.reverse
  match back.dropWhile fun c => c != '.' with
  | []        => none
  | _ :: rest => some (rest.reverse, (back.takeWhile fun c => c != '.').reverse)

def get (t : Ptree) : List Text → Option Ptree
  | []      => some t
  | k :: ks => (t.child k).bind fun c => c.get ks

-- Changes the first child with the key.
def modifyChild (key : Text) (f : Ptree → Ptree) : List (Text × Ptree) → List (Text × Ptree)
  | []           => []
  | (k, t) :: cs => if k = key then (k, f t) :: cs else (k, t) :: modifyChild key f cs

def modify (f : Ptree → Ptree) : List Text → Ptree → Ptree
  | [], t      => f t
  | k :: ks, t => node t.data (modifyChild k (modify f ks) t.children)

def setData (d : Text) (t : Ptree) : Ptree :=
  node d t.children

def pushBack (t : Ptree) (key : Text) (child : Ptree) : Ptree :=
  node t.data (t.children ++ [(key, child)])

def eraseKey (key : Text) (t : Ptree) : Ptree :=
  node t.data (t.children.filter fun c => c.fst != key)

def empty : Ptree :=
  node [] []

-- Creates what is missing on the way to the last key.
def force (f : Text → Ptree → Ptree) : List Text → Ptree → Ptree
  | [], t       => t
  | [key], t    => f key t
  | k :: ks, t  =>
    match t.child k with
    | some _ => node t.data (modifyChild k (force f ks) t.children)
    | none   => t.pushBack k (force f ks empty)

def count (t : Ptree) (key : Text) : Nat :=
  (t.children.filter fun c => c.fst == key).length

def getChild (t : Ptree) (path : Text) : Except PathError Ptree :=
  match t.get (fragments path) with
  | some c => .ok c
  | none   => .error .badPath

def putChild (t : Ptree) (path : Text) (value : Ptree) : Ptree :=
  force (fun key parent =>
    match parent.child key with
    | some _ => node parent.data (modifyChild key (fun _ => value) parent.children)
    | none   => parent.pushBack key value) (splits path) t

def addChild (t : Ptree) (path : Text) (value : Ptree) : Ptree :=
  force (fun key parent => parent.pushBack key value) (splits path) t

def put (path : Text) (data : Text) (t : Ptree) : Ptree :=
  match t.get (fragments path) with
  | some _ => t.modify (setData data) (fragments path)
  | none   => t.putChild path (leaf data)

-- `t.get_child(path)` with a function that is called for the result.
def atChild (path : Text) (f : Ptree → Ptree) (t : Ptree) : Except PathError Ptree :=
  match t.get (fragments path) with
  | some _ => .ok (t.modify f (fragments path))
  | none   => .error .badPath

-- What a path consists of usually.
def Key (k : Text) : Prop :=
  k ≠ [] ∧ '.' ∉ k

instance {k : Text} : Decidable (Key k) :=
  inferInstanceAs (Decidable (k ≠ [] ∧ '.' ∉ k))

def pathOf (ks : List Text) : Text :=
  ks.foldl join []

variable {k d : Text} {ks : List Text} {t c : Ptree} {cs : List (Text × Ptree)} {f g : Ptree → Ptree}

theorem pathOf_concat : pathOf (ks ++ [k]) = join (pathOf ks) k := by
  simp [pathOf]

theorem pathOf_ne_nil (h : ∀ k ∈ ks, Key k) (hn : ks ≠ []) : pathOf ks ≠ [] := by
  induction ks using List.reverseRecOn
  case nil                => exact absurd rfl hn
  case append_singleton ks k _ =>
    have hk := (h k (by simp)).left
    rw [pathOf_concat, join]
    split
    case isTrue he  => exact absurd he hk
    case isFalse =>
      split
      case isTrue  => exact hk
      case isFalse => simp

theorem join_pathOf (h : ∀ k ∈ ks, Key k) (hn : ks ≠ []) (hk : Key k) :
    join (pathOf ks) k = pathOf ks ++ '.' :: k := by
  simp [join, hk.left, pathOf_ne_nil h hn]

theorem splits_ne_nil {p : Text} : splits p ≠ [] := by
  cases p
  case nil       => simp [splits]
  case cons x xs =>
    rw [splits]
    split
    case isTrue  => simp
    case isFalse => split <;> simp

theorem splits_dot {p : Text} : splits ('.' :: p) = [] :: splits p :=
  rfl

theorem splits_cons {c : Char} {p : Text} (h : c ≠ '.') :
    splits (c :: p) = (splits p).modifyHead (c :: ·) := by
  rw [splits, if_neg h]
  cases hp : splits p
  case nil  => exact absurd hp splits_ne_nil
  case cons => rfl

theorem splits_dotless (h : '.' ∉ k) : splits k = [k] := by
  induction k
  case nil         => rfl
  case cons c k ih =>
    have hc : c ≠ '.' := fun he => h (he ▸ List.mem_cons_self)
    rw [splits_cons hc, ih fun hm => h (List.mem_cons_of_mem c hm)]
    rfl

theorem splits_append {p : Text} (h : '.' ∉ k) : splits (p ++ '.' :: k) = splits p ++ [k] := by
  induction p
  case nil         => rw [List.nil_append, splits_dot, splits_dotless h]; rfl
  case cons c p ih =>
    rw [List.cons_append]
    by_cases hc : c = '.'
    case pos => rw [hc, splits_dot, splits_dot, ih, List.cons_append]
    case neg =>
      rw [splits_cons hc, splits_cons hc, ih]
      cases hp : splits p
      case nil  => exact absurd hp splits_ne_nil
      case cons => rfl

theorem splits_pathOf (h : ∀ k ∈ ks, Key k) (hn : ks ≠ []) : splits (pathOf ks) = ks := by
  induction ks using List.reverseRecOn
  case nil              => exact absurd rfl hn
  case append_singleton ks k ih =>
    have hk := h k (by simp)
    have hks : ∀ k ∈ ks, Key k := fun x hx => h x (List.mem_append_left [k] hx)
    rw [pathOf_concat]
    by_cases he : ks = []
    case pos =>
      subst he
      simp [join, pathOf, hk.left, splits_dotless hk.right]
    case neg => rw [join_pathOf hks he hk, splits_append hk.right, ih hks he]

theorem fragments_pathOf (h : ∀ k ∈ ks, Key k) : fragments (pathOf ks) = ks := by
  by_cases hn : ks = []
  case pos =>
    subst hn
    rfl
  case neg =>
    have hl : ks.getLast? ≠ some [] := by
      intro hl
      exact (h [] (List.mem_of_getLast? hl)).left rfl
    simp [fragments, splits_pathOf h hn, hl]

theorem lastDot_dotless (h : '.' ∉ k) : lastDot k = none := by
  have hd : k.reverse.dropWhile (fun c => c != '.') = [] := by
    simp only [List.dropWhile_eq_nil_iff, bne_iff_ne]
    intro c hc
    exact fun he => h (he ▸ List.mem_reverse.mp hc)
  simp [lastDot, hd]

theorem lastDot_append {p : Text} (h : '.' ∉ k) : lastDot (p ++ '.' :: k) = some (p, k) := by
  have hk : ∀ c ∈ k.reverse, (c != '.') = true := by
    intro c hc
    simp only [bne_iff_ne]
    exact fun he => h (he ▸ List.mem_reverse.mp hc)
  have hr : (p ++ '.' :: k).reverse = k.reverse ++ '.' :: p.reverse := by simp
  simp [lastDot, hr, List.dropWhile_append_of_pos hk, List.takeWhile_append_of_pos hk]

-- The children with a key.

@[simp] theorem child_node_nil : (node d []).child k = none :=
  rfl

theorem child_cons {x : Text × Ptree} :
    (node d (x :: cs)).child k = if x.fst = k then some x.snd else (node d cs).child k := by
  by_cases h : x.fst = k <;> simp [child, h]

theorem child_eq_none : t.child k = none ↔ ∀ c ∈ t.children, c.fst ≠ k := by
  simp [child]

theorem get_nil : t.get [] = some t :=
  rfl

theorem get_cons : t.get (k :: ks) = (t.child k).bind fun c => c.get ks :=
  rfl

theorem modifyChild_cons {x : Text × Ptree} :
    modifyChild k f (x :: cs) = if x.fst = k then (x.fst, f x.snd) :: cs else x :: modifyChild k f cs :=
  rfl

theorem modify_cons : modify f (k :: ks) t = node t.data (modifyChild k (modify f ks) t.children) :=
  rfl

theorem get_append {ks' : List Text} : t.get (ks ++ ks') = (t.get ks).bind fun c => c.get ks' := by
  induction ks generalizing t
  case nil          => rfl
  case cons k ks ih =>
    simp only [List.cons_append, get_cons]
    cases t.child k
    case none   => rfl
    case some c => exact ih

theorem get_concat : t.get (ks ++ [k]) = (t.get ks).bind fun c => c.child k := by
  rw [get_append]
  simp [get_cons, get_nil]

theorem child_modifyChild_self :
    (node d (modifyChild k f cs)).child k = ((node d cs).child k).map f := by
  induction cs
  case nil          => rfl
  case cons x cs ih =>
    rw [modifyChild_cons, child_cons]
    by_cases h : x.fst = k <;> simp [h, child_cons, ih]

theorem child_modifyChild {k' : Text} (h : k ≠ k') :
    (node d (modifyChild k f cs)).child k' = (node d cs).child k' := by
  induction cs
  case nil          => rfl
  case cons x cs ih =>
    rw [modifyChild_cons, child_cons]
    by_cases hx : x.fst = k
    case pos =>
      have hne : x.fst ≠ k' := fun he => h (hx ▸ he)
      simp [hx, h, child_cons]
    case neg => simp [hx, child_cons, ih]

theorem child_pushBack {k' : Text} :
    (t.pushBack k c).child k' = (t.child k').or (if k = k' then some c else none) := by
  cases t with | node d cs
  rw [pushBack, data_node, children_node]
  induction cs
  case nil          => simp [child_cons]
  case cons x cs ih =>
    rw [List.cons_append, child_cons, child_cons, ih]
    by_cases h : x.fst = k' <;> simp [h]

theorem child_eraseKey_self : (t.eraseKey k).child k = none := by
  simp [child_eq_none, eraseKey]

theorem child_eraseKey {k' : Text} (h : k ≠ k') : (t.eraseKey k).child k' = t.child k' := by
  cases t with | node d cs
  rw [eraseKey, data_node, children_node]
  induction cs
  case nil          => rfl
  case cons x cs ih =>
    rw [List.filter_cons]
    by_cases hx : x.fst = k
    case pos =>
      have hne : x.fst ≠ k' := fun he => h (hx ▸ he)
      simp [hx, h, child_cons, ih]
    case neg => simp [hx, child_cons, ih]

theorem modifyChild_modifyChild :
    modifyChild k f (modifyChild k g cs) = modifyChild k (f ∘ g) cs := by
  induction cs
  case nil          => rfl
  case cons x cs ih => by_cases h : x.fst = k <;> simp [modifyChild_cons, h, ih]

theorem modifyChild_congr (h : ∀ c, (node d cs).child k = some c → f c = g c) :
    modifyChild k f cs = modifyChild k g cs := by
  induction cs
  case nil          => rfl
  case cons x cs ih =>
    rw [modifyChild_cons, modifyChild_cons]
    by_cases hx : x.fst = k
    case pos => simp [hx, h x.snd (by simp [child_cons, hx])]
    case neg => simp [hx, ih fun c hc => h c (by simp [child_cons, hx, hc])]

theorem modifyChild_append_new (h : (node d cs).child k = none) :
    modifyChild k f (cs ++ [(k, c)]) = cs ++ [(k, f c)] := by
  induction cs
  case nil          => simp [modifyChild_cons]
  case cons x cs ih =>
    rw [child_cons] at h
    by_cases hx : x.fst = k
    case pos => simp [hx] at h
    case neg => simp [modifyChild_cons, hx, ih (by simpa [hx] using h)]

-- Changes below a path.

theorem modify_append {ks' : List Text} : modify f (ks ++ ks') t = modify (modify f ks') ks t := by
  induction ks generalizing t
  case nil          => rfl
  case cons k ks ih =>
    simp only [List.cons_append, modify_cons]
    congr 1
    exact modifyChild_congr (d := t.data) fun c _ => ih

theorem modify_modify : modify f ks (modify g ks t) = modify (f ∘ g) ks t := by
  induction ks generalizing t
  case nil          => rfl
  case cons k ks ih =>
    simp only [modify_cons, data_node, children_node, modifyChild_modifyChild]
    congr 1
    exact modifyChild_congr (d := t.data) fun c _ => ih

theorem modify_congr (h : ∀ c, t.get ks = some c → f c = g c) : modify f ks t = modify g ks t := by
  induction ks generalizing t
  case nil          => exact h t rfl
  case cons k ks ih =>
    simp only [modify_cons]
    congr 1
    apply modifyChild_congr (d := t.data)
    intro c hc
    apply ih
    intro c' hc'
    exact h c' (by cases t; simp_all [get_cons])

theorem modifyChild_eq_self (h : ∀ c, (node d cs).child k = some c → f c = c) :
    modifyChild k f cs = cs := by
  induction cs
  case nil          => rfl
  case cons x cs ih =>
    rw [modifyChild_cons]
    by_cases hx : x.fst = k
    case pos =>
      subst hx
      simp [h x.snd (by simp [child_cons])]
    case neg => simp [hx, ih fun c hc => h c (by simp [child_cons, hx, hc])]

theorem modify_eq_self (h : ∀ c, f c = c) : modify f ks t = t := by
  induction ks generalizing t
  case nil          => exact h t
  case cons k ks ih =>
    cases t with | node d cs
    rw [modify_cons, data_node, children_node, modifyChild_eq_self (d := d) fun c _ => ih]

theorem get_modify (h : t.get ks = some c) : (modify f ks t).get ks = some (f c) := by
  induction ks generalizing t
  case nil =>
    cases h
    rfl
  case cons k ks ih =>
    cases t with | node d cs
    simp only [get_cons, Option.bind_eq_some_iff] at h
    obtain ⟨c', hc, h⟩ := h
    simp [modify_cons, get_cons, child_modifyChild_self, hc, ih h]

theorem force_concat {f : Text → Ptree → Ptree} (h : t.get ks = some c) :
    force f (ks ++ [k]) t = modify (f k) ks t := by
  induction ks generalizing t
  case nil           => rfl
  case cons k' ks ih =>
    simp only [get_cons, Option.bind_eq_some_iff] at h
    obtain ⟨c', hc, h⟩ := h
    have he : force f (k' :: ks ++ [k]) t =
        match t.child k' with
        | some _ => node t.data (modifyChild k' (force f (ks ++ [k])) t.children)
        | none   => t.pushBack k' (force f (ks ++ [k]) empty) := by
      cases ks <;> rfl
    rw [he, hc, modify_cons]
    simp only
    congr 1
    apply modifyChild_congr (d := t.data)
    intro c'' hc'
    have hcc : c'' = c' := by
      cases t
      simp_all
    exact ih (hcc ▸ h)

-- How often a key occurs.

theorem count_pushBack_self : (t.pushBack k c).count k = t.count k + 1 := by
  simp [count, pushBack]

theorem count_pushBack {k' : Text} (h : k ≠ k') : (t.pushBack k c).count k' = t.count k' := by
  simp [count, pushBack, h]

theorem count_eraseKey {k' : Text} (h : k ≠ k') : (t.eraseKey k).count k' = t.count k' := by
  simp only [count, eraseKey, children_node, List.filter_filter]
  congr 2
  funext c
  by_cases hc : c.fst = k'
  case pos =>
    have hn : c.fst ≠ k := fun he => h (he ▸ hc)
    simp [hc, Ne.symm h]
  case neg => simp [hc]

theorem map_fst_modifyChild : (modifyChild k f cs).map Prod.fst = cs.map Prod.fst := by
  induction cs
  case nil          => rfl
  case cons x cs ih => by_cases h : x.fst = k <;> simp [modifyChild_cons, h, ih]

theorem count_eq_count_map : t.count k = (t.children.map Prod.fst).count k := by
  rw [count, List.count, List.countP_map, List.countP_eq_length_filter]
  rfl

theorem mem_modifyChild {x : Text × Ptree} (h : x ∈ modifyChild k f cs) :
    x ∈ cs ∨ ∃ c, (k, c) ∈ cs ∧ x = (k, f c) := by
  induction cs
  case nil          => cases h
  case cons y cs ih =>
    rw [modifyChild_cons] at h
    split at h
    case isTrue hy =>
      subst hy
      cases List.mem_cons.mp h
      case inl he => exact .inr ⟨y.snd, List.mem_cons_self, he⟩
      case inr hm => exact .inl (List.mem_cons_of_mem y hm)
    case isFalse =>
      cases List.mem_cons.mp h
      case inl he => exact .inl (he ▸ List.mem_cons_self)
      case inr hm =>
        cases ih hm
        case inl hm => exact .inl (List.mem_cons_of_mem y hm)
        case inr hm =>
          obtain ⟨c, hc, he⟩ := hm
          exact .inr ⟨c, List.mem_cons_of_mem y hc, he⟩

end Ptree
