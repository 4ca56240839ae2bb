import Mathlib
import YogiModel.Base.JsonParser
import YogiModel.Base.JsonStrings

-- JSON texts with the values that they stand for, of which a property tree only keeps the texts.
namespace Json

-- The entries of an array have empty keys.
inductive Value
  | null
  | bool (b : Bool)
  | number (w : Text)
  | string (s : Text)
  | group (object : Bool) (es : List (Text × Value))

namespace Value

def boolName (b : Bool) : Text :=
  if b then "true".toList else "false".toList

mutual

def toPtree : Value → Ptree
  | null       => .leaf "null".toList
  | bool b     => .leaf (boolName b)
  | number w   => .leaf w
  | string s   => .leaf s
  | group _ es => .node [] (toPtrees es)

def toPtrees : List (Text × Value) → List (Text × Ptree)
  | []           => []
  | (k, v) :: es => (k, v.toPtree) :: toPtrees es

end

end Value

inductive ValuePart
  | value (v : Value)
  | entry (object : Bool) (e : Text × Value)
  | entries (object : Bool) (es : List (Text × Value))

inductive Denotes : ValuePart → Text → Prop
  | null : Denotes (.value .null) "null".toList
  | bool {b} : Denotes (.value (.bool b)) (Value.boolName b)
  | number {w} (h : isNumber w = true) : Denotes (.value (.number w)) w
  | string {w s} (h : Literal w s) : Denotes (.value (.string s)) ('"' :: w ++ ['"'])
  | empty {b w} (h : Spaces w) : Denotes (.value (.group b [])) (opening b :: w ++ [closing b])
  | group {b es w} (h : Denotes (.entries b es) w) :
      Denotes (.value (.group b es)) (opening b :: w ++ [closing b])
  | element {w₁ v w w₂} (h₁ : Spaces w₁) (h : Denotes (.value v) w) (h₂ : Spaces w₂) :
      Denotes (.entry false ([], v)) (w₁ ++ w ++ w₂)
  | member {w₁ l k w₂ w₃ v w w₄} (h₁ : Spaces w₁) (hl : Literal l k) (h₂ : Spaces w₂) (h₃ : Spaces w₃)
      (h : Denotes (.value v) w) (h₄ : Spaces w₄) :
      Denotes (.entry true (k, v)) (w₁ ++ '"' :: l ++ '"' :: w₂ ++ ':' :: w₃ ++ w ++ w₄)
  | one {b e w} (h : Denotes (.entry b e) w) : Denotes (.entries b [e]) w
  | more {b e es w w'} (h : Denotes (.entry b e) w) (h' : Denotes (.entries b es) w') :
      Denotes (.entries b (e :: es)) (w ++ ',' :: w')

def IsDocument (s : Text) (v : Value) : Prop :=
  ∃ w₁ w w₂, Spaces w₁ ∧ Denotes (.value v) w ∧ Spaces w₂ ∧ s = w₁ ++ w ++ w₂

def ValuePart.toPart : ValuePart → Part
  | value v      => .tree v.toPtree
  | entry b e    => .entry b (e.1, e.2.toPtree)
  | entries b es => .entries b (Value.toPtrees es)

-- A property tree is what is left of a value.
theorem Denotes.derives {p w} (h : Denotes p w) : Derives p.toPart w := by
  induction h
  case null                           => exact .name (by decide)
  case bool b                         => cases b <;> exact .name (by decide)
  case number h                       => exact .number h
  case string h                       => exact .string h
  case empty h                        => exact .empty h
  case group ih                       => exact .group ih
  case element h₁ _ h₂ ih             => exact .element h₁ ih h₂
  case member h₁ hl h₂ h₃ _ h₄ ih     => exact .member h₁ hl h₂ h₃ ih h₄
  case one ih                         => exact .one ih
  case more ih ih'                    => exact .more ih ih'

theorem IsDocument.isText {s v} (h : IsDocument s v) : IsText s v.toPtree := by
  obtain ⟨w₁, w, w₂, h₁, h, h₂, rfl⟩ := h
  exact ⟨w₁, w, w₂, h₁, h.derives, h₂, rfl⟩

-- A text of the grammar can be taken apart in one way only.

theorem tree_split {t t' : Ptree} {w w' rest rest' : Text} (h : Derives (.tree t) w)
    (h' : Derives (.tree t') w') (he : w ++ rest = w' ++ rest') (hf : Follow rest) (hf' : Follow rest') :
    t = t' ∧ w = w' := by
  have hr := reads_of_derives h (w.length + w'.length + 1) rest (by omega) hf
  have hr' := reads_of_derives h' (w.length + w'.length + 1) rest' (by omega) hf'
  rw [he, hr'] at hr
  cases hr
  exact ⟨rfl, List.append_cancel_right he⟩

theorem entry_split {b : Bool} {e e' : Text × Ptree} {w w' rest rest' : Text} {c c' : Char}
    (h : Derives (.entry b e) w) (h' : Derives (.entry b e') w') (he : w ++ c :: rest = w' ++ c' :: rest')
    (hc : c ∈ [',', ']', '}']) (hc' : c' ∈ [',', ']', '}']) : c = c' ∧ w = w' ∧ rest = rest' := by
  have hr := reads_of_derives h (w.length + w'.length + 1) c rest (by omega) hc
  have hr' := reads_of_derives h' (w.length + w'.length + 1) c' rest' (by omega) hc'
  rw [he, hr'] at hr
  cases hr
  exact ⟨rfl, List.append_cancel_right he, rfl⟩

inductive Kind
  | null
  | bool
  | number
  | string
  | group (object : Bool)
  deriving DecidableEq

def Value.kind : Value → Kind
  | null      => .null
  | bool _    => .bool
  | number _  => .number
  | string _  => .string
  | group b _ => .group b

-- The kind of a value is known from its first character.
def kindOf (c : Char) : Kind :=
  if c = '"' then .string
  else if c = '{' then .group true
  else if c = '[' then .group false
  else if c = 'n' then .null
  else if c = 't' ∨ c = 'f' then .bool
  else .number

theorem kindOf_number {c : Char} (h : c = '-' ∨ c.isDigit = true) : kindOf c = .number := by
  have hne : ∀ x : Char, x.isDigit = false → x ≠ '-' → c ≠ x := by
    intro x hd hm he
    subst he
    cases h
    case inl h => exact hm h
    case inr h => cases hd.symm.trans h
  simp [kindOf, hne '"' rfl (by decide), hne '{' rfl (by decide), hne '[' rfl (by decide),
    hne 'n' rfl (by decide), hne 't' rfl (by decide), hne 'f' rfl (by decide)]

theorem Denotes.kind {v w} (h : Denotes (.value v) w) : ∃ c r, w = c :: r ∧ v.kind = kindOf c := by
  cases h
  case null     => exact ⟨_, _, rfl, rfl⟩
  case bool b   => cases b <;> exact ⟨_, _, rfl, rfl⟩
  case number h =>
    obtain ⟨c, r, rfl, hc⟩ := isNumber_head h
    exact ⟨c, r, rfl, (kindOf_number hc).symm⟩
  case string   => exact ⟨_, _, rfl, rfl⟩
  case empty b _ _ => cases b <;> exact ⟨_, _, rfl, rfl⟩
  case group b _ _ _ => cases b <;> exact ⟨_, _, rfl, rfl⟩

theorem kind_unique {v v' w} (h : Denotes (.value v) w) (h' : Denotes (.value v') w) : v.kind = v'.kind := by
  obtain ⟨c, r, rfl, hk⟩ := h.kind
  obtain ⟨c', r', he, hk'⟩ := h'.kind
  cases he
  exact hk.trans hk'.symm

theorem Denotes.of_bool {b w} (h : Denotes (.value (.bool b)) w) : w = Value.boolName b := by
  cases h
  rfl

theorem Denotes.of_number {n w} (h : Denotes (.value (.number n)) w) : w = n := by
  cases h
  rfl

theorem Denotes.of_group {b es w} (h : Denotes (.value (.group b es)) w) :
    ∃ u, w = opening b :: u ++ [closing b] ∧ (es = [] ∧ Spaces u ∨ Denotes (.entries b es) u) := by
  cases h
  case empty h => exact ⟨_, rfl, .inl ⟨rfl, h⟩⟩
  case group h => exact ⟨_, rfl, .inr h⟩

theorem Denotes.entries_ne_nil {b es w} (h : Denotes (.entries b es) w) : es ≠ [] := by
  cases h <;> simp

theorem toPtree_unique {v v' w} (h : Denotes (.value v) w) (h' : Denotes (.value v') w) :
    v.toPtree = v'.toPtree :=
  have hf : Follow [] := by simp [Follow]
  (tree_split h.derives h'.derives (show w ++ [] = w ++ [] from rfl) hf hf).left

def Unique : ValuePart → Text → Prop
  | .value v, w      => ∀ v', Denotes (.value v') w → v = v'
  | .entry b e, w    => ∀ e', Denotes (.entry b e') w → e = e'
  | .entries b es, w => ∀ es', Denotes (.entries b es') w → es = es'

theorem literal_split {l l' k k' rest rest' : Text} (h : Literal l k) (h' : Literal l' k')
    (he : l ++ '"' :: rest = l' ++ '"' :: rest') : k = k' ∧ rest = rest' := by
  have hr : readLiteral (l.length + l'.length + 1) (l ++ '"' :: rest) = some (k, rest) :=
    readLiteral_of_literal h (by omega)
  have hr' : readLiteral (l.length + l'.length + 1) (l' ++ '"' :: rest') = some (k', rest') :=
    readLiteral_of_literal h' (by omega)
  rw [he, hr'] at hr
  cases hr
  exact ⟨rfl, rfl⟩

-- The spaces before a delimiter do not matter.
theorem spaces_split {u u' rest rest' : Text} {c : Char} (h : Spaces u) (h' : Spaces u')
    (hc : isSpace c = false) (he : u ++ c :: rest = u' ++ c :: rest') : rest = rest' := by
  have hs := congrArg skipSpaces he
  rw [skipSpaces_append h, skipSpaces_append h', skipSpaces_cons hc, skipSpaces_cons hc] at hs
  exact (List.cons.inj hs).right

theorem quote_split {w₁ w₁' l l' w₂ w₂' w₃ w₃' w w' w₄ w₄' : Text} (h : Spaces w₁) (h' : Spaces w₁')
    (he : w₁ ++ '"' :: l ++ '"' :: w₂ ++ ':' :: w₃ ++ w ++ w₄ =
      w₁' ++ '"' :: l' ++ '"' :: w₂' ++ ':' :: w₃' ++ w' ++ w₄') :
    l ++ '"' :: (w₂ ++ ':' :: (w₃ ++ (w ++ w₄))) = l' ++ '"' :: (w₂' ++ ':' :: (w₃' ++ (w' ++ w₄'))) := by
  refine spaces_split h h' (show isSpace '"' = false from rfl) ?_
  simpa using he

theorem Denotes.unique {p w} (h : Denotes p w) : Unique p w := by
  induction h
  case null =>
    intro v' h'
    have hk := kind_unique .null h'
    cases v' <;> simp [Value.kind] at hk ⊢
  case bool b =>
    intro v' h'
    have hk := kind_unique .bool h'
    cases v' <;> simp [Value.kind] at hk ⊢
    case bool b' =>
      have := h'.of_bool
      revert this
      cases b <;> cases b' <;> decide
  case number hn =>
    intro v' h'
    have hk := kind_unique (.number hn) h'
    cases v' <;> simp [Value.kind] at hk ⊢
    case number => exact h'.of_number
  case string hl =>
    intro v' h'
    have hk := kind_unique (.string hl) h'
    have ht := toPtree_unique (.string hl) h'
    cases v' <;> simp [Value.kind] at hk ⊢
    case string => simpa [Value.toPtree, Ptree.leaf] using ht
  case empty b w hs =>
    intro v' h'
    have hk := kind_unique (.empty hs) h'
    have ht := toPtree_unique (.empty hs) h'
    cases v' <;> simp [Value.kind] at hk ⊢
    case group b' es =>
      refine ⟨hk, ?_⟩
      cases es
      case nil  => rfl
      case cons => simp [Value.toPtree, Value.toPtrees] at ht
  case group b es w h ih =>
    intro v' h'
    have hk := kind_unique (.group h) h'
    have ht := toPtree_unique (.group h) h'
    cases v' <;> simp [Value.kind] at hk ⊢
    case group b' es' =>
      subst hk
      refine ⟨rfl, ?_⟩
      obtain ⟨u, he, hu⟩ := h'.of_group
      obtain rfl : w = u := by simpa using he
      cases hu
      case inl hu =>
        have hne := h.entries_ne_nil
        cases es
        case nil  => exact absurd rfl hne
        case cons => simp [hu.left, Value.toPtree, Value.toPtrees] at ht
      case inr hu => exact ih es' hu
  case element w₁ v w w₂ h₁ h h₂ ih =>
    rintro ⟨k', v'⟩ h'
    generalize hw : w₁ ++ w ++ w₂ = x at h'
    cases h'
    case element w₁' w' w₂' h₁' h₂' h' =>
      have hs := congrArg skipSpaces hw
      rw [List.append_assoc, List.append_assoc, skipSpaces_append h₁, skipSpaces_append h₁',
        skipSpaces_tree h.derives, skipSpaces_tree h'.derives] at hs
      obtain ⟨_, rfl⟩ := tree_split h.derives h'.derives hs (follow_of_spaces h₂) (follow_of_spaces h₂')
      rw [ih v' h']
  case member w₁ l k w₂ w₃ v w w₄ h₁ hl h₂ h₃ h h₄ ih =>
    rintro ⟨k', v'⟩ h'
    generalize hw : w₁ ++ '"' :: l ++ '"' :: w₂ ++ ':' :: w₃ ++ w ++ w₄ = x at h'
    cases h'
    case member w₁' l' w₂' w₃' w' w₄' h₁' h₂' h₃' h₄' hl' h' =>
      obtain ⟨rfl, hs⟩ := literal_split hl hl' (quote_split h₁ h₁' hw)
      have hs := congrArg skipSpaces (spaces_split h₂ h₂' (show isSpace ':' = false from rfl) hs)
      rw [skipSpaces_append h₃, skipSpaces_append h₃', skipSpaces_tree h.derives,
        skipSpaces_tree h'.derives] at hs
      obtain ⟨_, rfl⟩ := tree_split h.derives h'.derives hs (follow_of_spaces h₄) (follow_of_spaces h₄')
      rw [ih v' h']
  case one b e w h ih =>
    intro es' h'
    cases h'
    case one e' h' => rw [ih e' h']
    case more e' es' w₁ w₂ h₁ h₂ =>
      have he : w₁ ++ ',' :: w₂ ++ ']' :: [] = w₁ ++ ',' :: (w₂ ++ [']']) := by simp
      have hc := (entry_split h.derives h₁.derives he (by decide) (by decide)).left
      exact absurd hc (by decide)
  case more b e es w w' h hs ih ih' =>
    intro es' h'
    generalize hw : w ++ ',' :: w' = x at h'
    cases h'
    case one e' h' =>
      have he : w ++ ',' :: (w' ++ [']']) = x ++ ']' :: [] := by simp [← hw]
      have hc := (entry_split h.derives h'.derives he (by decide) (by decide)).left
      exact absurd hc (by decide)
    case more e' es' w₁ w₂ h₁ h₂ =>
      obtain ⟨_, rfl, rfl⟩ := entry_split h.derives h₁.derives hw (by decide) (by decide)
      rw [ih e' h₁, ih' es' h₂]

theorem IsDocument.unique {s v v'} (h : IsDocument s v) (h' : IsDocument s v') : v = v' := by
  obtain ⟨w₁, w, w₂, h₁, h, h₂, rfl⟩ := h
  obtain ⟨w₁', w', w₂', h₁', h', h₂', he⟩ := h'
  have hs := congrArg skipSpaces he
  rw [List.append_assoc, List.append_assoc, skipSpaces_append h₁, skipSpaces_append h₁',
    skipSpaces_tree h.derives, skipSpaces_tree h'.derives] at hs
  obtain ⟨_, rfl⟩ := tree_split h.derives h'.derives hs (follow_of_spaces h₂) (follow_of_spaces h₂')
  exact h.unique v' h'

-- The number of characters without which a string or a value cannot be written.

def charLength (c : Char) : Nat :=
  if c = '"' ∨ c = '\\' ∨ c < ' ' then 2 else 1

def textLength (s : Text) : Nat :=
  (s.map charLength).sum

mutual

def Value.length : Value → Nat
  | .null      => 4
  | .bool b    => (boolName b).length
  | .number w  => w.length
  | .string s  => textLength s + 2
  | .group b es => groupLength b es + if es.isEmpty then 2 else 1

-- An entry and the delimiter behind it.
def Value.groupLength (object : Bool) : List (Text × Value) → Nat
  | []           => 0
  | (k, v) :: es => (if object then textLength k + 3 else 0) + v.length + 1 + groupLength object es

end

def ValuePart.length : ValuePart → Nat
  | .value v      => v.length
  | .entry b e    => (if b then textLength e.1 + 3 else 0) + e.2.length
  | .entries b es => Value.groupLength b es - 1

theorem Encodes.length_le {u c} (h : Encodes u c) : charLength c ≤ u.length := by
  simp only [charLength]
  cases h
  case plain hq hb hc => simp [hq, hb, not_lt.mpr hc]
  all_goals
    split
    all_goals simp

theorem Literal.length_le {l s} (h : Literal l s) : textLength s ≤ l.length := by
  induction h
  case nil                => simp [textLength]
  case cons u c w s hu _ ih =>
    have := hu.length_le
    simp only [textLength, List.map_cons, List.sum_cons, List.length_append] at ih ⊢
    omega

theorem Denotes.length_le {p w} (h : Denotes p w) : p.length ≤ w.length := by
  induction h
  case null              => simp [ValuePart.length, Value.length]
  case bool              => simp [ValuePart.length, Value.length]
  case number            => simp [ValuePart.length, Value.length]
  case string hl         =>
    have := hl.length_le
    simp [ValuePart.length, Value.length]
    omega
  case empty             => simp [ValuePart.length, Value.length, Value.groupLength]
  case group h ih        =>
    have hne := h.entries_ne_nil
    simp [ValuePart.length, Value.length, hne] at ih ⊢
    omega
  case element ih        =>
    simp [ValuePart.length] at ih ⊢
    omega
  case member hl _ _ _ _ ih =>
    have := hl.length_le
    simp [ValuePart.length] at ih ⊢
    omega
  case one ih            =>
    simp [ValuePart.length, Value.groupLength] at ih ⊢
    omega
  case more ih ih'       =>
    simp [ValuePart.length, Value.groupLength] at ih ih' ⊢
    omega

theorem IsDocument.length_le {s v} (h : IsDocument s v) : v.length ≤ s.length := by
  obtain ⟨w₁, w, w₂, _, h, _, rfl⟩ := h
  have := h.length_le
  simp [ValuePart.length] at this ⊢
  omega

theorem length_le_textLength {s : Text} : s.length ≤ textLength s := by
  induction s
  case nil         => simp
  case cons c s ih =>
    have : 1 ≤ charLength c := by
      simp only [charLength]
      split <;> omega
    simp only [textLength, List.map_cons, List.sum_cons, List.length_cons] at ih ⊢
    omega

theorem clean_of_textLength {s : Text} (h : textLength s ≤ s.length) : Clean s := by
  induction s
  case nil         => exact fun _ hc => by cases hc
  case cons c s ih =>
    have hle := length_le_textLength (s := s)
    have hc : charLength c = 1 ∨ charLength c = 2 := by
      simp only [charLength]
      split <;> simp
    simp only [textLength, List.map_cons, List.sum_cons, List.length_cons] at h hle ih
    intro x hx
    cases List.mem_cons.mp hx
    case inl hx =>
      have hone : charLength c = 1 := by omega
      simp only [charLength] at hone
      split at hone
      case isTrue     => omega
      case isFalse hn =>
        simp only [not_or, not_lt] at hn
        exact hx ▸ hn
    case inr hx => exact ih (by omega) x hx

theorem textLength_of_clean {s : Text} (h : Clean s) : textLength s = s.length := by
  have hc : ∀ c ∈ s, charLength c = 1 := by
    intro c hc
    obtain ⟨hq, hb, hs⟩ := h c hc
    simp [charLength, hq, hb, not_lt.mpr hs]
  rw [textLength, List.map_congr_left hc]
  simp

-- The text is valid and there is one value that it stands for.
def ParsesTo (s : Text) (v : Value) : Prop :=
  ∀ v', IsDocument s v' ↔ v' = v

theorem parsesTo_iff {s v} : ParsesTo s v ↔ IsDocument s v := by
  constructor
  case mp  => exact fun h => (h v).mpr rfl
  case mpr => exact fun h v' => ⟨fun h' => h'.unique h, fun he => he ▸ h⟩

-- The entries of a group are separated by commas.
theorem denotes_intercalate {b : Bool} {es ws} (h : List.Forall₂ (fun e w => Denotes (.entry b e) w) es ws)
    (hne : es ≠ []) : Denotes (.entries b es) ([','].intercalate ws) := by
  induction h
  case nil                          => exact absurd rfl hne
  case cons e w es ws he hes ih =>
    cases hes
    case nil               => simpa using Denotes.one he
    case cons e' w' es ws h h' => simpa using Denotes.more he (ih (by simp))

theorem denotes_group {b : Bool} {es ws} (h : List.Forall₂ (fun e w => Denotes (.entry b e) w) es ws) :
    Denotes (.value (.group b es)) (opening b :: [','].intercalate ws ++ [closing b]) := by
  cases h
  case nil     => exact .empty (fun _ hc => by cases hc)
  case cons e w es ws he hes => exact .group (denotes_intercalate (.cons he hes) (by simp))

-- Commas behind all texts but the last one.
theorem flatMap_comma {ws : List Text} (h : ws ≠ []) :
    (ws.flatMap fun w => w ++ [',']) = [','].intercalate ws ++ [','] := by
  induction ws
  case nil          => exact absurd rfl h
  case cons w ws ih =>
    cases ws
    case nil        => simp
    case cons w' ws => simp [ih (by simp)]

theorem groupLength_eq_sum {b : Bool} {es : List (Text × Value)} :
    Value.groupLength b es = (es.map fun e => (ValuePart.entry b e).length + 1).sum := by
  induction es
  case nil          => simp [Value.groupLength]
  case cons e es ih => simp [Value.groupLength, ValuePart.length, ih]

theorem length_intercalate {ws : List Text} (h : ws ≠ []) :
    ([','].intercalate ws).length + 1 = (ws.map fun w => w.length + 1).sum := by
  have hl := congrArg List.length (flatMap_comma h)
  simpa [List.length_flatMap] using hl.symm

theorem groupLength_perm {b : Bool} {es es' : List (Text × Value)} (h : es.Perm es') :
    Value.groupLength b es = Value.groupLength b es' := by
  rw [groupLength_eq_sum, groupLength_eq_sum]
  exact (h.map _).sum_eq

-- If no term is above its bound and the sum is not below the bound of the sum, all terms reach their bounds.
theorem le_of_sum_le {α : Type} {l : List α} {f g : α → Nat} (h : ∀ x ∈ l, f x ≤ g x)
    (hs : (l.map g).sum ≤ (l.map f).sum) : ∀ x ∈ l, g x ≤ f x := by
  induction l
  case nil         => exact fun _ hx => by cases hx
  case cons y l ih =>
    have hy := h y List.mem_cons_self
    have hl : ∀ x ∈ l, f x ≤ g x := fun x hx => h x (List.mem_cons_of_mem _ hx)
    have hle : (l.map f).sum ≤ (l.map g).sum := List.sum_le_sum hl
    simp only [List.map_cons, List.sum_cons] at hs
    intro x hx
    cases List.mem_cons.mp hx
    case inl hx =>
      subst hx
      omega
    case inr hx => exact ih hl (by omega) x hx

end Json
