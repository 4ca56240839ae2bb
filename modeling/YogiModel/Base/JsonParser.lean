import Mathlib
import YogiModel.Base.Json

namespace Json

def isNumberChar (c : Char) : Bool :=
  c.isDigit || c == '-' || c == '+' || c == '.' || c == 'e' || c == 'E'

def skipSpaces (s : Text) : Text :=
  s.dropWhile isSpace

-- Reads a character of a string.
def readChar : Text → Option (Char × Text)
  | '\\' :: 'u' :: a :: b :: c :: d :: rest =>
    match hex a b c d with
    | none   => none
    | some n =>
      if isHighSurrogate n then
        match rest with
        | '\\' :: 'u' :: a' :: b' :: c' :: d' :: rest' =>
          match hex a' b' c' d' with
          | none   => none
          | some m =>
            if isLowSurrogate m then
              some (Char.ofNat (0x10000 + (n - 0xD800) * 0x400 + (m - 0xDC00)), rest')
            else
              none
        | _ => none
      else if isLowSurrogate n then
        none
      else
        some (Char.ofNat n, rest)
  | '\\' :: e :: rest => (escapes e).map fun c => (c, rest)
  | c :: rest => if c ≠ '"' ∧ c ≠ '\\' ∧ ' ' ≤ c then some (c, rest) else none
  | [] => none

-- Reads a string from behind its opening quote on.
def readLiteral : Nat → Text → Option (Text × Text)
  | 0, _     => none
  | n + 1, s =>
    match s with
    | '"' :: rest => some ([], rest)
    | s =>
      match readChar s with
      | none           => none
      | some (c, rest) => (readLiteral n rest).map fun (cs, rest) => (c :: cs, rest)

abbrev TreeReader := Text → Option (Ptree × Text)

def readKey (object : Bool) (s : Text) : Option (Text × Text) :=
  if object then
    match s with
    | '"' :: rest =>
      match readLiteral (rest.length + 1) rest with
      | none           => none
      | some (k, rest) =>
        match skipSpaces rest with
        | ':' :: rest => some (k, rest)
        | _           => none
    | _ => none
  else
    some ([], s)

def readEntry (tree : TreeReader) (object : Bool) (s : Text) :
    Option ((Text × Ptree) × Text) :=
  match readKey object (skipSpaces s) with
  | none           => none
  | some (k, rest) =>
    match tree (skipSpaces rest) with
    | none           => none
    | some (t, rest) => some ((k, t), skipSpaces rest)

def readEntries (tree : TreeReader) (object : Bool) :
    Nat → Text → Option (List (Text × Ptree) × Text)
  | 0, _     => none
  | n + 1, s =>
    match readEntry tree object s with
    | none => none
    | some (e, ',' :: rest) =>
      (readEntries tree object n rest).map fun (es, rest) => (e :: es, rest)
    | some (e, rest) => some ([e], rest)

def readGroup (tree : TreeReader) (object : Bool) (s : Text) : Option (Ptree × Text) :=
  match skipSpaces s with
  | [] => none
  | c :: rest =>
    if c == closing object then
      some (.node [] [], rest)
    else
      match readEntries tree object (s.length + 1) s with
      | some (es, c :: rest) => if c == closing object then some (.node [] es, rest) else none
      | _                    => none

def readScalar (s : Text) : Option (Ptree × Text) :=
  match names.find? fun w => w.isPrefixOf s with
  | some w => some (.leaf w, s.drop w.length)
  | none   =>
    let w := s.takeWhile isNumberChar
    if isNumber w then some (.leaf w, s.dropWhile isNumberChar) else none

-- The argument bounds how deep the values are nested.
def readTree : Nat → TreeReader
  | 0, _     => none
  | n + 1, s =>
    match s with
    | '{' :: rest => readGroup (readTree n) true rest
    | '[' :: rest => readGroup (readTree n) false rest
    | '"' :: rest => (readLiteral (rest.length + 1) rest).map fun (t, rest) => (.leaf t, rest)
    | s           => readScalar s

def read (s : Text) : Option Ptree :=
  match readTree (s.length + 1) (skipSpaces s) with
  | none           => none
  | some (t, rest) => if skipSpaces rest = [] then some t else none

-- What the functions read is what the grammar derives.

theorem encodes_of_readChar {s : Text} {c rest} (h : readChar s = some (c, rest)) :
    ∃ u, Encodes u c ∧ s = u ++ rest := by
  unfold readChar at h
  split at h
  case h_1 a b c' d r =>
    split at h
    case h_1 => cases h
    case h_2 n hn =>
      split at h
      case isTrue hh =>
        split at h
        case h_2 => cases h
        case h_1 =>
          split at h
          case h_1 => cases h
          case h_2 m hm =>
            split at h
            case isFalse => cases h
            case isTrue hl =>
              rw [Option.some.injEq, Prod.mk.injEq] at h
              obtain ⟨rfl, rfl⟩ := h
              exact ⟨_, .surrogates hn hm hh hl, rfl⟩
      case isFalse hh =>
        split at h
        case isTrue => cases h
        case isFalse hl =>
          cases h
          exact ⟨_, .unicode hn (Bool.eq_false_iff.mpr hh) (Bool.eq_false_iff.mpr hl), rfl⟩
  case h_2 e r _ =>
    obtain ⟨c', hc, he⟩ := Option.map_eq_some_iff.mp h
    cases he
    exact ⟨_, .escape hc, rfl⟩
  case h_3 =>
    split at h
    case isTrue hc =>
      cases h
      exact ⟨_, .plain hc.left hc.right.left hc.right.right, rfl⟩
    case isFalse => cases h
  case h_4 => cases h

theorem readChar_of_encodes {u : Text} {c rest} (h : Encodes u c) :
    readChar (u ++ rest) = some (c, rest) := by
  cases h
  case plain hq hb hc =>
    unfold readChar
    split
    case h_1 he => simp_all
    case h_2 he => simp_all
    case h_3 he =>
      cases he
      simp [hq, hb, hc]
    case h_4 he => cases he
  case escape e he =>
    have hu : e ≠ 'u' := by
      intro hu
      have hn : escapes 'u' = none := by simp [escapes, List.lookup]
      rw [hu, hn] at he
      cases he
    unfold readChar
    split
    case h_1 hc => simp_all
    case h_2 hc =>
      cases hc
      simp [he]
    case h_3 hn hc =>
      cases hc
      exact absurd rfl (hn e rest rfl)
    case h_4 hc => cases hc
  case unicode hn hh hl =>
    simp [readChar, hn, hh, hl]
  case surrogates hn hm hh hl =>
    simp [readChar, hn, hm, hh, hl]

theorem literal_of_readLiteral {n : Nat} {s t rest} (h : readLiteral n s = some (t, rest)) :
    ∃ w, Literal w t ∧ s = w ++ '"' :: rest := by
  induction n generalizing s t
  case zero => cases h
  case succ n ih =>
    simp only [readLiteral] at h
    split at h
    case h_1 =>
      cases h
      exact ⟨[], .nil, rfl⟩
    case h_2 =>
      split at h
      case h_1 => cases h
      case h_2 c r hc =>
        obtain ⟨⟨cs, r'⟩, hr, he⟩ := Option.map_eq_some_iff.mp h
        cases he
        obtain ⟨u, hu, hs⟩ := encodes_of_readChar hc
        obtain ⟨w, hw, hr⟩ := ih hr
        exact ⟨u ++ w, .cons hu hw, by rw [hs, hr, List.append_assoc]⟩

theorem readLiteral_of_literal {w t : Text} {n rest} (h : Literal w t) (hn : w.length < n) :
    readLiteral n (w ++ '"' :: rest) = some (t, rest) := by
  induction h generalizing n
  case nil =>
    cases n
    case zero   => cases hn
    case succ n => rfl
  case cons u c w t hu hw ih =>
    cases n
    case zero   => cases hn
    case succ n =>
      obtain ⟨x, v, hx, hq⟩ := hu.head
      have hl : w.length < n := by
        simp only [hx, List.length_append, List.length_cons] at hn
        omega
      have hc : readChar (u ++ (w ++ '"' :: rest)) = some (c, w ++ '"' :: rest) :=
        readChar_of_encodes hu
      rw [List.append_assoc]
      simp only [readLiteral]
      split
      case h_1 he =>
        rw [hx] at he
        cases he
        exact absurd rfl hq
      case h_2 => simp only [hc, ih hl, Option.map_some]

theorem skipSpaces_append {w s : Text} (h : Spaces w) : skipSpaces (w ++ s) = skipSpaces s := by
  induction w
  case nil         => rfl
  case cons c w ih =>
    have hc : isSpace c = true := h c List.mem_cons_self
    have hw : Spaces w := fun x hx => h x (List.mem_cons_of_mem c hx)
    rw [skipSpaces, List.cons_append, List.dropWhile_cons_of_pos hc]
    exact ih hw

theorem skipSpaces_cons {c : Char} {s} (h : isSpace c = false) : skipSpaces (c :: s) = c :: s :=
  List.dropWhile_cons_of_neg (by simp [h])

theorem exists_spaces (s : Text) : ∃ w, Spaces w ∧ s = w ++ skipSpaces s := by
  refine ⟨s.takeWhile isSpace, ?_, (List.takeWhile_append_dropWhile).symm⟩
  intro c hc
  exact List.mem_takeWhile_imp hc

theorem NumberState.isNumberChar_of_step {q q' : NumberState} {c} (h : q.step c = some q') :
    isNumberChar c = true := by
  have hz : c = '0' → c.isDigit = true := fun h => h ▸ rfl
  cases q <;> simp only [NumberState.step] at h <;> simp only [isNumberChar] <;> grind

theorem isNumberChar_of_isNumber {w : Text} (h : isNumber w = true) :
    ∀ c ∈ w, isNumberChar c = true := by
  have hf : ∀ (w : Text) (q q' : NumberState), w.foldlM NumberState.step q = some q' →
      ∀ c ∈ w, isNumberChar c = true := by
    intro w
    induction w
    case nil         => simp
    case cons c w ih =>
      intro q q' h
      simp only [List.foldlM_cons, Option.bind_eq_bind, Option.bind_eq_some_iff] at h
      obtain ⟨q₁, h₁, h₂⟩ := h
      intro x hx
      cases List.mem_cons.mp hx
      case inl hx => exact hx ▸ NumberState.isNumberChar_of_step h₁
      case inr hx => exact ih q₁ q' h₂ x hx
  simp only [isNumber, Option.any_eq_true] at h
  obtain ⟨q, hq, _⟩ := h
  exact hf w _ q hq

theorem isNumber_head {w : Text} (h : isNumber w = true) :
    ∃ c v, w = c :: v ∧ (c = '-' ∨ c.isDigit = true) := by
  cases w
  case nil         => cases h
  case cons c v =>
    refine ⟨c, v, rfl, ?_⟩
    simp only [isNumber, List.foldlM_cons, NumberState.step] at h
    by_cases hm : c = '-'
    · exact .inl hm
    · by_cases hz : c = '0'
      · exact .inr (hz ▸ rfl)
      · by_cases hd : c.isDigit = true
        · exact .inr hd
        · simp [hm, hz, hd] at h

-- What may come behind a value.
def Follow (rest : Text) : Prop :=
  ∀ c r, rest = c :: r → isNumberChar c = false

theorem takeWhile_number {w rest : Text} (h : isNumber w = true) (hr : Follow rest) :
    (w ++ rest).takeWhile isNumberChar = w ∧ (w ++ rest).dropWhile isNumberChar = rest := by
  have hw := isNumberChar_of_isNumber h
  rw [List.takeWhile_append_of_pos hw, List.dropWhile_append_of_pos hw]
  cases rest
  case nil => simp
  case cons c r =>
    have hc := hr c r rfl
    simp [hc]

theorem find_names {w : Text} {rest} (h : w ∈ names) :
    (names.find? fun v => v.isPrefixOf (w ++ rest)) = some w := by
  simp only [names, List.mem_cons, List.not_mem_nil, or_false] at h
  rcases h with rfl | rfl | rfl <;> simp [names, List.isPrefixOf]

theorem find_names_number {w : Text} {rest} (h : isNumber w = true) :
    (names.find? fun v => v.isPrefixOf (w ++ rest)) = none := by
  obtain ⟨c, v, hw, hc⟩ := isNumber_head h
  have hne : ∀ x : Char, x.isDigit = false → x ≠ '-' → (x == c) = false := by
    intro x hd hm
    rw [beq_eq_false_iff_ne]
    intro he
    subst he
    cases hc
    case inl hc => exact hm hc
    case inr hc => cases hd.symm.trans hc
  subst hw
  have h₁ := hne 'n' rfl (by decide)
  have h₂ := hne 't' rfl (by decide)
  have h₃ := hne 'f' rfl (by decide)
  simp [names, List.isPrefixOf, h₁, h₂, h₃]

theorem readScalar_sound {s : Text} {t rest} (h : readScalar s = some (t, rest)) :
    ∃ w, Derives (.tree t) w ∧ s = w ++ rest := by
  simp only [readScalar] at h
  split at h
  case h_1 w hf =>
    cases h
    have hp := List.find?_some hf
    simp only [List.isPrefixOf_iff_prefix] at hp
    refine ⟨w, .name (List.mem_of_find?_eq_some hf), ?_⟩
    exact (List.prefix_iff_eq_append.mp hp).symm
  case h_2 =>
    split at h
    case isTrue hn =>
      cases h
      exact ⟨_, .number hn, (List.takeWhile_append_dropWhile).symm⟩
    case isFalse => cases h

theorem readScalar_name {w : Text} {rest} (h : w ∈ names) :
    readScalar (w ++ rest) = some (.leaf w, rest) := by
  simp only [readScalar, find_names h, List.drop_left]

theorem readScalar_number {w : Text} {rest} (h : isNumber w = true) (hr : Follow rest) :
    readScalar (w ++ rest) = some (.leaf w, rest) := by
  obtain ⟨ht, hd⟩ := takeWhile_number h hr
  simp only [readScalar, find_names_number h, ht, hd, h, if_true]

-- A reader of trees that follows the grammar.
def TreeReader.Sound (tree : TreeReader) : Prop :=
  ∀ s t rest, tree s = some (t, rest) → ∃ w, Derives (.tree t) w ∧ s = w ++ rest

theorem readEntry_sound {tree : TreeReader} (ht : tree.Sound) {b s e rest}
    (h : readEntry tree b s = some (e, rest)) :
    ∃ w, Derives (.entry b e) w ∧ s = w ++ rest := by
  obtain ⟨w₁, h₁, hs⟩ := exists_spaces s
  simp only [readEntry] at h
  split at h
  case h_1 => cases h
  case h_2 k r hk =>
    obtain ⟨w₃, h₃, hr⟩ := exists_spaces r
    split at h
    case h_1 => cases h
    case h_2 t r' hr' =>
      obtain ⟨w, hw, he⟩ := ht _ _ _ hr'
      obtain ⟨w₄, h₄, hr''⟩ := exists_spaces r'
      cases h
      cases b
      case false =>
        simp only [readKey, Bool.false_eq_true, if_false, Option.some.injEq, Prod.mk.injEq] at hk
        obtain ⟨hk, hkr⟩ := hk
        subst hk
        have hspace : Spaces (w₁ ++ w₃) := by
          intro c hc
          cases List.mem_append.mp hc
          case inl hc => exact h₁ c hc
          case inr hc => exact h₃ c hc
        refine ⟨_, .element hspace hw h₄, ?_⟩
        calc s = w₁ ++ (w₃ ++ (w ++ (w₄ ++ skipSpaces r'))) := by rw [← hr'', ← he, ← hr, ← hkr, ← hs]
          _ = _ := by simp
      case true =>
        simp only [readKey, if_true] at hk
        split at hk
        case h_2 => cases hk
        case h_1 q hq =>
          split at hk
          case h_1 => cases hk
          case h_2 k' r'' hl =>
            obtain ⟨l, hlit, hl'⟩ := literal_of_readLiteral hl
            obtain ⟨w₂, h₂, hr₂⟩ := exists_spaces r''
            split at hk
            case h_2 => cases hk
            case h_1 r₃ hcol =>
              cases hk
              refine ⟨_, .member h₁ hlit h₂ h₃ hw h₄, ?_⟩
              calc s = w₁ ++ '"' :: (l ++ '"' :: (w₂ ++ ':' :: (w₃ ++ (w ++ (w₄ ++ skipSpaces r'))))) := by
                    rw [← hr'', ← he, ← hr, ← hcol, ← hr₂, ← hl', ← hq, ← hs]
                _ = _ := by simp

theorem readEntries_sound {tree : TreeReader} (ht : tree.Sound) {b n s es rest}
    (h : readEntries tree b n s = some (es, rest)) :
    ∃ w, Derives (.entries b es) w ∧ s = w ++ rest := by
  induction n generalizing s es
  case zero => cases h
  case succ n ih =>
    simp only [readEntries] at h
    split at h
    case h_1 => cases h
    case h_2 e r he =>
      obtain ⟨⟨es', r'⟩, hr, hes⟩ := Option.map_eq_some_iff.mp h
      cases hes
      obtain ⟨w, hw, hs⟩ := readEntry_sound ht he
      obtain ⟨w', hw', hr'⟩ := ih hr
      exact ⟨_, .more hw hw', by simp [hs, hr']⟩
    case h_3 e r _ he =>
      cases h
      obtain ⟨w, hw, hs⟩ := readEntry_sound ht he
      exact ⟨w, .one hw, hs⟩

theorem readGroup_sound {tree : TreeReader} (ht : tree.Sound) {b s t rest}
    (h : readGroup tree b s = some (t, rest)) :
    ∃ w, Derives (.tree t) w ∧ opening b :: s = w ++ rest := by
  obtain ⟨w₁, h₁, hs⟩ := exists_spaces s
  simp only [readGroup] at h
  split at h
  case h_1 => cases h
  case h_2 c r hc =>
    split at h
    case isTrue hcl =>
      cases h
      have hcl : c = closing b := by simpa using hcl
      subst hcl
      refine ⟨_, .empty (b := b) h₁, ?_⟩
      rw [hs, hc]
      simp
    case isFalse =>
      split at h
      case h_2 => cases h
      case h_1 es c' r' hes =>
        split at h
        case isFalse => cases h
        case isTrue hcl =>
          cases h
          have hcl : c' = closing b := by simpa using hcl
          subst hcl
          obtain ⟨w, hw, he⟩ := readEntries_sound ht hes
          refine ⟨_, .group hw, ?_⟩
          rw [he]
          simp

theorem readTree_sound (n : Nat) : (readTree n).Sound := by
  induction n
  case zero =>
    intro s t rest h
    cases h
  case succ n ih =>
    intro s t rest h
    simp only [readTree] at h
    split at h
    case h_1 => exact readGroup_sound ih h
    case h_2 => exact readGroup_sound ih h
    case h_3 r =>
      obtain ⟨⟨t', r'⟩, hl, he⟩ := Option.map_eq_some_iff.mp h
      cases he
      obtain ⟨w, hw, hr⟩ := literal_of_readLiteral hl
      exact ⟨_, .string hw, by simp [hr]⟩
    case h_4 => exact readScalar_sound h

-- How the word of a tree or an entry begins.
def Begins (w : Text) : Prop :=
  ∃ w₁ c v, Spaces w₁ ∧ w = w₁ ++ c :: v ∧ isSpace c = false ∧ c ≠ ']' ∧ c ≠ '}'

theorem Begins.append {w v : Text} (h : Begins w) : Begins (w ++ v) := by
  obtain ⟨w₁, c, v', h₁, hw, hc⟩ := h
  exact ⟨w₁, c, v' ++ v, h₁, by simp [hw], hc⟩

theorem Begins.spaces {w₁ w : Text} (h₁ : Spaces w₁) (h : Begins w) : Begins (w₁ ++ w) := by
  obtain ⟨w₂, c, v, h₂, hw, hc⟩ := h
  refine ⟨w₁ ++ w₂, c, v, ?_, by simp [hw], hc⟩
  intro x hx
  cases List.mem_append.mp hx
  case inl hx => exact h₁ x hx
  case inr hx => exact h₂ x hx

theorem Begins.cons {c : Char} {v : Text} (h : isSpace c = false) (h₁ : c ≠ ']') (h₂ : c ≠ '}') :
    Begins (c :: v) :=
  ⟨[], c, v, (fun _ hx => by cases hx), rfl, h, h₁, h₂⟩

theorem isNumberChar_of_head {c : Char} (h : c = '-' ∨ c.isDigit = true) :
    isSpace c = false ∧ c ≠ ']' ∧ c ≠ '}' ∧ c ≠ '{' ∧ c ≠ '[' ∧ c ≠ '"' := by
  have hne : ∀ x : Char, x.isDigit = false → x ≠ '-' → c ≠ x := by
    intro x hd hm he
    subst he
    cases h
    case inl h => exact hm h
    case inr h => cases hd.symm.trans h
  refine ⟨?_, hne _ rfl (by decide), hne _ rfl (by decide), hne _ rfl (by decide),
    hne _ rfl (by decide), hne _ rfl (by decide)⟩
  simp only [isSpace, Bool.or_eq_false_iff, beq_eq_false_iff_ne]
  exact ⟨⟨⟨hne _ rfl (by decide), hne _ rfl (by decide)⟩, hne _ rfl (by decide)⟩,
    hne _ rfl (by decide)⟩

theorem Derives.begins {p w} (h : Derives p w) : Begins w := by
  induction h
  case name hm =>
    simp only [names, List.mem_cons, List.not_mem_nil, or_false] at hm
    rcases hm with rfl | rfl | rfl <;> exact .cons rfl (by decide) (by decide)
  case number hn =>
    obtain ⟨c, v, hw, hc⟩ := isNumber_head hn
    obtain ⟨h₁, h₂, h₃, _⟩ := isNumberChar_of_head hc
    exact hw ▸ .cons h₁ h₂ h₃
  case string => exact .cons rfl (by decide) (by decide)
  case empty b _ _ => cases b <;> exact .cons rfl (by decide) (by decide)
  case group b _ _ _ _ => cases b <;> exact .cons rfl (by decide) (by decide)
  case element h₁ _ _ ih => exact (ih.spaces h₁).append
  case member h₁ _ _ _ _ _ _ =>
    simp only [List.append_assoc]
    exact .spaces h₁ (.cons rfl (by decide) (by decide))
  case one ih => exact ih
  case more ih _ => exact ih.append

theorem skipSpaces_begins {w : Text} (h : Begins w) (rest : Text) :
    ∃ c v, skipSpaces (w ++ rest) = c :: v ∧ c ≠ ']' ∧ c ≠ '}' := by
  obtain ⟨w₁, c, v, h₁, hw, hc, hn⟩ := h
  refine ⟨c, v ++ rest, ?_, hn⟩
  rw [hw, List.append_assoc, skipSpaces_append h₁, List.cons_append, skipSpaces_cons hc]

-- A tree's own word does not begin with spaces.
theorem skipSpaces_tree {t w} (h : Derives (.tree t) w) (rest : Text) :
    skipSpaces (w ++ rest) = w ++ rest := by
  cases h
  case name hm =>
    simp only [names, List.mem_cons, List.not_mem_nil, or_false] at hm
    rcases hm with rfl | rfl | rfl <;> exact skipSpaces_cons rfl
  case number hn =>
    obtain ⟨c, v, hw, hc⟩ := isNumber_head hn
    rw [hw]
    exact skipSpaces_cons (isNumberChar_of_head hc).left
  case string => exact skipSpaces_cons rfl
  case empty b _ _ => cases b <;> exact skipSpaces_cons rfl
  case group b _ _ _ => cases b <;> exact skipSpaces_cons rfl

-- What a reader makes of the word of a part.
def Reads : Part → Text → Prop
  | .tree t, w => ∀ n rest, w.length < n → Follow rest → readTree n (w ++ rest) = some (t, rest)
  | .entry b e, w => ∀ n c rest, w.length < n → c ∈ [',', ']', '}'] →
    readEntry (readTree n) b (w ++ c :: rest) = some (e, c :: rest)
  | .entries b es, w => ∀ n k c rest, w.length < n → w.length < k → c ∈ [']', '}'] →
    readEntries (readTree n) b k (w ++ c :: rest) = some (es, c :: rest)

theorem isSpace_of_delimiter {c : Char} (h : c ∈ [',', ']', '}']) : isSpace c = false := by
  simp only [List.mem_cons, List.not_mem_nil, or_false] at h
  rcases h with rfl | rfl | rfl <;> rfl

-- Behind a value there are spaces and then a delimiter.
theorem follow_spaces {w : Text} {c rest} (h : Spaces w) (hc : c ∈ [',', ']', '}']) :
    Follow (w ++ c :: rest) := by
  intro x r hx
  cases w
  case nil =>
    cases hx
    simp only [List.mem_cons, List.not_mem_nil, or_false] at hc
    rcases hc with rfl | rfl | rfl <;> rfl
  case cons y w =>
    cases hx
    have hs := h x List.mem_cons_self
    simp only [isSpace, Bool.or_eq_true, beq_iff_eq] at hs
    rcases hs with ((rfl | rfl) | rfl) | rfl <;> rfl

theorem follow_of_spaces {w : Text} (h : Spaces w) : Follow w := by
  intro c r hc
  subst hc
  have hs := h c List.mem_cons_self
  simp only [isSpace, Bool.or_eq_true, beq_iff_eq] at hs
  rcases hs with ((rfl | rfl) | rfl) | rfl <;> rfl

theorem reads_scalar {w : Text} {t rest n} (hn : w.length < n)
    (h : readScalar (w ++ rest) = some (t, rest))
    (hw : ∃ c v, w = c :: v ∧ c ≠ '{' ∧ c ≠ '[' ∧ c ≠ '"') :
    readTree n (w ++ rest) = some (t, rest) := by
  obtain ⟨c, v, hw, h₁, h₂, h₃⟩ := hw
  subst hw
  cases n
  case zero   => cases hn
  case succ n =>
    simp only [readTree]
    split
    case h_1 he => cases he; exact absurd rfl h₁
    case h_2 he => cases he; exact absurd rfl h₂
    case h_3 he => cases he; exact absurd rfl h₃
    case h_4    => exact h

theorem readTree_opening {n b s} :
    readTree (n + 1) (opening b :: s) = readGroup (readTree n) b s := by
  cases b <;> rfl

theorem reads_of_derives {p w} (h : Derives p w) : Reads p w := by
  induction h
  case name w hm =>
    intro n rest hn hf
    apply reads_scalar hn (readScalar_name hm)
    simp only [names, List.mem_cons, List.not_mem_nil, or_false] at hm
    rcases hm with rfl | rfl | rfl <;> exact ⟨_, _, rfl, by decide, by decide, by decide⟩
  case number w hw =>
    intro n rest hn hf
    apply reads_scalar hn (readScalar_number hw hf)
    obtain ⟨c, v, hv, hc⟩ := isNumber_head hw
    obtain ⟨_, _, _, hne⟩ := isNumberChar_of_head hc
    exact ⟨c, v, hv, hne⟩
  case string w s hl =>
    intro n rest hn hf
    cases n
    case zero   => cases hn
    case succ n =>
      have hr : readLiteral ((w ++ '"' :: rest).length + 1) (w ++ '"' :: rest) = some (s, rest) :=
        readLiteral_of_literal hl (by simp only [List.length_append, List.length_cons]; omega)
      have he : '"' :: w ++ ['"'] ++ rest = '"' :: (w ++ '"' :: rest) := by simp
      simp only [he, readTree, hr, Option.map_some]
  case empty b w hs =>
    intro n rest hn hf
    cases n
    case zero   => cases hn
    case succ n =>
      have hc : isSpace (closing b) = false := by cases b <;> rfl
      have he : opening b :: w ++ [closing b] ++ rest = opening b :: (w ++ closing b :: rest) := by
        simp
      rw [he, readTree_opening, readGroup, skipSpaces_append hs, skipSpaces_cons hc]
      simp
  case group b es w h ih =>
    intro n rest hn hf
    cases n
    case zero   => cases hn
    case succ n =>
      have he : opening b :: w ++ [closing b] ++ rest = opening b :: (w ++ closing b :: rest) := by
        simp
      have hl : w.length < n := by
        simp only [List.length_append, List.length_cons] at hn
        omega
      have hc : closing b ∈ [']', '}'] := by cases b <;> decide
      have hr := ih n ((w ++ closing b :: rest).length + 1) (closing b) rest hl
        (by simp only [List.length_append, List.length_cons]; omega) hc
      obtain ⟨c, v, hs, h₁, h₂⟩ := skipSpaces_begins h.begins (closing b :: rest)
      have hne : (c == closing b) = false := by
        rw [beq_eq_false_iff_ne]
        cases b
        case true  => exact h₂
        case false => exact h₁
      rw [he, readTree_opening, readGroup, hs]
      simp only [hne, Bool.false_eq_true, if_false, hr, beq_self_eq_true, if_true]
  case element w₁ t w w₂ h₁ h h₂ ih =>
    intro n c rest hn hc
    have he : w₁ ++ w ++ w₂ ++ c :: rest = w₁ ++ (w ++ (w₂ ++ c :: rest)) := by simp
    have hl : w.length < n := by
      simp only [List.length_append] at hn
      omega
    have hr := ih n (w₂ ++ c :: rest) hl (follow_spaces h₂ hc)
    have hs := skipSpaces_tree h (w₂ ++ c :: rest)
    have hd := skipSpaces_cons (s := rest) (isSpace_of_delimiter hc)
    simp only [he, readEntry, readKey, Bool.false_eq_true, if_false, skipSpaces_append h₁, hs, hr,
      skipSpaces_append h₂, hd]
  case member w₁ l k w₂ w₃ t w w₄ h₁ hl h₂ h₃ h h₄ ih =>
    intro n c rest hn hc
    have he : w₁ ++ '"' :: l ++ '"' :: w₂ ++ ':' :: w₃ ++ w ++ w₄ ++ c :: rest =
        w₁ ++ '"' :: (l ++ '"' :: (w₂ ++ ':' :: (w₃ ++ (w ++ (w₄ ++ c :: rest))))) := by simp
    have hlen : w.length < n := by
      simp only [List.length_append, List.length_cons] at hn
      omega
    have hr := ih n (w₄ ++ c :: rest) hlen (follow_spaces h₄ hc)
    have hs := skipSpaces_tree h (w₄ ++ c :: rest)
    have hd := skipSpaces_cons (s := rest) (isSpace_of_delimiter hc)
    have hq : isSpace '"' = false := rfl
    have hcol : isSpace ':' = false := rfl
    have hlit : readLiteral ((l ++ '"' :: (w₂ ++ ':' :: (w₃ ++ (w ++ (w₄ ++ c :: rest))))).length + 1)
        (l ++ '"' :: (w₂ ++ ':' :: (w₃ ++ (w ++ (w₄ ++ c :: rest))))) =
        some (k, w₂ ++ ':' :: (w₃ ++ (w ++ (w₄ ++ c :: rest)))) :=
      readLiteral_of_literal hl
          (by simp only [List.length_append, List.length_cons]; omega)
    simp only [he, readEntry, readKey, if_true, skipSpaces_append h₁, skipSpaces_cons hq, hlit,
      skipSpaces_append h₂, skipSpaces_cons hcol, skipSpaces_append h₃, hs, hr,
      skipSpaces_append h₄, hd]
  case one b e w h ih =>
    intro n k c rest hn hk hc
    have hm : c ∈ [',', ']', '}'] := List.mem_cons_of_mem _ hc
    have hr := ih n c rest hn hm
    cases k
    case zero   => cases hk
    case succ k =>
      simp only [readEntries, hr]
      split
      case h_1 he => cases he
      case h_2 he =>
        cases he
        simp at hc
      case h_3 he =>
        cases he
        rfl
  case more b e es w w' h h' ih ih' =>
    intro n k c rest hn hk hc
    simp only [List.length_append, List.length_cons] at hn hk
    have hm : ',' ∈ [',', ']', '}'] := List.mem_cons_self
    have hr := ih n ',' (w' ++ c :: rest) (by omega) hm
    cases k
    case zero   => cases hk
    case succ k =>
      have hr' := ih' n k c rest (by omega) (by omega) hc
      have he : w ++ ',' :: w' ++ c :: rest = w ++ ',' :: (w' ++ c :: rest) := by simp
      simp only [he, readEntries, hr, hr', Option.map_some]

theorem read_conforming : Conforming read := by
  intro s t
  constructor
  case mp =>
    intro h
    simp only [read] at h
    obtain ⟨w₁, h₁, hs⟩ := exists_spaces s
    split at h
    case h_1 => cases h
    case h_2 t' rest hr =>
      split at h
      case isFalse => cases h
      case isTrue hn =>
        cases h
        obtain ⟨w, hw, hr'⟩ := readTree_sound _ _ _ _ hr
        obtain ⟨w₂, h₂, hs₂⟩ := exists_spaces rest
        rw [hn, List.append_nil] at hs₂
        exact ⟨w₁, w, w₂, h₁, hw, h₂, by rw [hs, hr', hs₂, List.append_assoc]⟩
  case mpr =>
    intro h
    obtain ⟨w₁, w, w₂, h₁, hw, h₂, hs⟩ := h
    have hr := reads_of_derives hw (s.length + 1) w₂ (by simp [hs]; omega) (follow_of_spaces h₂)
    have hsk : skipSpaces s = w ++ w₂ := by
      rw [hs, List.append_assoc, skipSpaces_append h₁, skipSpaces_tree hw]
    have hn : skipSpaces w₂ = [] := by
      have := skipSpaces_append (s := []) h₂
      rwa [List.append_nil] at this
    simp only [read, hsk, hr, hn, if_true]

end Json
