import YogiModel.Base.Ptree

-- The standard grammar of JSON texts with the property trees that they stand for.
namespace Json

def isSpace (c : Char) : Bool :=
  c == ' ' || c == '\t' || c == '\n' || c == '\r'

def Spaces (w : Text) : Prop :=
  ∀ c ∈ w, isSpace c = true

-- How far a number has been read.
inductive NumberState
  | start
  | minus
  | zero
  | integer
  | point
  | fraction
  | exponentMark
  | exponentSign
  | exponent
  deriving DecidableEq

def NumberState.step : NumberState → Char → Option NumberState
  | .start, c =>
    if c == '-' then some .minus
    else if c == '0' then some .zero
    else if c.isDigit then some .integer
    else none
  | .minus, c =>
    if c == '0' then some .zero
    else if c.isDigit then some .integer
    else none
  | .zero, c =>
    if c == '.' then some .point
    else if c == 'e' || c == 'E' then some .exponentMark
    else none
  | .integer, c =>
    if c.isDigit then some .integer
    else if c == '.' then some .point
    else if c == 'e' || c == 'E' then some .exponentMark
    else none
  | .point, c => if c.isDigit then some .fraction else none
  | .fraction, c =>
    if c.isDigit then some .fraction
    else if c == 'e' || c == 'E' then some .exponentMark
    else none
  | .exponentMark, c =>
    if c.isDigit then some .exponent
    else if c == '+' || c == '-' then some .exponentSign
    else none
  | .exponentSign, c => if c.isDigit then some .exponent else none
  | .exponent, c => if c.isDigit then some .exponent else none

def NumberState.accepts : NumberState → Bool
  | .zero | .integer | .fraction | .exponent => true
  | _ => false

def isNumber (w : Text) : Bool :=
  (w.foldlM NumberState.step .start).any NumberState.accepts

def escapes (c : Char) : Option Char :=
  [('"', '"'), ('\\', '\\'), ('/', '/'), ('b', '\x08'), ('f', '\x0c'), ('n', '\n'), ('r', '\r'),
    ('t', '\t')].lookup c

def hexDigit (c : Char) : Option Nat :=
  if '0' ≤ c ∧ c ≤ '9' then some (c.toNat - '0'.toNat)
  else if 'a' ≤ c ∧ c ≤ 'f' then some (c.toNat - 'a'.toNat + 10)
  else if 'A' ≤ c ∧ c ≤ 'F' then some (c.toNat - 'A'.toNat + 10)
  else none

def hex (a b c d : Char) : Option Nat := do
  pure (((← hexDigit a) * 16 + (← hexDigit b)) * 256 + (← hexDigit c) * 16 + (← hexDigit d))

def isHighSurrogate (n : Nat) : Bool :=
  0xD800 ≤ n && n < 0xDC00

def isLowSurrogate (n : Nat) : Bool :=
  0xDC00 ≤ n && n < 0xE000

-- The ways to write a character in a string.
inductive Encodes : Text → Char → Prop
  | plain {c} (hq : c ≠ '"') (hb : c ≠ '\\') (hc : ' ' ≤ c) : Encodes [c] c
  | escape {e c} (h : escapes e = some c) : Encodes ['\\', e] c
  | unicode {a b c d n} (h : hex a b c d = some n) (hh : isHighSurrogate n = false)
      (hl : isLowSurrogate n = false) : Encodes ['\\', 'u', a, b, c, d] (Char.ofNat n)
  | surrogates {a b c d n a' b' c' d' m} (h : hex a b c d = some n) (h' : hex a' b' c' d' = some m)
      (hh : isHighSurrogate n = true) (hl : isLowSurrogate m = true) :
      Encodes ['\\', 'u', a, b, c, d, '\\', 'u', a', b', c', d']
        (Char.ofNat (0x10000 + (n - 0xD800) * 0x400 + (m - 0xDC00)))

theorem Encodes.head {u c} (h : Encodes u c) : ∃ x v, u = x :: v ∧ x ≠ '"' := by
  cases h
  case plain hq _ _ => exact ⟨_, _, rfl, hq⟩
  all_goals exact ⟨_, _, rfl, by decide⟩

-- What stands between the quotes of a string.
inductive Literal : Text → Text → Prop
  | nil : Literal [] []
  | cons {u c w s} (hu : Encodes u c) (hw : Literal w s) : Literal (u ++ w) (c :: s)

def opening (object : Bool) : Char :=
  if object then '{' else '['

def closing (object : Bool) : Char :=
  if object then '}' else ']'

-- The parts of a text. The entries of an array have empty keys.
inductive Part
  | tree (t : Ptree)
  | entry (object : Bool) (e : Text × Ptree)
  | entries (object : Bool) (es : List (Text × Ptree))

def names : List Text :=
  ["null".toList, "true".toList, "false".toList]

inductive Derives : Part → Text → Prop
  | name {w} (h : w ∈ names) : Derives (.tree (.leaf w)) w
  | number {w} (h : isNumber w = true) : Derives (.tree (.leaf w)) w
  | string {w s} (h : Literal w s) : Derives (.tree (.leaf s)) ('"' :: w ++ ['"'])
  | empty {b w} (h : Spaces w) : Derives (.tree (.node [] [])) (opening b :: w ++ [closing b])
  | group {b es w} (h : Derives (.entries b es) w) :
      Derives (.tree (.node [] es)) (opening b :: w ++ [closing b])
  | element {w₁ t w w₂} (h₁ : Spaces w₁) (h : Derives (.tree t) w) (h₂ : Spaces w₂) :
      Derives (.entry false ([], t)) (w₁ ++ w ++ w₂)
  | member {w₁ l k w₂ w₃ t w w₄} (h₁ : Spaces w₁) (hl : Literal l k) (h₂ : Spaces w₂)
      (h₃ : Spaces w₃) (h : Derives (.tree t) w) (h₄ : Spaces w₄) :
      Derives (.entry true (k, t)) (w₁ ++ '"' :: l ++ '"' :: w₂ ++ ':' :: w₃ ++ w ++ w₄)
  | one {b e w} (h : Derives (.entry b e) w) : Derives (.entries b [e]) w
  | more {b e es w w'} (h : Derives (.entry b e) w) (h' : Derives (.entries b es) w') :
      Derives (.entries b (e :: es)) (w ++ ',' :: w')

def IsText (s : Text) (t : Ptree) : Prop :=
  ∃ w₁ w w₂, Spaces w₁ ∧ Derives (.tree t) w ∧ Spaces w₂ ∧ s = w₁ ++ w ++ w₂

-- A parser accepts the texts of the grammar and nothing else.
def Conforming (read : Text → Option Ptree) : Prop :=
  ∀ s t, read s = some t ↔ IsText s t

end Json
