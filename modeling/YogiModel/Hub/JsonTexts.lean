import Mathlib
import YogiModel.Base.JsonValue

namespace Yogi.Hub

open Json

namespace ProtoCompilerService

-- `QByteArray::replace`
def replace (c : Char) (after : Text) (s : Text) : Text :=
  s.flatMap fun x => if x = c then after else [x]

-- The generated files with their names, in the order of the names.
def escapeFileContents (files : List (Text × Text)) : List (Text × Text) :=
  files.map fun f => (f.1, replace '\n' ['\\', 'n'] (replace '\r' ['\\', 'r'] (replace '\\' ['\\', '\\'] f.2)))

-- A `QByteArray` that is added to a `QString` ends before its first zero.
def toQString (content : Text) : Text :=
  content.takeWhile (· ≠ '\x00')

-- What is added to the text for a file.
def member (f : Text × Text) : Text :=
  '"' :: f.1 ++ ['"', ':', '"'] ++ toQString (replace '"' ['\\', '"'] f.2) ++ ['"', ',']

-- The loop in `async_handle_request`; the last byte is overwritten afterwards.
def json (files : List (Text × Text)) : Text :=
  let json := files.foldl (fun json f => json ++ member f) ['{']
  json.set (json.length - 1) '}'

-- The text that is sent for the files that the compiler has generated.
def response (files : List (Text × Text)) : Text :=
  json (escapeFileContents files)

def memberOf (f : Text × Text) : Text × Value :=
  (f.1, .string f.2)

-- The text is valid and stands for the map.
def Lossless (files : List (Text × Text)) : Prop :=
  ∃ members, ParsesTo (response files) (.group true members) ∧ members.Perm (files.map memberOf)

-- There are no control characters but the line ends.
def Escapable (content : Text) : Prop :=
  ∀ c ∈ content, c < ' ' → c = '\r' ∨ c = '\n'

-- What the two functions make of a character.
def escapeChar (c : Char) : Text :=
  if c = '\\' then ['\\', '\\']
  else if c = '\r' then ['\\', 'r']
  else if c = '\n' then ['\\', 'n']
  else if c = '"' then ['\\', '"']
  else [c]

-- The text of a file without the comma.
def entryText (f : Text × Text) : Text :=
  '"' :: f.1 ++ ['"', ':', '"'] ++ toQString (f.2.flatMap escapeChar) ++ ['"']

section

variable {files : List (Text × Text)} {content : Text} {f : Text × Text}

theorem replace_eq : replace '"' ['\\', '"'] (replace '\n' ['\\', 'n'] (replace '\r' ['\\', 'r']
    (replace '\\' ['\\', '\\'] content))) = content.flatMap escapeChar := by
  have h : ∀ c, replace '"' ['\\', '"'] (replace '\n' ['\\', 'n'] (replace '\r' ['\\', 'r']
      (replace '\\' ['\\', '\\'] [c]))) = escapeChar c := by
    intro c
    by_cases h₁ : c = '\\'
    case pos => subst h₁; decide
    case neg =>
      by_cases h₂ : c = '\r'
      case pos => subst h₂; decide
      case neg =>
        by_cases h₃ : c = '\n'
        case pos => subst h₃; decide
        case neg => simp [replace, escapeChar, h₁, h₂, h₃]
  induction content
  case nil         => rfl
  case cons c s ih =>
    have happ : ∀ x after (d : Char) (t : Text),
        replace x after (d :: t) = replace x after [d] ++ replace x after t := by
      intro x after d t
      simp [replace]
    have happ' : ∀ x after (t u : Text), replace x after (t ++ u) = replace x after t ++ replace x after u :=
      fun x after t u => List.flatMap_append
    rw [List.flatMap_cons, ← ih, ← h, happ '\\' _ c s, happ' '\r', happ' '\n', happ' '"']

theorem set_last {s : Text} {a b : Char} : (s ++ [a]).set ((s ++ [a]).length - 1) b = s ++ [b] := by
  simp

theorem response_eq : response files = match files with
    | []      => ['}']
    | _ :: _ => '{' :: [','].intercalate (files.map entryText) ++ ['}'] := by
  have hfold : ∀ (l : List (Text × Text)) acc, l.foldl (fun json f => json ++ member f) acc = acc ++ l.flatMap member := by
    intro l
    induction l
    case nil         => simp
    case cons f l ih => simp [ih]
  cases files
  case nil       => rfl
  case cons f fs =>
    have hm : (escapeFileContents (f :: fs)).flatMap member = ((f :: fs).map entryText).flatMap fun w => w ++ [','] := by
      simp only [escapeFileContents, List.flatMap_map]
      refine List.flatMap_congr fun g _ => ?_
      simp [member, entryText, replace_eq]
    simp only [response, json, hfold, hm]
    rw [flatMap_comma (by simp), ← List.append_assoc]
    exact set_last

theorem encodes_escapeChar {c : Char} (h : c < ' ' → c = '\r' ∨ c = '\n') : Encodes (escapeChar c) c := by
  by_cases h₁ : c = '\\'
  case pos => subst h₁; exact .escape rfl
  case neg =>
    by_cases h₂ : c = '\r'
    case pos => subst h₂; exact .escape rfl
    case neg =>
      by_cases h₃ : c = '\n'
      case pos => subst h₃; exact .escape rfl
      case neg =>
        by_cases h₄ : c = '"'
        case pos => subst h₄; exact .escape rfl
        case neg =>
          simp only [escapeChar, h₁, h₂, h₃, h₄, if_false]
          refine .plain h₄ h₁ (not_lt.mp fun hc => ?_)
          cases h hc
          case inl h => exact h₂ h
          case inr h => exact h₃ h

theorem Escapable.literal (h : Escapable content) : Literal (content.flatMap escapeChar) content := by
  induction content
  case nil         => exact .nil
  case cons c s ih =>
    exact .cons (encodes_escapeChar (h c List.mem_cons_self)) (ih fun x hx => h x (List.mem_cons_of_mem _ hx))

theorem ne_nul_of_mem_escapeChar {c x : Char} (h : c ≠ '\x00') (hx : x ∈ escapeChar c) : x ≠ '\x00' := by
  simp only [escapeChar] at hx
  split at hx
  case isTrue => simp at hx; simp [hx]
  case isFalse =>
    split at hx
    case isTrue => simp at hx; rcases hx with rfl | rfl <;> decide
    case isFalse =>
      split at hx
      case isTrue => simp at hx; rcases hx with rfl | rfl <;> decide
      case isFalse =>
        split at hx
        case isTrue  => simp at hx; rcases hx with rfl | rfl <;> decide
        case isFalse =>
          simp only [List.mem_singleton] at hx
          exact hx ▸ h

theorem Escapable.toQString_eq (h : Escapable content) :
    toQString (content.flatMap escapeChar) = content.flatMap escapeChar := by
  refine List.takeWhile_eq_self_iff.mpr fun x hx => ?_
  obtain ⟨c, hc, hx⟩ := List.mem_flatMap.mp hx
  have hne : c ≠ '\x00' := by
    rintro rfl
    cases h _ hc (by decide) <;> contradiction
  simpa using ne_nul_of_mem_escapeChar hne hx

theorem entryText_denotes (hk : Clean f.1) (hc : Escapable f.2) :
    Denotes (.entry true (memberOf f)) (entryText f) := by
  have hs : Spaces [] := fun _ h => by cases h
  rw [entryText, hc.toQString_eq]
  simpa [memberOf] using Denotes.member hs (literal_of_clean hk) hs hs (.string hc.literal) hs

theorem length_escapeChar_le {c : Char} : (escapeChar c).length ≤ charLength c := by
  simp only [escapeChar, charLength]
  split
  case isTrue h => simp [h]
  case isFalse =>
    split
    case isTrue h => subst h; decide
    case isFalse =>
      split
      case isTrue h => subst h; decide
      case isFalse =>
        split
        case isTrue h => simp [h]
        case isFalse  => split <;> simp

theorem escapable_char {c : Char} (h : charLength c ≤ (escapeChar c).length) (hc : c < ' ') :
    c = '\r' ∨ c = '\n' := by
  by_contra hn
  rw [not_or] at hn
  have hb : c ≠ '\\' := by rintro rfl; exact absurd hc (by decide)
  have hq : c ≠ '"' := by rintro rfl; exact absurd hc (by decide)
  simp [escapeChar, charLength, hn, hb, hq, hc] at h

theorem length_contents_le : (toQString (content.flatMap escapeChar)).length ≤ textLength content := by
  refine (List.takeWhile_sublist _).length_le.trans ?_
  rw [List.length_flatMap, textLength]
  exact List.sum_le_sum fun c _ => length_escapeChar_le

theorem escapable_of_length (h : textLength content ≤ (toQString (content.flatMap escapeChar)).length) :
    Escapable content := by
  have h := h.trans (List.takeWhile_sublist _).length_le
  rw [List.length_flatMap, textLength] at h
  exact fun c hc => escapable_char (le_of_sum_le (fun c _ => length_escapeChar_le) h c hc)

theorem length_entryText_le : (entryText f).length ≤ (ValuePart.entry true (memberOf f)).length := by
  have hk := length_le_textLength (s := f.1)
  have hc : _ ≤ textLength f.2 := length_contents_le
  simp [entryText, ValuePart.length, memberOf, Value.length]
  omega

theorem clean_of_length (h : (ValuePart.entry true (memberOf f)).length ≤ (entryText f).length) :
    Clean f.1 ∧ Escapable f.2 := by
  have hk := length_le_textLength (s := f.1)
  have hc : _ ≤ textLength f.2 := length_contents_le
  simp [entryText, ValuePart.length, memberOf, Value.length] at h
  exact ⟨clean_of_textLength (by omega), escapable_of_length (by omega)⟩

-- The texts that are lossless, by the number of characters that a text with these members has.
theorem lossless_iff : Lossless files ↔ files ≠ [] ∧ ∀ f ∈ files, Clean f.1 ∧ Escapable f.2 := by
  constructor
  case mp =>
    rintro ⟨members, hp, hperm⟩
    have hlen := (parsesTo_iff.mp hp).length_le
    simp only [Value.length, groupLength_perm hperm] at hlen
    cases files
    case nil       =>
      obtain rfl := hperm.eq_nil
      simp [response_eq, Value.groupLength] at hlen
    case cons f fs =>
      refine ⟨by simp, ?_⟩
      have hne : members.isEmpty = false := by
        have := hperm.length_eq
        cases members <;> simp at this ⊢
      have hi : _ = (((f :: fs).map entryText).map fun w => w.length + 1).sum := length_intercalate (by simp)
      simp only [response_eq, List.length_append, List.length_cons, List.length_nil, hne, groupLength_eq_sum] at hlen
      rw [List.map_map] at hi hlen
      generalize hsum : ((f :: fs).map ((fun e => (ValuePart.entry true e).length + 1) ∘ memberOf)).sum = n at hlen
      refine fun g hg => clean_of_length (Nat.le_of_add_le_add_right (b := 1) ?_)
      refine le_of_sum_le (f := fun f => (entryText f).length + 1)
        (g := fun f => (ValuePart.entry true (memberOf f)).length + 1)
        (fun f _ => Nat.succ_le_succ length_entryText_le) ?_ g hg
      simp only [Function.comp_def] at hi hsum
      simp only [Bool.false_eq_true, if_false] at hlen
      omega
  case mpr =>
    rintro ⟨hne, hf⟩
    refine ⟨files.map memberOf, parsesTo_iff.mpr ⟨[], response files, [], ?_, ?_, ?_, by simp⟩, .refl _⟩
    case refine_1 => exact fun _ h => by cases h
    case refine_3 => exact fun _ h => by cases h
    case refine_2 =>
      have hall : List.Forall₂ (fun e w => Denotes (.entry true e) w) (files.map memberOf) (files.map entryText) := by
        rw [List.forall₂_map_left_iff, List.forall₂_map_right_iff, List.forall₂_same]
        exact fun f h => entryText_denotes (hf f h).left (hf f h).right
      cases files
      case nil       => exact absurd rfl hne
      case cons f fs =>
        rw [response_eq]
        exact denotes_group hall

end

end ProtoCompilerService

namespace DnsService

-- The error is the one of `errorString`, and there is none for `NoError`.
structure HostInfo where
  error : Option Text
  addresses : List Text
  hostName : Text

def errorText : Option Text → Text
  | none   => "null".toList
  | some e => '"' :: e ++ ['"']

-- The text that `on_dns_lookup_finished` sends behind the id of the lookup.
def onDnsLookupFinished (info : HostInfo) : Text :=
  let json := ['{'] ++ "\"error\":".toList ++ errorText info.error ++ ",".toList ++ "\"addresses\":[".toList
  let json :=
    if info.addresses.isEmpty then json
    else (info.addresses.foldl (fun json address => json ++ ('"' :: address ++ "\",".toList)) json).dropLast
  json ++ "]".toList ++ ",".toList ++ ("\"hostname\":\"".toList ++ info.hostName ++ "\"".toList) ++ ['}']

def errorValue : Option Text → Value
  | none   => .null
  | some e => .string e

def addressesValue (addresses : List Text) : Value :=
  .group false (addresses.map fun address => ([], .string address))

def membersOf (info : HostInfo) : List (Text × Value) :=
  [("error".toList, errorValue info.error), ("addresses".toList, addressesValue info.addresses),
    ("hostname".toList, .string info.hostName)]

-- The text is valid and stands for the result of the lookup.
def Lossless (info : HostInfo) : Prop :=
  ∃ members, ParsesTo (onDnsLookupFinished info) (.group true members) ∧ members.Perm (membersOf info)

def quote (s : Text) : Text :=
  '"' :: s ++ ['"']

def memberTexts (info : HostInfo) : List Text :=
  ["\"error\":".toList ++ errorText info.error,
    "\"addresses\":".toList ++ ('[' :: [','].intercalate (info.addresses.map quote) ++ [']']),
    "\"hostname\":".toList ++ quote info.hostName]

section

variable {info : HostInfo} {addresses : List Text}

theorem onDnsLookupFinished_eq :
    onDnsLookupFinished info = '{' :: [','].intercalate (memberTexts info) ++ ['}'] := by
  have hfold : ∀ (l : List Text) acc, l.foldl (fun json address => json ++ ('"' :: address ++ "\",".toList)) acc =
      acc ++ (l.map quote).flatMap fun w => w ++ [','] := by
    intro l
    induction l
    case nil         => simp
    case cons a l ih =>
      intro acc
      rw [List.foldl_cons, ih]
      simp [quote]
  have hdrop : ∀ s t : Text, (s ++ (t ++ [','])).dropLast = s ++ t := by
    intro s t
    rw [← List.append_assoc, List.dropLast_concat]
  simp only [onDnsLookupFinished, hfold]
  cases h : info.addresses
  case nil       => simp [memberTexts, h, quote]
  case cons a as =>
    rw [flatMap_comma (by simp), hdrop]
    simp [memberTexts, h, quote]

theorem addresses_denotes (h : ∀ a ∈ addresses, Clean a) :
    Denotes (.value (addressesValue addresses)) ('[' :: [','].intercalate (addresses.map quote) ++ [']']) := by
  have hs : Spaces [] := fun _ h => by cases h
  refine denotes_group (b := false) ?_
  rw [List.forall₂_map_left_iff, List.forall₂_map_right_iff, List.forall₂_same]
  intro a ha
  simpa [quote] using Denotes.element hs (.string (literal_of_clean (h a ha))) hs

theorem member_denotes {k w v} (hk : Clean k) (h : Denotes (.value v) w) :
    Denotes (.entry true (k, v)) (quote k ++ ':' :: w) := by
  have hs : Spaces [] := fun _ h => by cases h
  simpa [quote] using Denotes.member hs (literal_of_clean hk) hs hs h hs

theorem error_denotes {e : Option Text} (h : ∀ t ∈ e, Clean t) : Denotes (.value (errorValue e)) (errorText e) := by
  cases e
  case none   => exact .null
  case some e => exact .string (literal_of_clean (h e rfl))

theorem length_errorText_le {e : Option Text} : (errorText e).length ≤ (errorValue e).length := by
  cases e
  case none   => simp [errorText, errorValue, Value.length]
  case some e =>
    have := length_le_textLength (s := e)
    simp [errorText, errorValue, Value.length]
    omega

theorem clean_error {e : Option Text} (h : (errorValue e).length ≤ (errorText e).length) : ∀ t ∈ e, Clean t := by
  rintro t rfl
  simp [errorText, errorValue, Value.length] at h
  exact clean_of_textLength (by omega)

theorem length_addressesValue :
    (addressesValue addresses).length =
      (addresses.map fun a => textLength a + 3).sum + if addresses.isEmpty then 2 else 1 := by
  simp only [addressesValue, Value.length, groupLength_eq_sum, ValuePart.length, List.map_map, Function.comp_def,
    List.isEmpty_map, Bool.false_eq_true, if_false]
  refine congrArg (· + _) (congrArg List.sum (List.map_congr_left fun a _ => ?_))
  omega

theorem length_addressesText :
    ([','].intercalate (addresses.map quote)).length + 2 =
      (addresses.map fun a => a.length + 3).sum + if addresses.isEmpty then 2 else 1 := by
  cases h : addresses
  case nil       => rfl
  case cons a as =>
    have hi : _ = ((addresses.map quote).map fun w => w.length + 1).sum := length_intercalate (by simp [h])
    rw [List.map_map, h] at hi
    simp [Function.comp_def, quote] at hi ⊢
    omega

theorem length_addresses_le :
    ([','].intercalate (addresses.map quote)).length + 2 ≤ (addressesValue addresses).length := by
  rw [length_addressesValue, length_addressesText]
  refine Nat.add_le_add_right (List.sum_le_sum fun a _ => ?_) _
  exact Nat.add_le_add_right length_le_textLength 3

theorem clean_addresses
    (h : (addressesValue addresses).length ≤ ([','].intercalate (addresses.map quote)).length + 2) :
    ∀ a ∈ addresses, Clean a := by
  rw [length_addressesValue, length_addressesText] at h
  have hs : (addresses.map fun a => textLength a + 3).sum ≤ (addresses.map fun a => a.length + 3).sum := by omega
  intro a ha
  have := le_of_sum_le (fun a _ => Nat.add_le_add_right length_le_textLength 3) hs a ha
  exact clean_of_textLength (by omega)

theorem lossless_iff :
    Lossless info ↔ (∀ e ∈ info.error, Clean e) ∧ (∀ a ∈ info.addresses, Clean a) ∧ Clean info.hostName := by
  constructor
  case mp =>
    rintro ⟨members, hp, hperm⟩
    have hlen := (parsesTo_iff.mp hp).length_le
    have hne : members.isEmpty = false := by
      have := hperm.length_eq
      cases members <;> simp [membersOf] at this ⊢
    have he := length_errorText_le (e := info.error)
    have ha : _ ≤ (addressesValue info.addresses).length := length_addresses_le
    have hh := length_le_textLength (s := info.hostName)
    have hk : textLength "error".toList = 5 ∧ textLength "addresses".toList = 9 ∧ textLength "hostname".toList = 8 := by
      decide
    obtain ⟨hk₁, hk₂, hk₃⟩ := hk
    rw [onDnsLookupFinished_eq] at hlen
    simp only [Value.length, groupLength_perm hperm, hne, membersOf, Value.groupLength, hk₁, hk₂, hk₃] at hlen
    simp [memberTexts, quote] at hlen ha
    refine ⟨clean_error ?_, clean_addresses ?_, clean_of_textLength ?_⟩
    case refine_1 => omega
    case refine_2 => omega
    case refine_3 => omega
  case mpr =>
    rintro ⟨he, ha, hh⟩
    refine ⟨membersOf info, parsesTo_iff.mpr ⟨[], onDnsLookupFinished info, [], ?_, ?_, ?_, by simp⟩, .refl _⟩
    case refine_1 => exact fun _ h => by cases h
    case refine_3 => exact fun _ h => by cases h
    case refine_2 =>
      rw [onDnsLookupFinished_eq]
      refine denotes_group (b := true) (.cons ?_ (.cons ?_ (.cons ?_ .nil)))
      case refine_1 => exact member_denotes (by decide) (error_denotes he)
      case refine_2 => exact member_denotes (by decide) (addresses_denotes ha)
      case refine_3 => exact member_denotes (by decide) (.string (literal_of_clean hh))

end

end DnsService

-- A file or a lookup is sent without a loss if nothing is in need of an escape that is not made.
theorem json_is_lossless_iff (files : List (Text × Text)) (info : DnsService.HostInfo) :
    (ProtoCompilerService.Lossless files ↔
      files ≠ [] ∧ ∀ f ∈ files, Clean f.1 ∧ ProtoCompilerService.Escapable f.2) ∧
    (DnsService.Lossless info ↔
      (∀ e ∈ info.error, Clean e) ∧ (∀ a ∈ info.addresses, Clean a) ∧ Clean info.hostName) :=
  ⟨ProtoCompilerService.lossless_iff, DnsService.lossless_iff⟩

-- Without files the opening brace is overwritten.
theorem no_files_fail : ¬ ∀ files, ProtoCompilerService.Lossless files := by
  intro h
  obtain ⟨members, hp, hperm⟩ := h []
  obtain rfl := hperm.eq_nil
  have hlen := (parsesTo_iff.mp hp).length_le
  exact absurd hlen (by decide)

end Yogi.Hub
