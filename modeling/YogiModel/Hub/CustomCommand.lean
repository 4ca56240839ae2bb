import Mathlib
import YogiModel.Base.Ptree
import YogiModel.Hub.Service

namespace Yogi.Hub.CustomCommandService

open Web

structure CommandDetails where
  name             : Text
  executable       : Text
  arguments        : List Text
  workingDirectory : Text

-- What `\d` matches; the digits of other scripts are a parameter.
def isDigit (foreign : Char → Bool) (c : Char) : Bool :=
  if c.toNat < 128 then c.isDigit else foreign c

-- The captures of the regular expression `\$\{(\*)|([<>]?\d+)\}`, whose alternatives are `\$\{(\*)` and
-- `([<>]?\d+)\}`.
structure Captures where
  cap₁ : Text
  cap₂ : Text
  deriving DecidableEq

def matchFirst : Text → Option Captures
  | '$' :: '{' :: '*' :: _ => some ⟨['*'], []⟩
  | _                      => none

def splitSign : Text → Text × Text
  | '<' :: s => (['<'], s)
  | '>' :: s => (['>'], s)
  | s        => ([], s)

def matchSecond (foreign : Char → Bool) (s : Text) : Option Captures :=
  let (sign, rest) := splitSign s
  let digits := rest.takeWhile (isDigit foreign)
  if digits ≠ [] ∧ (rest.dropWhile (isDigit foreign)).head? = some '}' then
    some ⟨[], sign ++ digits⟩
  else
    none

-- `rx.indexIn(arg)`: the match that begins first.
def indexIn (foreign : Char → Bool) : Text → Option Captures
  | []        => none
  | c :: rest => matchFirst (c :: rest) <|> matchSecond foreign (c :: rest) <|> indexIn foreign rest

-- `QString::toInt` of a number without a sign: `0` if it is not made of the digits `0` to `9` or too large.
def toInt (s : Text) : Nat :=
  if s ≠ [] ∧ s.all Char.isDigit ∧ Nat.ofDigitChars 10 s 0 < 2 ^ 31 then Nat.ofDigitChars 10 s 0 else 0

-- The elements at the indexes that meet a condition.
def select (p : Nat → Bool) (args : List Text) : List Text :=
  (args.zipIdx.filter fun a => p a.2).map Prod.fst

-- An iteration of the loop in `make_translated_arguments`; `none` if an exception is thrown.
def translate (foreign : Char → Bool) (args : List Text) (arg : Text) : Option (List Text) :=
  match indexIn foreign arg with
  | none     => some [arg]
  | some cap =>
    if cap.cap₁ = ['*'] then
      some args
    else
      let less    := cap.cap₂.head? = some '<'
      let greater := cap.cap₂.head? = some '>'
      let idx     := toInt (cap.cap₂.drop (if less ∨ greater then 1 else 0))
      if less then
        some (select (· < idx) args)
      else if greater then
        some (select (· > idx) args)
      else
        args[idx]?.map fun a => [a]

def translateAll (foreign : Char → Bool) (args : List Text) : List Text → Option (List Text)
  | []        => some []
  | arg :: as => do
    let part ← translate foreign args arg
    let rest ← translateAll foreign args as
    return part ++ rest

def makeTranslatedArguments (foreign : Char → Bool) (details : CommandDetails) (args : List Text) :
    Except Text (List Text) :=
  match translateAll foreign args details.arguments with
  | some translated => .ok translated
  | none            => .error ("Not enough arguments for command '".toList ++ details.name ++ ['\''])

-- A process with its executable, arguments and working directory.
structure Process where
  executable       : Text
  arguments        : List Text
  workingDirectory : Text
  deriving DecidableEq

-- The processes that have been started and the table of active commands.
structure State where
  started        : List Process         := []
  lastId         : Nat                  := 0
  activeCommands : List (Nat × Process) := []
  deriving DecidableEq

-- The constructor of `ActiveCommand`: the process is started if there is no exception.
def activeCommand (foreign : Char → Bool) (s : State) (details : CommandDetails) (args : List Text) :
    State × Except Text Process :=
  match makeTranslatedArguments foreign details args with
  | .error msg      => (s, .error msg)
  | .ok translated =>
    let p : Process := ⟨details.executable, translated, details.workingDirectory⟩
    ({ s with started := s.started ++ [p] }, .ok p)

def startCommand (foreign : Char → Bool) (commands : List CommandDetails) (s : State) (cmd : Text)
    (args : List Text) : State × Except Text (Option Process) :=
  match commands.find? fun details => details.name = cmd with
  | none         => (s, .ok none)
  | some details =>
    let (s, p) := activeCommand foreign s details args
    (s, p.map some)

-- The part of `handle_start_command_request` that follows when the request has been taken apart.
def runStartCommand (foreign : Char → Bool) (commands : List CommandDetails) (s : State) (cmd : Text)
    (args : List Text) : State × Except Text Response :=
  match startCommand foreign commands s cmd args with
  | (s, .error msg)     => (s, .error msg)
  | (s, .ok none)       => (s, .ok { type := .invalidRequest, data := [] })
  | (s, .ok (some p)) =>
    let id := s.lastId + 1
    ({ s with lastId := id, activeCommands := s.activeCommands ++ [(id, p)] },
      .ok { type := .ok, data := unsignedToByteArray (UInt32.ofNat id) })

-- The placeholders `${*}`, `${n}`, `${<n}` and `${>n}`.
inductive Placeholder
  | all
  | index (n : Nat)
  | less (n : Nat)
  | greater (n : Nat)
  deriving DecidableEq

namespace Placeholder

-- The client arguments that are meant; there may be too few of them for an index.
def expand (args : List Text) : Placeholder → Option (List Text)
  | all       => some args
  | index n   => args[n]?.map fun a => [a]
  | less n    => some (args.take n)
  | greater n => some (args.drop (n + 1))

def IsNumeral (s : Text) (n : Nat) : Prop :=
  s ≠ [] ∧ s.all Char.isDigit = true ∧ Nat.ofDigitChars 10 s 0 = n

-- What is written between `${` and `}`.
def WrittenAs (s : Text) : Placeholder → Prop
  | all       => s = ['*']
  | index n   => IsNumeral s n
  | less n    => ∃ t, s = '<' :: t ∧ IsNumeral t n
  | greater n => ∃ t, s = '>' :: t ∧ IsNumeral t n

def Contains (arg : Text) (p : Placeholder) : Prop :=
  ∃ before s after, arg = before ++ '$' :: '{' :: s ++ '}' :: after ∧ p.WrittenAs s

-- Where one placeholder can be expanded, the other one stands for the same client arguments.
def Agrees (p q : Placeholder) : Prop :=
  ∀ args r, p.expand args = some r → q.expand args = some r

end Placeholder

open Placeholder

-- The expansion of an argument.
structure Expansion (args : List Text) (arg : Text) (part : List Text) : Prop where
  placeholder : ∀ p, Contains arg p → p.expand args = some part
  unchanged   : (∀ p, ¬Contains arg p) → part = [arg]

-- What is expected of the translation of the arguments of a command.
structure Translated (foreign : Char → Bool) (details : CommandDetails) (args : List Text) : Prop where
  throws : (∃ msg, makeTranslatedArguments foreign details args = .error msg) ↔
    ∃ arg ∈ details.arguments, ∃ n, Contains arg (.index n) ∧ args.length ≤ n
  result : ∀ {translated}, makeTranslatedArguments foreign details args = .ok translated →
    ∃ parts, List.Forall₂ (Expansion args) details.arguments parts ∧ translated = parts.flatten

-- The placeholder for which an argument is taken.
def reading (foreign : Char → Bool) (arg : Text) : Option Placeholder :=
  (indexIn foreign arg).map fun cap =>
    if cap.cap₁ = ['*'] then .all
    else if cap.cap₂.head? = some '<' then .less (toInt (cap.cap₂.drop 1))
    else if cap.cap₂.head? = some '>' then .greater (toInt (cap.cap₂.drop 1))
    else .index (toInt cap.cap₂)

-- The argument contains what it is taken for and nothing that means something else.
def Sound (foreign : Char → Bool) (arg : Text) : Prop :=
  match reading foreign arg with
  | none   => ∀ p, ¬Contains arg p
  | some p => Contains arg p ∧ ∀ q, Contains arg q → Agrees p q

section

variable {foreign : Char → Bool} {args part : List Text} {arg : Text} {p q : Placeholder} {n k : Nat}

theorem select_less : select (· < n) args = args.take n := by
  have h : ∀ k, ((args.zipIdx k).filter fun a => a.2 < n).map Prod.fst = args.take (n - k) := by
    induction args
    case nil         => simp
    case cons a as ih =>
      intro k
      by_cases hk : k < n
      case pos =>
        obtain ⟨m, hm⟩ : ∃ m, n - k = m + 1 := ⟨n - k - 1, by omega⟩
        have hm' : n - (k + 1) = m := by omega
        simp [hk, ih, hm, hm']
      case neg =>
        have hm : n - k = 0 := by omega
        have hm' : n - (k + 1) = 0 := by omega
        simp [hk, ih, hm, hm']
  exact h 0

theorem select_greater : select (· > n) args = args.drop (n + 1) := by
  have h : ∀ k, ((args.zipIdx k).filter fun a => a.2 > n).map Prod.fst = args.drop (n + 1 - k) := by
    induction args
    case nil         => simp
    case cons a as ih =>
      intro k
      by_cases hk : n < k
      case pos =>
        have hm : n + 1 - k = 0 := by omega
        have hm' : n + 1 - (k + 1) = 0 := by omega
        have := ih (k + 1)
        rw [hm'] at this
        simp only [List.zipIdx_cons, List.filter_cons, hk, gt_iff_lt, decide_true, if_true, List.map_cons, hm]
        simpa using this
      case neg =>
        obtain ⟨m, hm⟩ : ∃ m, n + 1 - k = m + 1 := ⟨n - k, by omega⟩
        have hm' : n + 1 - (k + 1) = m := by omega
        have := ih (k + 1)
        rw [hm'] at this
        simpa [List.filter_cons, hk, hm] using this
  exact h 0

-- The code expands the placeholder for which it takes an argument.
theorem translate_eq : translate foreign args arg =
    match reading foreign arg with
    | none   => some [arg]
    | some p => p.expand args := by
  simp only [translate, reading]
  cases indexIn foreign arg
  case none     => rfl
  case some cap =>
    simp only [Option.map_some]
    split
    case isTrue  => rfl
    case isFalse =>
      split
      case isTrue h  => simp [h, select_less, expand]
      case isFalse h =>
        split
        case isTrue h'  => simp [h', select_greater, expand]
        case isFalse h' => simp [h, h', expand]

example : reading (fun _ => false) "${<12}".toList = some (.less 12) := by decide

theorem expand_index (h : n < args.length) : expand args (.index n) = some [args[n]] := by
  simp [expand, h]

theorem expand_eq_none_iff : p.expand args = none ↔ ∃ n, p = .index n ∧ args.length ≤ n := by
  cases p
  case index n => simp [expand]
  all_goals simp [expand]

-- Where the client has no arguments there is nothing that a placeholder could stand for.
theorem expand_nil : p.expand [] = none ∨ p.expand [] = some [] := by
  cases p <;> simp [expand]

theorem agrees_index (h : Agrees (.index n) (.index k)) : n = k := by
  let args : List Text := (List.range (n + 1)).map fun i => List.replicate i 'a'
  have hn : n < args.length := by simp [args]
  have he := h args _ (expand_index hn)
  have hk : k < args.length := by
    by_contra hk
    simp [expand_eq_none_iff.mpr ⟨k, rfl, Nat.le_of_not_lt hk⟩] at he
  rw [expand_index hk] at he
  have := congrArg List.length (show args[k] = args[n] by simpa using he)
  simpa [args, eq_comm] using this

theorem expand_length : (p.expand (List.replicate k [])).map List.length = match p with
    | .all       => some k
    | .index n   => if n < k then some 1 else none
    | .less n    => some (min n k)
    | .greater n => some (k - (n + 1)) := by
  cases p
  case index n =>
    simp only [expand, List.getElem?_replicate]
    split <;> simp
  all_goals simp [expand]

-- Other placeholders than those for a single argument only agree with themselves.
theorem agrees_eq (h : Agrees p q) (hp : ∀ n, p ≠ .index n) : p = q := by
  have hl : ∀ k, (p.expand (List.replicate k [])).map List.length =
      (q.expand (List.replicate k [])).map List.length := by
    intro k
    cases hr : p.expand (List.replicate k [])
    case none =>
      obtain ⟨n, hn, _⟩ := expand_eq_none_iff.mp hr
      exact absurd hn (hp n)
    case some r => rw [h _ _ hr]
  simp only [expand_length] at hl
  cases p
  case index n => exact absurd rfl (hp n)
  case all =>
    cases q
    case all       => rfl
    case index m   => simpa using hl 0
    case less m    =>
      have := hl (m + 1)
      simp at this
    case greater m =>
      have := hl 1
      simp at this
  case less n =>
    cases q
    case all       =>
      have := hl (n + 1)
      simp at this
    case index m   => simpa using hl 0
    case less m    =>
      have := hl (max n m)
      simp at this
      rw [this]
    case greater m =>
      have h₁ := hl (n + m + 2)
      simp at h₁
      omega
  case greater n =>
    cases q
    case all       =>
      have := hl 1
      simp at this
    case index m   => simpa using hl 0
    case less m    =>
      have h₁ := hl (n + m + 2)
      have h₂ := hl (n + m + 3)
      simp at h₁ h₂
      omega
    case greater m =>
      have := hl (n + m + 2)
      simp at this
      congr 1
      omega

theorem translateAll_none_iff {as : List Text} :
    translateAll foreign args as = none ↔ ∃ arg ∈ as, translate foreign args arg = none := by
  induction as
  case nil            => simp [translateAll]
  case cons arg as ih =>
    simp only [translateAll, List.mem_cons, exists_eq_or_imp, ← ih]
    cases translate foreign args arg
    case none => simp
    case some =>
      cases translateAll foreign args as
      case none => simp
      case some => simp

theorem translateAll_some {as translated : List Text} (h : translateAll foreign args as = some translated) :
    ∃ parts, List.Forall₂ (fun arg part => translate foreign args arg = some part) as parts ∧
      translated = parts.flatten := by
  induction as generalizing translated
  case nil            =>
    cases h
    exact ⟨[], .nil, rfl⟩
  case cons arg as ih =>
    simp only [translateAll, Option.bind_eq_bind, Option.bind_eq_some_iff] at h
    obtain ⟨part, hp, rest, hr, ht⟩ := h
    obtain ⟨parts, hps, rfl⟩ := ih hr
    cases ht
    exact ⟨part :: parts, .cons hp hps, rfl⟩

theorem Sound.expansion (h : Sound foreign arg) (ht : translate foreign args arg = some part) :
    Expansion args arg part := by
  rw [translate_eq] at ht
  simp only [Sound] at h
  cases hr : reading foreign arg
  case none   =>
    rw [hr] at h ht
    cases ht
    exact ⟨fun p hp => absurd hp (h p), fun _ => rfl⟩
  case some p =>
    rw [hr] at h ht
    exact ⟨fun q hq => h.right q hq args part ht, fun hn => absurd h.left (hn p)⟩

theorem Sound.throws_iff (h : Sound foreign arg) :
    translate foreign args arg = none ↔ ∃ n, Contains arg (.index n) ∧ args.length ≤ n := by
  constructor
  case mp =>
    intro ht
    rw [translate_eq] at ht
    simp only [Sound] at h
    cases hr : reading foreign arg
    case none   => simp [hr] at ht
    case some p =>
      rw [hr] at h ht
      obtain ⟨n, rfl, hn⟩ := expand_eq_none_iff.mp ht
      exact ⟨n, h.left, hn⟩
  case mpr =>
    rintro ⟨n, hc, hn⟩
    cases ht : translate foreign args arg
    case none      => rfl
    case some part =>
      have := (h.expansion ht).placeholder _ hc
      simp [expand_eq_none_iff.mpr ⟨n, rfl, hn⟩] at this

theorem makeTranslatedArguments_error_iff {details : CommandDetails} :
    (∃ msg, makeTranslatedArguments foreign details args = .error msg) ↔
      translateAll foreign args details.arguments = none := by
  simp only [makeTranslatedArguments]
  split
  case h_1 h => simp [h]
  case h_2 h => simp [h]

theorem makeTranslatedArguments_ok {details : CommandDetails} {translated : List Text}
    (h : makeTranslatedArguments foreign details args = .ok translated) :
    translateAll foreign args details.arguments = some translated := by
  simp only [makeTranslatedArguments] at h
  split at h
  case h_1 ht =>
    cases h
    exact ht
  case h_2    => cases h

theorem translated_of_sound {details : CommandDetails} (h : ∀ arg ∈ details.arguments, Sound foreign arg) :
    Translated foreign details args where
  throws := by
    rw [makeTranslatedArguments_error_iff, translateAll_none_iff]
    exact exists_congr fun arg => and_congr_right fun ha => (h arg ha).throws_iff
  result := by
    intro translated ht
    obtain ⟨parts, hp, rfl⟩ := translateAll_some (makeTranslatedArguments_ok ht)
    refine ⟨parts, ?_, rfl⟩
    clear ht
    generalize details.arguments = as at h hp
    induction hp
    case nil             => exact .nil
    case cons hp hps ih =>
      exact .cons ((h _ (by simp)).expansion hp) (ih fun arg ha => h arg (by simp [ha]))

-- A command with a single argument.
theorem translate_of_translated {details : CommandDetails} (hd : details.arguments = [arg])
    (h : Translated foreign details args) :
    (translate foreign args arg = none ↔ ∃ n, Contains arg (.index n) ∧ args.length ≤ n) ∧
    ∀ part, translate foreign args arg = some part → Expansion args arg part := by
  constructor
  case left  =>
    have := h.throws
    rw [makeTranslatedArguments_error_iff, translateAll_none_iff, hd] at this
    simpa using this
  case right =>
    intro part hp
    have ht : makeTranslatedArguments foreign details args = .ok part := by
      simp [makeTranslatedArguments, hd, translateAll, hp]
    obtain ⟨parts, hps, he⟩ := h.result ht
    rw [hd] at hps
    obtain ⟨part', l, hp', hl, rfl⟩ := List.forall₂_cons_left_iff.mp hps
    cases hl
    rwa [he, List.flatten_cons, List.flatten_nil, List.append_nil]

theorem sound_of_translated {details : CommandDetails} (hd : details.arguments = [arg])
    (h : ∀ args, Translated foreign details args) : Sound foreign arg := by
  have hs := fun args => translate_of_translated hd (h args)
  simp only [translate_eq] at hs
  simp only [Sound]
  cases hr : reading foreign arg
  case none   =>
    intro p hp
    have := ((hs []).right [arg] (by simp [hr])).placeholder p hp
    cases expand_nil (p := p)
    case inl hn => simp [hn] at this
    case inr hn => simp [hn] at this
  case some p =>
    simp only [hr] at hs
    have hagrees : ∀ q, Contains arg q → Agrees p q :=
      fun q hq args r he => ((hs args).right r he).placeholder q hq
    refine ⟨?_, hagrees⟩
    by_cases hp : ∃ n, p = .index n
    case pos =>
      obtain ⟨n, rfl⟩ := hp
      obtain ⟨k, hk, _⟩ := (hs []).left.mp (expand_eq_none_iff.mpr ⟨n, rfl, Nat.zero_le _⟩)
      rwa [agrees_index (hagrees _ hk)]
    case neg =>
      have hex : ∃ q, Contains arg q := by
        by_contra hn
        simp only [not_exists] at hn
        cases expand_nil (p := p)
        case inl he =>
          obtain ⟨n, hn, _⟩ := expand_eq_none_iff.mp he
          exact hp ⟨n, hn⟩
        case inr he => simpa using ((hs []).right [] he).unchanged hn
      obtain ⟨q, hq⟩ := hex
      rwa [agrees_eq (hagrees q hq) fun n hn => hp ⟨n, hn⟩]

theorem translation_is_exact_iff (foreign : Char → Bool) (as : Set Text) :
    ((∀ details args, (∀ arg ∈ details.arguments, arg ∈ as) → Translated foreign details args) ↔
      ∀ arg ∈ as, Sound foreign arg) ∧
    ∀ commands s cmd args details msg, commands.find? (fun d => d.name = cmd) = some details →
      makeTranslatedArguments foreign details args = .error msg →
      runStartCommand foreign commands s cmd args = (s, .error msg) := by
  refine ⟨Iff.intro (fun h arg ha => ?_) (fun h details args hd => ?_), fun commands s cmd args details msg hf hm => ?_⟩
  case refine_1 =>
    have hd : (CommandDetails.mk [] [] [arg] []).arguments = [arg] := rfl
    refine sound_of_translated hd fun args => h _ args fun a hm => ?_
    exact List.mem_singleton.mp hm ▸ ha
  case refine_2 => exact translated_of_sound fun arg ha => h arg (hd arg ha)
  case refine_3 => simp [runStartCommand, startCommand, hf, activeCommand, hm, Except.map]

-- The argument "a5}" resembles a placeholder, but is none.
theorem resembling_argument_throws : ¬∀ foreign details args, Translated foreign details args := by
  intro h
  have ht := (h (fun _ => false) ⟨[], [], [['a', '5', '}']], []⟩ []).throws.mp ⟨_, rfl⟩
  obtain ⟨arg, ha, n, ⟨before, s, after, he, _⟩, _⟩ := ht
  have hd : '$' ∈ arg := by simp [he]
  rw [List.mem_singleton.mp ha] at hd
  exact absurd hd (by decide)

end

end Yogi.Hub.CustomCommandService
