import Mathlib
import YogiModel.Base.Except
import YogiModel.AccountManager.AccountStrings

namespace Yogi.AccountManager

-- What can be thrown while the accounts are loaded.
inductive Exception
  | load (e : LoadError)
  | badPath (path : Text)
  deriving DecidableEq

-- The class `Path`.
namespace Path

variable {p q str : Text}

def make (str : Text) : Except Exception Text :=
  if ['/', '/'] <:+: str then
    .error (.badPath str)
  else if str.length > 1 ∧ str.getLast? = some '/' then
    .ok str.dropLast
  else
    .ok str

def isAbsolute (p : Text) : Bool :=
  p.head? = some '/'

def isRoot (p : Text) : Bool :=
  p = ['/']

-- `Path::operator/`
def div (p other : Text) : Except Exception Text :=
  if isAbsolute other then
    .error (.badPath other)
  else if isRoot p then
    make (p ++ other)
  else
    make (p ++ '/' :: other)

-- No two slashes in a row.
def Valid (p : Text) : Prop :=
  ¬['/', '/'] <:+: p

instance : Decidable (Valid p) :=
  inferInstanceAs (Decidable (¬['/', '/'] <:+: p))

theorem valid_cons {c : Char} : Valid (c :: p) ↔ ¬(c = '/' ∧ p.head? = some '/') ∧ Valid p := by
  simp only [Valid, List.infix_cons_iff, not_or]
  refine and_congr_left fun _ => not_congr ?_
  cases p
  case nil => simp
  case cons d ds => simp [List.cons_prefix_cons, @eq_comm _ '/']

theorem valid_append_slash (hp : Valid p) (hl : p.getLast? ≠ some '/') (hq : Valid q)
    (ha : isAbsolute q = false) : Valid (p ++ '/' :: q) := by
  have hs : Valid ('/' :: q) := valid_cons.mpr ⟨by simpa [isAbsolute] using ha, hq⟩
  induction p
  case nil => exact hs
  case cons c cs ih =>
    rw [valid_cons] at hp
    rw [List.cons_append, valid_cons]
    cases cs
    case nil        => exact ⟨fun hc => hl (by simp [hc.left]), hs⟩
    case cons c' cs => exact ⟨hp.left, ih hp.right (by simpa using hl)⟩

-- Paths do not end with a slash.
structure Made (p : Text) : Prop where
  valid : Valid p
  last  : p.getLast? = some '/' → isRoot p = true

theorem make_ok_iff : (∃ p, make str = .ok p) ↔ Valid str := by
  simp only [make, Valid]
  split
  case isTrue h  => simp [h]
  case isFalse h => split <;> simp [h]

theorem made_of_make (h : make str = .ok p) : Made p := by
  have hv : Valid str := make_ok_iff.mp ⟨p, h⟩
  simp only [make, show ¬['/', '/'] <:+: str from hv, if_false] at h
  split at h
  case isTrue hl =>
    obtain ⟨init, rfl⟩ := List.getLast?_eq_some_iff.mp hl.right
    rw [List.dropLast_concat] at h
    cases h
    refine ⟨fun hi => hv (hi.trans (List.prefix_append ..).isInfix), fun hi => ?_⟩
    obtain ⟨init, rfl⟩ := List.getLast?_eq_some_iff.mp hi
    exact absurd ⟨init, [], by simp⟩ hv
  case isFalse hl =>
    cases h
    refine ⟨hv, fun hs => ?_⟩
    obtain ⟨init, rfl⟩ := List.getLast?_eq_some_iff.mp hs
    cases init
    case nil       => rfl
    case cons c cs => exact absurd ⟨by simp, hs⟩ hl

theorem isAbsolute_of_make (h : make str = .ok p) : isAbsolute p = isAbsolute str := by
  simp only [make] at h
  split at h
  case isTrue     => cases h
  case isFalse hv =>
    split at h
    case isFalse   => cases h; rfl
    case isTrue hl =>
      cases h
      cases str
      case nil       => rfl
      case cons c cs =>
        cases cs
        case nil  => simp at hl
        case cons => rfl

theorem div_ok_iff (hp : Made p) (hq : Valid q) : (∃ r, div p q = .ok r) ↔ isAbsolute q = false := by
  cases ha : isAbsolute q
  case true  => simp [div, ha]
  case false =>
    simp only [div, ha, Bool.false_eq_true, if_false, iff_true]
    split
    case isTrue hr  =>
      obtain rfl : p = ['/'] := by simpa [isRoot] using hr
      exact make_ok_iff.mpr (valid_cons.mpr ⟨by simpa [isAbsolute] using ha, hq⟩)
    case isFalse hr => exact make_ok_iff.mpr (valid_append_slash hp.valid (fun hl => hr (hp.last hl)) hq ha)

theorem made_of_div (h : div p q = .ok r) : Made r := by
  simp only [div] at h
  split at h
  case isTrue  => cases h
  case isFalse => split at h <;> exact made_of_make h

end Path

namespace Accounts

-- `m_accounts.erase(account->username())`
def remove (as : Accounts) (a : Account) : Accounts where
  entries := as.entries.filter fun b => b.username ≠ a.username
  nodup   := (List.filter_sublist.map _).nodup as.nodup

theorem length_remove {as : Accounts} {a as'} (h : as.entries = a :: as') :
    (as.remove a).entries.length < as.entries.length := by
  simp only [remove, h, List.filter_cons, ne_eq, not_true, decide_false, Bool.false_eq_true, if_false]
  exact Nat.lt_succ_of_le (List.length_filter_le ..)

-- `while (!accounts().empty()) remove_account(accounts().begin()->second)`
def removeAll (as : Accounts) : Accounts :=
  match _h : as.entries with
  | []     => as
  | a :: _ => removeAll (as.remove a)
termination_by as.entries.length
decreasing_by exact length_remove _h

theorem removeAll_entries (as : Accounts) : as.removeAll.entries = [] := by
  fun_induction removeAll as
  case case1 h  => exact h
  case case2 ih => exact ih

theorem find_removeAll {as : Accounts} {username} : as.removeAll.find username = none := by
  simp [find, removeAll_entries]

end Accounts

namespace FileAccountProvider

-- What the constructor of the class `Account` may throw: the terminals' paths contain the username.
def terminalPaths (username : Text) : Except Exception (List Text) := do
  let accounts ← Path.make (text "Accounts")
  let name ← Path.make username
  let path ← Path.div accounts name
  ["Store Data", "Read Data", "First Name", "Last Name", "Enabled", "Groups"].mapM fun terminal => do
    let other ← Path.make (text terminal)
    Path.div path other

def convert (lib : PropertyTreeLibrary) (accChild : Text × Ptree) : Except Exception Account := do
  let account ← (loadAccount lib accChild).mapError Exception.load
  let _ ← terminalPaths account.username
  pure account

-- The accounts and what has been thrown.
def convertAll (lib : PropertyTreeLibrary) :
    List (Text × Ptree) → Accounts → Accounts × Option Exception
  | [], as            => (as, none)
  | accChild :: cs, as =>
    match convert lib accChild with
    | .ok account => convertAll lib cs (as.add account)
    | .error e    => (as, some e)

-- The accounts, the values for which a call of the handler has been posted and the exception that escapes.
structure Load where
  accounts : Accounts
  posted   : List Bool
  thrown   : Option Exception

-- `async_load_accounts` for a file that cannot be read or its contents.
def load (lib : PropertyTreeLibrary) (file : Option Text) (as : Accounts) : Load :=
  match file.bind lib.readJson with
  | none       => ⟨as, [false], none⟩
  | some ptree =>
    match convertAll lib ptree.children as.removeAll with
    | (as', none)   => ⟨as', [true], none⟩
    | (as', some e) => ⟨as', [], some e⟩

variable {lib : PropertyTreeLibrary} {as as' : Accounts} {c : Text × Ptree} {cs cs' : List (Text × Ptree)}

-- An entry with a username that can be part of a path, all fields and a Boolean.
structure Complete (lib : PropertyTreeLibrary) (c : Text × Ptree) : Prop where
  username : Path.Valid c.fst ∧ Path.isAbsolute c.fst = false
  fields   : ∀ key ∈ ["password", "first-name", "last-name", "enabled", "groups"],
    (c.snd.child key.toList).isSome = true
  enabled  : ∀ e ∈ c.snd.child "enabled".toList, (lib.toBool e.data).isSome = true

theorem mapM_ok {f : String → Except Exception Text} {ts : List String}
    (h : ∀ t ∈ ts, ∃ r, f t = .ok r) : ∃ rs, ts.mapM f = .ok rs := by
  induction ts
  case nil => exact ⟨[], rfl⟩
  case cons t ts ih =>
    obtain ⟨r, hr⟩ := h t List.mem_cons_self
    obtain ⟨rs, hrs⟩ := ih fun t' ht' => h t' (List.mem_cons_of_mem t ht')
    exact ⟨r :: rs, by simp [List.mapM_cons, hr, hrs]⟩

theorem terminalPaths_ok_iff {username : Text} :
    (∃ ps, terminalPaths username = .ok ps) ↔ Path.Valid username ∧ Path.isAbsolute username = false := by
  obtain ⟨accounts, ha⟩ := Path.make_ok_iff.mpr (show Path.Valid (text "Accounts") by rw [text_eq]; decide)
  simp only [terminalPaths, ha, Except.ok_bind]
  constructor
  case mp =>
    rintro ⟨ps, h⟩
    obtain ⟨name, hn, h⟩ := Except.bind_eq_ok.mp h
    obtain ⟨path, hp, h⟩ := Except.bind_eq_ok.mp h
    refine ⟨Path.make_ok_iff.mp ⟨name, hn⟩, ?_⟩
    rw [← Path.isAbsolute_of_make hn]
    exact (Path.div_ok_iff (Path.made_of_make ha) (Path.made_of_make hn).valid).mp ⟨path, hp⟩
  case mpr =>
    rintro ⟨hv, hs⟩
    obtain ⟨name, hn⟩ := Path.make_ok_iff.mpr hv
    rw [← Path.isAbsolute_of_make hn] at hs
    obtain ⟨path, hp⟩ := (Path.div_ok_iff (Path.made_of_make ha) (Path.made_of_make hn).valid).mpr hs
    simp only [hn, hp, Except.ok_bind]
    refine mapM_ok fun terminal ht => ?_
    have hc : Path.Valid (text terminal) ∧ Path.isAbsolute (text terminal) = false := by
      rw [text_eq]
      revert terminal
      decide
    obtain ⟨other, ho⟩ := Path.make_ok_iff.mpr hc.left
    have hs := (Path.isAbsolute_of_make ho).trans hc.right
    simp only [ho, Except.ok_bind]
    exact (Path.div_ok_iff (Path.made_of_div hp) (Path.made_of_make ho).valid).mpr hs

theorem getString_ok_iff {t : Ptree} {key : String} {s : Text} :
    getString t key = .ok s ↔ ∃ d, t.child key.toList = some d ∧ d.data = s := by
  simp only [getString]
  split
  case h_1 h => simp [h]
  case h_2 h => simp [h]

theorem getBool_ok_iff {t : Ptree} {key : String} {b : Bool} :
    getBool lib t key = .ok b ↔ ∃ d, t.child key.toList = some d ∧ lib.toBool d.data = some b := by
  simp only [getBool, Except.bind_eq_ok, getString_ok_iff]
  constructor
  case mp =>
    rintro ⟨_, ⟨d, hd, rfl⟩, h⟩
    split at h
    case h_1 hb => cases h; exact ⟨d, hd, hb⟩
    case h_2    => cases h
  case mpr =>
    rintro ⟨d, hd, hb⟩
    exact ⟨d.data, ⟨d, hd, rfl⟩, by rw [hb]⟩

theorem getChild_ok_iff {t d : Ptree} {key : String} :
    getChild t key = .ok d ↔ t.child key.toList = some d := by
  simp only [getChild]
  split
  case h_1 h => simp [h]
  case h_2 h => simp [h]

theorem loadAccount_ok_iff : (∃ a, loadAccount lib c = .ok a) ↔
    (∀ key ∈ ["password", "first-name", "last-name", "enabled", "groups"],
      (c.snd.child key.toList).isSome = true) ∧
    ∀ e ∈ c.snd.child "enabled".toList, (lib.toBool e.data).isSome = true := by
  simp only [loadAccount, Except.bind_eq_ok, getString_ok_iff, getBool_ok_iff, getChild_ok_iff,
    List.forall_mem_cons, Option.isSome_iff_exists, Option.mem_def]
  constructor
  case mp =>
    rintro ⟨a, _, ⟨p, hp, _⟩, _, ⟨f, hf, _⟩, _, ⟨l, hl, _⟩, b, ⟨e, he, hb⟩, g, hg, _⟩
    refine ⟨⟨⟨p, hp⟩, ⟨f, hf⟩, ⟨l, hl⟩, ⟨e, he⟩, ⟨g, hg⟩, by simp⟩, fun e' he' => ?_⟩
    cases he.symm.trans he'
    exact ⟨b, hb⟩
  case mpr =>
    rintro ⟨⟨⟨p, hp⟩, ⟨f, hf⟩, ⟨l, hl⟩, ⟨e, he⟩, ⟨g, hg⟩, _⟩, hb⟩
    obtain ⟨b, hb⟩ := hb e he
    exact ⟨_, p.data, ⟨p, hp, rfl⟩, f.data, ⟨f, hf, rfl⟩, l.data, ⟨l, hl, rfl⟩, b, ⟨e, he, hb⟩, g, hg, rfl⟩

theorem loadAccount_username : (loadAccount lib c).Returns fun a => a.username = c.fst := by
  simp only [loadAccount]
  exact .bind' fun _ => .bind' fun _ => .bind' fun _ => .bind' fun _ => .bind' fun _ => .pure rfl

theorem convert_eq_ok {a : Account} :
    convert lib c = .ok a ↔ loadAccount lib c = .ok a ∧ ∃ ps, terminalPaths c.fst = .ok ps := by
  simp only [convert, Except.bind_eq_ok]
  cases h : loadAccount lib c
  case error e => simp [Except.mapError]
  case ok b    =>
    have hu := loadAccount_username b h
    simp [Except.mapError, hu, pure, Except.pure, and_comm]

theorem convert_ok_iff : (∃ a, convert lib c = .ok a) ↔ Complete lib c := by
  simp only [convert_eq_ok, exists_and_right, loadAccount_ok_iff, terminalPaths_ok_iff]
  exact ⟨fun h => ⟨h.right, h.left.left, h.left.right⟩, fun h => ⟨⟨h.fields, h.enabled⟩, h.username⟩⟩

theorem convertAll_cons {a : Account} (h : convert lib c = .ok a) :
    convertAll lib (c :: cs) as = convertAll lib cs (as.add a) := by
  simp [convertAll, h]

theorem convertAll_succeeds_iff : (convertAll lib cs as).snd = none ↔ ∀ c ∈ cs, Complete lib c := by
  induction cs generalizing as
  case nil => simp [convertAll]
  case cons c cs ih =>
    rw [List.forall_mem_cons, ← convert_ok_iff]
    cases h : convert lib c
    case ok a    => simpa [convertAll_cons h] using ih
    case error e => simp [convertAll, h]

-- The accounts of the entries before the first one that cannot be converted are kept.
theorem convertAll_fails {e : Exception} (hc : ∀ c ∈ cs, Complete lib c) (he : convert lib c = .error e) :
    convertAll lib (cs ++ c :: cs') as = ((convertAll lib cs as).fst, some e) := by
  induction cs generalizing as
  case nil => simp [convertAll, he]
  case cons d cs ih =>
    obtain ⟨a, ha⟩ := convert_ok_iff.mpr (hc d List.mem_cons_self)
    rw [List.cons_append, convertAll_cons ha, convertAll_cons ha]
    exact ih fun d hd => hc d (List.mem_cons_of_mem _ hd)

-- The account in the file: of several entries with the same name the last one counts.
def accountOf (lib : PropertyTreeLibrary) (cs : List (Text × Ptree)) (username : Text) : Option Account :=
  (cs.filter fun c => c.fst = username).getLast?.bind fun c => (convert lib c).toOption

theorem accountOf_cons {username : Text} (hc : ∀ c ∈ cs, Complete lib c) :
    accountOf lib (c :: cs) username = (accountOf lib cs username).or
      (if c.fst = username then (convert lib c).toOption else none) := by
  have hl : ((c :: cs).filter fun c => c.fst = username).getLast? =
      (cs.filter fun c => c.fst = username).getLast?.or (if c.fst = username then some c else none) := by
    rw [List.filter_cons]
    by_cases hu : c.fst = username
    · simp only [hu, decide_true, if_true, List.getLast?_cons]
      cases (cs.filter fun c => c.fst = username).getLast? <;> rfl
    · simp [hu]
  simp only [accountOf, hl]
  cases h : (cs.filter fun c => c.fst = username).getLast?
  case none   => split <;> rfl
  case some d =>
    obtain ⟨a, ha⟩ := convert_ok_iff.mpr (hc d (List.mem_filter.mp (List.mem_of_getLast? h)).left)
    simp [ha, Except.toOption]

theorem find_convertAll {username : Text} (hc : ∀ c ∈ cs, Complete lib c) :
    (convertAll lib cs as).fst.find username = (accountOf lib cs username).or (as.find username) := by
  induction cs generalizing as
  case nil => simp [convertAll, accountOf]
  case cons c cs ih =>
    rw [List.forall_mem_cons] at hc
    obtain ⟨a, ha⟩ := convert_ok_iff.mpr hc.left
    have hu := loadAccount_username a (convert_eq_ok.mp ha).left
    rw [convertAll_cons ha, ih hc.right, accountOf_cons hc.right, Accounts.find_add, hu, ha, Option.or_assoc]
    split <;> rfl

-- The accounts are those of the file.
def IsContent (lib : PropertyTreeLibrary) (file : Option Text) (as : Accounts) : Prop :=
  ∃ ptree ∈ file.bind lib.readJson, ∀ username, as.find username = accountOf lib ptree.children username

-- Either the accounts are those of the file and the handler is called with `true` or nothing changes and
-- the handler is called with `false`.
def Load.Atomic (lib : PropertyTreeLibrary) (file : Option Text) (as : Accounts) (r : Load) : Prop :=
  (r.posted = [true] ∧ r.thrown = none ∧ IsContent lib file r.accounts) ∨
  (r.posted = [false] ∧ r.thrown = none ∧ r.accounts = as)

def incompleteFile : Text :=
  "\x7b\"user\": \x7b\x7d\x7d".toList

end FileAccountProvider

end Yogi.AccountManager
