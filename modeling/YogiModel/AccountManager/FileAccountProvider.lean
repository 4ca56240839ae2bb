import Mathlib
import YogiModel.Base.JsonParser
import YogiModel.AccountManager.Account

namespace Yogi.AccountManager

-- What is used of the property tree library: a parser for JSON and the conversion of a text to a
-- Boolean, which fails for all but a few texts.
structure PropertyTreeLibrary where
  readJson     : Text → Option Ptree
  toBool       : Text → Option Bool
  conforming   : Json.Conforming readJson
  toBool_true  : toBool "true".toList = some true
  toBool_false : toBool "false".toList = some false

inductive LoadError
  | notRead
  | badPath
  | badData
  deriving DecidableEq

namespace Accounts

def empty : Accounts :=
  ⟨[], List.nodup_nil⟩

-- `m_accounts[account->username()] = account`
def add (as : Accounts) (a : Account) : Accounts where
  entries := a :: as.entries.filter fun b => b.username ≠ a.username
  nodup   := by
    rw [List.map_cons, List.nodup_cons]
    constructor
    case left =>
      intro h
      obtain ⟨b, hb, he⟩ := List.mem_map.mp h
      have := (List.mem_filter.mp hb).right
      simp [he] at this
    case right => exact (List.filter_sublist.map _).nodup as.nodup

end Accounts

namespace FileAccountProvider

def getString (t : Ptree) (key : String) : Except LoadError Text :=
  match t.child key.toList with
  | some c => .ok c.data
  | none   => .error .badPath

def getBool (lib : PropertyTreeLibrary) (t : Ptree) (key : String) : Except LoadError Bool := do
  let data ← getString t key
  match lib.toBool data with
  | some b => .ok b
  | none   => .error .badData

def getChild (t : Ptree) (key : String) : Except LoadError Ptree :=
  match t.child key.toList with
  | some c => .ok c
  | none   => .error .badPath

def insertAll (groups : List Text) : { gs : List Text // gs.Nodup } :=
  ⟨groups.dedup, List.nodup_dedup groups⟩

def loadAccount (lib : PropertyTreeLibrary) (accChild : Text × Ptree) :
    Except LoadError Account := do
  let username := accChild.fst
  let password ← getString accChild.snd "password"
  let firstName ← getString accChild.snd "first-name"
  let lastName ← getString accChild.snd "last-name"
  let enabled ← getBool lib accChild.snd "enabled"
  let groupsChild ← getChild accChild.snd "groups"
  let groups := insertAll (groupsChild.children.map fun groupChild => groupChild.snd.data)
  pure {
    username  := username
    password  := password
    firstName := firstName
    lastName  := lastName
    groups    := groups.val
    enabled   := enabled
    nodup     := groups.property }

def loadAccounts (lib : PropertyTreeLibrary) :
    List (Text × Ptree) → Accounts → Except LoadError Accounts
  | [], as      => .ok as
  | c :: cs, as => do
    let a ← loadAccount lib c
    loadAccounts lib cs (as.add a)

def asyncLoadAccounts (lib : PropertyTreeLibrary) (file : Text) : Except LoadError Accounts :=
  match lib.readJson file with
  | none       => .error .notRead
  | some ptree => loadAccounts lib ptree.children .empty

-- A string of the source.
@[irreducible] def text (s : String) : Text :=
  s.toList

def sort (texts : List Text) : List Text :=
  texts.mergeSort fun a b => decide (a ≤ b)

-- `lines.back().pop_back()`
def popBack (lines : List Text) : List Text :=
  lines.modifyLast List.dropLast

def accountLines (account : Account) : List Text :=
  let lines := [
    text "  \"" ++ account.username ++ text "\": \x7b",
    text "    \"password\": \"" ++ account.password ++ text "\",",
    text "    \"first-name\": \"" ++ account.firstName ++ text "\",",
    text "    \"last-name\": \"" ++ account.lastName ++ text "\",",
    text "    \"enabled\": " ++ text (if account.enabled then "true" else "false") ++ text ",",
    text "    \"groups\": ["]
  let lines := lines ++
    (sort account.groups).map fun group => text "      \"" ++ group ++ text "\","
  let lines := if account.groups.isEmpty then lines else popBack lines
  lines ++ [text "    ]", text "  \x7d,"]

def saveLines (as : Accounts) : List Text :=
  let lines := [text "\x7b"] ++
    (sort (as.entries.map Account.username)).flatMap fun username =>
      (as.find username).elim [] accountLines
  let lines := if as.entries.isEmpty then lines else popBack lines
  lines ++ [text "\x7d"]

-- The file's contents.
def asyncSaveAccounts (as : Accounts) : Text :=
  (saveLines as).flatMap fun line => line ++ ['\n']

end FileAccountProvider

end Yogi.AccountManager
