import Mathlib
import YogiModel.Base.Ptree

namespace Yogi.AccountManager

-- The class `Account`. The groups are a set.
structure Account where
  username  : Text
  password  : Text
  firstName : Text
  lastName  : Text
  groups    : List Text
  enabled   : Bool
  nodup     : groups.Nodup
  deriving DecidableEq

-- The map from usernames to accounts that an `AccountProvider` has.
structure Accounts where
  entries : List Account
  nodup   : (entries.map Account.username).Nodup

namespace Accounts

def find (as : Accounts) (username : Text) : Option Account :=
  as.entries.find? fun a => a.username == username

theorem username_of_find {as : Accounts} {username a} (h : as.find username = some a) :
    a.username = username := by
  have := List.find?_some h
  simpa using this

-- `AccountManager::get_account`
def getAccount (as : Accounts) (username : Text) : Except String Account :=
  match as.find username with
  | some a => .ok a
  | none   => .error s!"Unknown username {String.ofList username}"

theorem username_of_getAccount {as : Accounts} {username a}
    (h : as.getAccount username = .ok a) : a.username = username := by
  simp only [getAccount] at h
  split at h
  case h_1 hf =>
    cases h
    exact username_of_find hf
  case h_2 => cases h

end Accounts

end Yogi.AccountManager
