import Mathlib
import YogiModel.Base.JsonStrings
import YogiModel.AccountManager.FileAccountProvider

namespace Yogi.AccountManager

-- The same fields and the same set of groups.
structure Account.Same (a b : Account) : Prop where
  username  : a.username = b.username
  password  : a.password = b.password
  firstName : a.firstName = b.firstName
  lastName  : a.lastName = b.lastName
  groups    : ∀ g, g ∈ a.groups ↔ g ∈ b.groups
  enabled   : a.enabled = b.enabled

def Account.strings (a : Account) : List Text :=
  a.username :: a.password :: a.firstName :: a.lastName :: a.groups

namespace Accounts

def strings (as : Accounts) : List Text :=
  as.entries.flatMap Account.strings

def Same (as bs : Accounts) : Prop :=
  ∀ username,
    match as.find username, bs.find username with
    | some a, some b => a.Same b
    | none, none     => True
    | _, _           => False

theorem find?_of_nodup {l : List Account} {a} (hn : (l.map Account.username).Nodup) (h : a ∈ l) :
    (l.find? fun b => b.username == a.username) = some a := by
  induction l
  case nil => cases h
  case cons b bs ih =>
    rw [List.map_cons, List.nodup_cons] at hn
    cases List.mem_cons.mp h
    case inl he => simp [he]
    case inr hm =>
      have hne : b.username ≠ a.username := by
        intro he
        exact hn.left (he ▸ List.mem_map_of_mem hm)
      simp [hne, ih hn.right hm]

theorem find_of_mem {as : Accounts} {a} (h : a ∈ as.entries) : as.find a.username = some a :=
  find?_of_nodup as.nodup h

theorem mem_of_find {as : Accounts} {u a} (h : as.find u = some a) : a ∈ as.entries :=
  List.mem_of_find?_eq_some h

theorem find_add {as : Accounts} {a : Account} {u} :
    (as.add a).find u = if a.username = u then some a else as.find u := by
  by_cases h : a.username = u
  · simp [find, add, h]
  · have hf : (as.entries.filter fun b => b.username ≠ a.username).find?
        (fun b => b.username == u) = as.entries.find? fun b => b.username == u := by
      rw [List.find?_filter]
      congr 1
      funext b
      by_cases hb : b.username = u
      · have hn : ¬ u = a.username := fun he => h he.symm
        simp [hb, hn]
      · simp [hb]
    have hn : (a.username == u) = false := by simp [h]
    simp only [find, add, List.find?_cons, hn, hf, h, if_false]

end Accounts

namespace FileAccountProvider

variable {lib : PropertyTreeLibrary} {as : Accounts}

-- The lines behind the first one, each with the line break before it.
def tail (lines : List Text) : Text :=
  lines.flatMap fun line => '\n' :: line

theorem tail_append {ls ls' : List Text} : tail (ls ++ ls') = tail ls ++ tail ls' :=
  List.flatMap_append

theorem tail_singleton {l : Text} : tail [l] = '\n' :: l := by
  simp [tail]

theorem unlines_cons {l : Text} {ls : List Text} :
    ((l :: ls).flatMap fun line => line ++ ['\n']) = l ++ tail ls ++ ['\n'] := by
  induction ls generalizing l
  case nil => simp [tail]
  case cons l' ls ih =>
    rw [List.flatMap_cons, ih]
    simp [tail]

theorem popBack_concat {ls : List Text} {l : Text} : popBack (ls ++ [l]) = ls ++ [l.dropLast] :=
  List.modifyLast_concat ..

-- The accounts in the order in which they are saved.
def saved (as : Accounts) : List Account :=
  (sort (as.entries.map Account.username)).filterMap as.find

theorem mem_sort {t : Text} {ts : List Text} : t ∈ sort ts ↔ t ∈ ts :=
  List.mem_mergeSort

theorem saved_usernames : (saved as).map Account.username = sort (as.entries.map Account.username) := by
  have hs : ∀ us : List Text, (∀ u ∈ us, u ∈ as.entries.map Account.username) →
      (us.filterMap as.find).map Account.username = us := by
    intro us h
    induction us
    case nil => rfl
    case cons u us ih =>
      obtain ⟨a, ha, hu⟩ := List.mem_map.mp (h u List.mem_cons_self)
      have hf : as.find u = some a := hu ▸ Accounts.find_of_mem ha
      rw [List.filterMap_cons_some hf, List.map_cons, hu,
        ih fun x hx => h x (List.mem_cons_of_mem u hx)]
  exact hs _ fun _ h => mem_sort.mp h

theorem saved_nodup (as : Accounts) : ((saved as).map Account.username).Nodup := by
  rw [saved_usernames]
  exact (List.mergeSort_perm ..).nodup_iff.mpr as.nodup

theorem mem_saved {a : Account} : a ∈ saved as ↔ a ∈ as.entries := by
  simp only [saved, List.mem_filterMap]
  constructor
  case mp =>
    intro h
    obtain ⟨u, _, hf⟩ := h
    exact Accounts.mem_of_find hf
  case mpr =>
    intro h
    exact ⟨a.username, mem_sort.mpr (List.mem_map_of_mem h), Accounts.find_of_mem h⟩

theorem saved_lines :
    (sort (as.entries.map Account.username)).flatMap
      (fun username => (as.find username).elim [] accountLines) =
      (saved as).flatMap accountLines := by
  have hs : ∀ us : List Text, us.flatMap (fun u => (as.find u).elim [] accountLines) =
      (us.filterMap as.find).flatMap accountLines := by
    intro us
    induction us
    case nil => rfl
    case cons u us ih =>
      rw [List.flatMap_cons, ih, List.filterMap_cons]
      cases as.find u <;> simp
  exact hs _

theorem saved_eq_nil : saved as = [] ↔ as.entries.isEmpty = true := by
  rw [List.isEmpty_iff]
  constructor
  case mp =>
    intro h
    rw [List.eq_nil_iff_forall_not_mem]
    intro a ha
    have := mem_saved.mpr ha
    simp [h] at this
  case mpr =>
    intro h
    rw [List.eq_nil_iff_forall_not_mem]
    intro a ha
    have := mem_saved.mp ha
    simp [h] at this

theorem text_eq {s : String} : text s = s.toList := by
  rw [text]

-- What the groups of an account are saved as.
def groupsText : List Text → Text
  | []      => text "\n    "
  | [g]     => text "\n      " ++ ('"' :: g ++ ['"']) ++ text "\n    "
  | g :: gs => text "\n      " ++ ('"' :: g ++ ['"']) ++ ',' :: groupsText gs

def groupLine (group : Text) : Text :=
  text "      \"" ++ group ++ text "\","

def groupLines (groups : List Text) : List Text :=
  if groups.isEmpty then [] else popBack (groups.map groupLine)

theorem popBack_cons {l l' : Text} {ls} : popBack (l :: l' :: ls) = l :: popBack (l' :: ls) := by
  obtain ⟨init, x, hx⟩ := List.eq_nil_or_concat' (l' :: ls) |>.resolve_left (by simp)
  rw [hx, popBack_concat, ← List.cons_append, popBack_concat, List.cons_append]

theorem groupLine_dropLast {g : Text} :
    (groupLine g).dropLast = text "      " ++ ('"' :: g ++ ['"']) := by
  have hs : groupLine g = (text "      " ++ ('"' :: g ++ ['"'])) ++ [','] := by
    simp [groupLine, text_eq]
  rw [hs, List.dropLast_concat]

theorem tail_groupLines {gs : List Text} :
    tail (groupLines gs ++ [text "    ]"]) = groupsText gs ++ [']'] := by
  induction gs
  case nil => simp [groupLines, groupsText, tail, text_eq]
  case cons g gs ih =>
    cases gs
    case nil =>
      have hp : popBack ([] ++ [groupLine g]) = [] ++ [(groupLine g).dropLast] := popBack_concat
      simp only [List.nil_append] at hp
      simp [groupLines, hp, groupLine_dropLast, groupsText, tail, text_eq]
    case cons g' gs =>
      have he : groupLines (g :: g' :: gs) = groupLine g :: groupLines (g' :: gs) := by
        simp only [groupLines, List.isEmpty_cons, Bool.false_eq_true, if_false, List.map_cons]
        exact popBack_cons
      have hg : groupsText (g :: g' :: gs) =
          text "\n      " ++ ('"' :: g ++ ['"']) ++ ',' :: groupsText (g' :: gs) := rfl
      rw [he, List.cons_append, ← List.singleton_append, tail_append, ih, hg, tail_singleton]
      simp [groupLine, text_eq]

-- The lines of an account but for the last one.
def accountBody (a : Account) : List Text :=
  [ text "  \"" ++ a.username ++ text "\": \x7b",
    text "    \"password\": \"" ++ a.password ++ text "\",",
    text "    \"first-name\": \"" ++ a.firstName ++ text "\",",
    text "    \"last-name\": \"" ++ a.lastName ++ text "\",",
    text "    \"enabled\": " ++ text (if a.enabled then "true" else "false") ++ text ",",
    text "    \"groups\": ["] ++ (groupLines (sort a.groups) ++ [text "    ]"])

theorem isEmpty_sort {ts : List Text} : (sort ts).isEmpty = ts.isEmpty := by
  rw [Bool.eq_iff_iff, List.isEmpty_iff, List.isEmpty_iff, ← List.length_eq_zero_iff,
    ← List.length_eq_zero_iff, sort, List.length_mergeSort]

theorem accountLines_eq {a : Account} :
    accountLines a = accountBody a ++ [text "  \x7d,"] := by
  simp only [accountLines, accountBody, groupLines, isEmpty_sort]
  by_cases h : a.groups.isEmpty = true
  · have hs : sort a.groups = [] := by
      rw [List.isEmpty_iff] at h
      simp [h, sort]
    simp [h, hs]
  · have hs : sort a.groups ≠ [] := by
      intro hn
      exact h (isEmpty_sort.symm.trans (by simp [hn]))
    obtain ⟨init, g, hg⟩ := List.eq_nil_or_concat' (sort a.groups) |>.resolve_left hs
    simp only [h, Bool.false_eq_true, if_false, hg, List.map_append, List.map_cons, List.map_nil]
    rw [popBack_concat, ← List.append_assoc, popBack_concat]
    simp [groupLine, text_eq]

open Json (Clean Spaces Derives derives_string literal_of_clean)

def groupEntries (gs : List Text) : List (Text × Ptree) :=
  gs.map fun g => ([], .leaf g)

theorem spaces_of_all {w : Text} (h : w.all Json.isSpace = true) : Spaces w :=
  List.all_eq_true.mp h

theorem derives_group {g w₁ w₂ : Text} (hg : Clean g) (h₁ : Spaces w₁) (h₂ : Spaces w₂) :
    Derives (.entry false ([], .leaf g)) (w₁ ++ ('"' :: g ++ ['"']) ++ w₂) :=
  .element h₁ (derives_string hg) h₂

theorem spaces_text {s : String} (h : s.toList.all Json.isSpace = true) : Spaces (text s) := by
  rw [text_eq]
  exact spaces_of_all h

theorem derives_groupEntries {g gs} (hc : ∀ x ∈ g :: gs, Clean x) :
    Derives (.entries false (groupEntries (g :: gs))) (groupsText (g :: gs)) := by
  have h₁ : Spaces (text "\n      ") := spaces_text (by decide)
  have h₂ : Spaces (text "\n    ") := spaces_text (by decide)
  induction gs generalizing g
  case nil => exact .one (derives_group (hc g List.mem_cons_self) h₁ h₂)
  case cons g' gs ih =>
    have hg := derives_group (hc g List.mem_cons_self) h₁ (show Spaces [] from fun _ h => by cases h)
    rw [List.append_nil] at hg
    exact .more hg (ih fun x hx => hc x (List.mem_cons_of_mem g hx))

theorem derives_groups {gs : List Text} (hc : ∀ x ∈ gs, Clean x) :
    Derives (.tree (.node [] (groupEntries gs))) ('[' :: groupsText gs ++ [']']) := by
  cases gs
  case nil => exact .empty (b := false) (spaces_text (by decide))
  case cons g gs => exact .group (b := false) (derives_groupEntries hc)

def boolText (b : Bool) : Text :=
  text (if b then "true" else "false")

def accountTree (a : Account) : Ptree :=
  .node [] [
    ("password".toList, .leaf a.password),
    ("first-name".toList, .leaf a.firstName),
    ("last-name".toList, .leaf a.lastName),
    ("enabled".toList, .leaf (boolText a.enabled)),
    ("groups".toList, .node [] (groupEntries (sort a.groups)))]

def memberText (key : String) (value : Text) : Text :=
  text "\n    " ++ '"' :: key.toList ++ '"' :: [] ++ ':' :: text " " ++ value ++ []

theorem derives_member {key : String} {t value} (hk : Clean key.toList)
    (h : Derives (.tree t) value) :
    Derives (.entry true (key.toList, t)) (memberText key value) :=
  .member (spaces_text (by decide)) (literal_of_clean hk) (fun _ h => by cases h)
    (spaces_text (by decide)) h (fun _ h => by cases h)

def Account.Clean (a : Account) : Prop :=
  ∀ s ∈ a.strings, Json.Clean s

-- The text of an account between its braces.
def accountText (a : Account) : Text :=
  memberText "password" ('"' :: a.password ++ ['"']) ++ ',' ::
  (memberText "first-name" ('"' :: a.firstName ++ ['"']) ++ ',' ::
  (memberText "last-name" ('"' :: a.lastName ++ ['"']) ++ ',' ::
  (memberText "enabled" (boolText a.enabled) ++ ',' ::
  (text "\n    " ++ '"' :: "groups".toList ++ '"' :: [] ++ ':' :: text " " ++
    ('[' :: groupsText (sort a.groups) ++ [']']) ++ text "\n  "))))

theorem derives_account {a : Account} {w} (hc : Account.Clean a) (hw : Spaces w) :
    Derives (.entry true (a.username, accountTree a))
      (text "\n  " ++ '"' :: a.username ++ '"' :: [] ++ ':' :: text " " ++
        ('\x7b' :: accountText a ++ ['\x7d']) ++ w) := by
  have hs : ∀ s ∈ a.strings, Clean s := hc
  simp only [Account.strings, List.mem_cons, forall_eq_or_imp] at hs
  obtain ⟨hu, hp, hf, hl, hg⟩ := hs
  have hgs : ∀ x ∈ sort a.groups, Clean x := fun x hx => hg x (mem_sort.mp hx)
  have hen : Derives (.tree (.leaf (boolText a.enabled))) (boolText a.enabled) := by
    apply Derives.name
    rw [boolText, text_eq]
    cases a.enabled <;> decide
  apply Derives.member (spaces_text (by decide)) (literal_of_clean hu) (fun _ h => by cases h)
    (spaces_text (by decide)) _ hw
  apply Derives.group (b := true)
  apply Derives.more (derives_member (by decide) (derives_string hp))
  apply Derives.more (derives_member (by decide) (derives_string hf))
  apply Derives.more (derives_member (by decide) (derives_string hl))
  apply Derives.more (derives_member (by decide) hen)
  exact .one (.member (spaces_text (by decide)) (literal_of_clean (by decide))
    (fun _ h => by cases h) (spaces_text (by decide)) (derives_groups hgs) (spaces_text (by decide)))

theorem tail_accountBody {a : Account} :
    tail (accountBody a) ++ text "\n  \x7d" =
      text "\n  " ++ '"' :: a.username ++ '"' :: [] ++ ':' :: text " " ++
        ('\x7b' :: accountText a ++ ['\x7d']) := by
  rw [accountBody, tail_append, tail_groupLines]
  simp [tail, accountText, memberText, boolText, text_eq]

-- What a number of accounts is saved as between the outer braces.
def accountsText : List Account → Text
  | []      => text "\n"
  | [a]     => tail (accountBody a) ++ text "\n  \x7d" ++ text "\n"
  | a :: as => tail (accountBody a) ++ text "\n  \x7d" ++ ',' :: accountsText as

theorem popBack_append {ls ls' : List Text} (h : ls' ≠ []) :
    popBack (ls ++ ls') = ls ++ popBack ls' := by
  obtain ⟨init, x, rfl⟩ := List.eq_nil_or_concat' ls' |>.resolve_left h
  rw [popBack_concat, ← List.append_assoc, popBack_concat, List.append_assoc]

theorem tail_accounts {a : Account} {as : List Account} :
    tail (popBack ((a :: as).flatMap accountLines)) ++ text "\n" = accountsText (a :: as) := by
  induction as generalizing a
  case nil =>
    have hd : (text "  \x7d,").dropLast = text "  \x7d" := by
      rw [text_eq, text_eq]
      decide
    rw [List.flatMap_singleton, accountLines_eq, popBack_concat, tail_append, tail_singleton, hd]
    simp [accountsText, text_eq]
  case cons b as ih =>
    have hn : (b :: as).flatMap accountLines ≠ [] := by
      rw [List.flatMap_cons, accountLines_eq]
      simp
    have he : accountsText (a :: b :: as) =
        tail (accountBody a) ++ text "\n  \x7d" ++ ',' :: accountsText (b :: as) := rfl
    rw [List.flatMap_cons, popBack_append hn, tail_append, List.append_assoc, ih, he,
      accountLines_eq, tail_append, tail_singleton]
    simp [text_eq]

theorem derives_accounts {a : Account} {as : List Account}
    (hc : ∀ b ∈ a :: as, Account.Clean b) :
    Derives (.entries true ((a :: as).map fun a => (a.username, accountTree a)))
      (accountsText (a :: as)) := by
  induction as generalizing a
  case nil =>
    have h := derives_account (hc a List.mem_cons_self) (spaces_text (s := "\n") (by decide))
    rw [← tail_accountBody] at h
    exact .one h
  case cons b as ih =>
    have h := derives_account (w := []) (hc a List.mem_cons_self) (fun _ h => by cases h)
    rw [← tail_accountBody, List.append_nil] at h
    exact .more h (ih fun x hx => hc x (List.mem_cons_of_mem a hx))

def accountsTree (as : List Account) : Ptree :=
  .node [] (as.map fun a => (a.username, accountTree a))

theorem asyncSaveAccounts_eq :
    asyncSaveAccounts as = '\x7b' :: accountsText (saved as) ++ ['\x7d'] ++ text "\n" := by
  simp only [asyncSaveAccounts, saveLines, saved_lines]
  cases h : saved as
  case nil =>
    have he := saved_eq_nil.mp h
    simp [he, accountsText, text_eq]
  case cons a accs =>
    have he : as.entries.isEmpty = false := by
      rw [← Bool.not_eq_true]
      intro hn
      simp [saved_eq_nil.mpr hn] at h
    have hn : (a :: accs).flatMap accountLines ≠ [] := by
      rw [List.flatMap_cons, accountLines_eq]
      simp
    simp only [he, Bool.false_eq_true, if_false]
    rw [popBack_append hn, List.append_assoc, List.singleton_append, unlines_cons, tail_append,
      ← tail_accounts]
    simp [tail_singleton, text_eq]

theorem isText_saved (hc : ∀ a ∈ as.entries, Account.Clean a) :
    Json.IsText (asyncSaveAccounts as) (accountsTree (saved as)) := by
  refine ⟨[], '\x7b' :: accountsText (saved as) ++ ['\x7d'], text "\n", (fun _ h => by cases h), ?_,
    spaces_text (by decide), by rw [asyncSaveAccounts_eq]; simp⟩
  cases h : saved as
  case nil => exact .empty (b := true) (spaces_text (by decide))
  case cons a accs =>
    apply Derives.group (b := true)
    apply derives_accounts
    intro b hb
    exact hc b (mem_saved.mp (h ▸ hb))

-- An account as it is read back: the set of its groups is in another order.
def reload (a : Account) : Account :=
  { a with groups := (sort a.groups).dedup, nodup := List.nodup_dedup _ }

theorem reload_same {a : Account} : a.Same (reload a) where
  username  := rfl
  password  := rfl
  firstName := rfl
  lastName  := rfl
  groups    := by
    intro g
    simp [reload, mem_sort]
  enabled   := rfl

theorem getBool_accountTree {a : Account} : getBool lib (accountTree a) "enabled" = .ok a.enabled := by
  have hb : lib.toBool (boolText a.enabled) = some a.enabled := by
    rw [boolText, text_eq]
    cases a.enabled
    case true  => exact lib.toBool_true
    case false => exact lib.toBool_false
  have hs : getString (accountTree a) "enabled" = .ok (boolText a.enabled) := rfl
  simp only [getBool, hs, hb, bind, Except.bind]

theorem loadAccount_accountTree {a : Account} :
    loadAccount lib (a.username, accountTree a) = .ok (reload a) := by
  have hp : getString (accountTree a) "password" = .ok a.password := rfl
  have hf : getString (accountTree a) "first-name" = .ok a.firstName := rfl
  have hl : getString (accountTree a) "last-name" = .ok a.lastName := rfl
  have hc : getChild (accountTree a) "groups" = .ok (.node [] (groupEntries (sort a.groups))) := rfl
  have hg : (groupEntries (sort a.groups)).map (fun c => c.snd.data) = sort a.groups := by
    simp [groupEntries, Ptree.leaf, Function.comp_def]
  simp only [loadAccount, hp, hf, hl, hc, getBool_accountTree, bind, Except.bind, pure, Except.pure,
    Ptree.children_node, hg, insertAll, reload]

theorem loadAccounts_accountsTree (lib : PropertyTreeLibrary) {accs : List Account} (bs : Accounts)
    (hn : (accs.map Account.username).Nodup) :
    ∃ bs', loadAccounts lib (accountsTree accs).children bs = .ok bs' ∧
      ∀ u, bs'.find u = ((accs.find? fun a => a.username == u).map reload).or (bs.find u) := by
  induction accs generalizing bs
  case nil => exact ⟨bs, rfl, fun _ => rfl⟩
  case cons a accs ih =>
    rw [List.map_cons, List.nodup_cons] at hn
    obtain ⟨bs', hl, hf⟩ := ih (bs.add (reload a)) hn.right
    refine ⟨bs', ?_, ?_⟩
    · simp only [accountsTree, Ptree.children_node, List.map_cons, loadAccounts,
        loadAccount_accountTree] at hl ⊢
      exact hl
    · intro u
      rw [hf, Accounts.find_add]
      by_cases hu : a.username = u
      · have hnone : (accs.find? fun b => b.username == u) = none := by
          rw [List.find?_eq_none]
          intro b hb he
          have he : b.username = u := by simpa using he
          exact hn.left (hu ▸ he ▸ List.mem_map_of_mem hb)
        simp [hu, hnone, reload]
      · simp [hu, reload]

-- The saved accounts are loaded again.
def Survives (lib : PropertyTreeLibrary) (as : Accounts) : Prop :=
  ∃ bs, asyncLoadAccounts lib (asyncSaveAccounts as) = .ok bs ∧ as.Same bs

theorem survives_of_clean (hc : ∀ a ∈ as.entries, Account.Clean a) : Survives lib as := by
  have ht := (lib.conforming _ _).mpr (isText_saved hc)
  obtain ⟨bs, hl, hf⟩ := loadAccounts_accountsTree lib .empty (saved_nodup as)
  refine ⟨bs, by simp only [asyncLoadAccounts, ht, hl], ?_⟩
  intro u
  have hs : (saved as).find? (fun a => a.username == u) = as.find u := by
    cases h : as.find u
    case some a =>
      have hu := Accounts.username_of_find h
      subst hu
      exact Accounts.find?_of_nodup (saved_nodup as) (mem_saved.mpr (Accounts.mem_of_find h))
    case none =>
      simp only [Accounts.find, List.find?_eq_none] at h ⊢
      exact fun a ha => h a (mem_saved.mp ha)
  rw [hf, hs]
  cases as.find u
  case none   => simp [Accounts.find, Accounts.empty]
  case some a => simp [reload_same]

end FileAccountProvider

end Yogi.AccountManager
