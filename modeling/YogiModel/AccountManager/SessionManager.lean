import YogiModel.Base.Machine
import YogiModel.Base.Except
import YogiModel.AccountManager.Session

namespace Yogi.AccountManager

-- The class `SessionManager` together with the counters that all sessions share.
structure SessionManager where
  accounts : Accounts
  counters : Session.Counters
  sessions : List (Text × Session)

namespace SessionManager

-- `std::unordered_map::insert`
def insert (s : SessionManager) (name : Text) (session : Session) : SessionManager :=
  if s.sessions.any fun e => e.fst == name then
    s
  else
    { s with sessions := (name, session) :: s.sessions }

-- The construction of a session fails if its terminals cannot be created.
def makeSession (s : SessionManager) (account : Account) (tag : Text) (fails : Bool) :
    SessionManager × Except String Session :=
  let cnt := s.counters account.username + 1
  let s := { s with counters := Function.update s.counters account.username cnt }
  if fails then
    (s, .error "The session's terminals could not be created")
  else
    (s, .ok { name := Session.makeName account.username tag cnt, account := account })

-- The name in a successful response.
def onCreateRequestReceived (s : SessionManager) (username : Text) (fails : Bool) :
    SessionManager × Option Text :=
  match s.accounts.getAccount username with
  | .error _    => (s, none)
  | .ok account =>
    match s.makeSession account [] fails with
    | (s, .error _)    => (s, none)
    | (s, .ok session) => (s.insert session.name session, some session.name)

-- The sessions are visited in the order that the hash table has.
def onWebCreateRequestReceived (s : SessionManager) (username password : Text) (fails : Bool)
    (order : List (Text × Session)) : SessionManager × Option Text :=
  match s.accounts.getAccount username with
  | .error _    => (s, none)
  | .ok account =>
    if account.password ≠ password then
      (s, none)
    else
      match order.find? fun e => (username ++ ['-', 'w', 'e', 'b', '-']).isPrefixOf e.fst with
      | some (_, session) => (s.insert session.name session, some session.name)
      | none =>
        match s.makeSession account Session.web fails with
        | (s, .error _)    => (s, none)
        | (s, .ok session) => (s.insert session.name session, some session.name)

def terminateSession (s : SessionManager) (session : Session) : SessionManager :=
  { s with sessions := s.sessions.eraseP fun e => e.fst == session.name }

inductive Action
  | create (username : Text) (fails : Bool)
  | webCreate (username password : Text) (fails : Bool) (order : List (Text × Session))
  | terminate (session : Session)

def enabled (s : SessionManager) : Action → Prop
  | .webCreate _ _ _ order => order.Perm s.sessions
  | _                      => True

-- The state afterwards and, for a successful answer, the username of the request and the name.
def act (s : SessionManager) : Action → SessionManager × Option (Text × Text)
  | .create username fails =>
    let (s, name) := s.onCreateRequestReceived username fails
    (s, name.map fun name => (username, name))
  | .webCreate username password fails order =>
    let (s, name) := s.onWebCreateRequestReceived username password fails order
    (s, name.map fun name => (username, name))
  | .terminate session => (s.terminateSession session, none)

-- The state goes with the last answer.
def machine : Machine (SessionManager × Option (Text × Text)) Action Empty where
  init    := fun (s, answer) => s.sessions = [] ∧ answer = none
  enabled := fun (s, _) a => s.enabled a
  step    := fun (s, _) a => .ok (s.act a)

-- Sessions go by the names they were given, and the last answer names one of the user's sessions.
structure Isolated (s : SessionManager × Option (Text × Text)) : Prop where
  names  : ∀ e ∈ s.fst.sessions, e.snd.name = e.fst
  nodup  : (s.fst.sessions.map Prod.fst).Nodup
  answer : ∀ username name, s.snd = some (username, name) →
    ∃ session, (name, session) ∈ s.fst.sessions ∧ session.account.username = username

-- The user's sessions cannot be taken for those of a user who has a session.
def Distinguishable (s : SessionManager) : Action → Prop
  | .create username _ => ∀ e ∈ s.sessions, username = e.snd.account.username ++ '-' :: Session.web →
    e.fst ≠ Session.makeName username [] (s.counters username + 1)
  | .webCreate username password _ _ => ∀ account, s.accounts.getAccount username = .ok account →
    account.password = password → ∀ e ∈ s.sessions,
      e.snd.account.username ≠ username ++ '-' :: Session.web ∧
      ¬ (username ++ '-' :: Session.web ++ ['-']) <+: e.snd.account.username
  | .terminate _ => True

-- Where the names of the sessions come from.
structure Named (s : SessionManager) : Prop where
  nodup : (s.sessions.map Prod.fst).Nodup
  names : ∀ e ∈ s.sessions, e.snd.name = e.fst ∧
    ∃ tag cnt, Session.IsTag tag ∧ e.fst = Session.makeName e.snd.account.username tag cnt

theorem Named.update {s : SessionManager} {counters} (h : Named s) :
    Named { s with counters := counters } :=
  ⟨h.nodup, h.names⟩

theorem insert_of_mem {s : SessionManager} {name session e} (he : e ∈ s.sessions)
    (hn : e.fst = name) : s.insert name session = s := by
  apply if_pos
  rw [List.any_eq_true]
  exact ⟨e, he, by simp [hn]⟩

theorem insert_of_notMem {s : SessionManager} {name session}
    (h : ∀ e ∈ s.sessions, e.fst ≠ name) :
    s.insert name session = { s with sessions := (name, session) :: s.sessions } := by
  apply if_neg
  rw [List.any_eq_true]
  intro hc
  obtain ⟨e, he, hn⟩ := hc
  exact h e he (by simpa using hn)

theorem Named.insert {s : SessionManager} {account tag cnt} (h : Named s) (ht : Session.IsTag tag)
    (hn : ∀ e ∈ s.sessions, e.fst ≠ Session.makeName account.username tag cnt) :
    Named { s with sessions :=
      (Session.makeName account.username tag cnt,
        { name := Session.makeName account.username tag cnt, account := account }) ::
      s.sessions } := by
  constructor
  case nodup =>
    rw [List.map_cons, List.nodup_cons]
    refine ⟨?_, h.nodup⟩
    intro hm
    obtain ⟨e, he, hf⟩ := List.mem_map.mp hm
    exact hn e he hf
  case names =>
    intro e he
    cases List.mem_cons.mp he
    case inl he =>
      subst he
      exact ⟨rfl, tag, cnt, ht, rfl⟩
    case inr he => exact h.names e he

-- The answer to a request names a session of the user.
def Answered (s : SessionManager) (username : Text) (name : Option Text) : Prop :=
  ∀ n, name = some n → ∃ session, (n, session) ∈ s.sessions ∧ session.account.username = username

-- A new session is in the table unless there is one with its name.
theorem insert_new {s : SessionManager} {account tag cnt} (h : Named s) (ht : Session.IsTag tag)
    (hn : ∀ e ∈ s.sessions, e.fst = Session.makeName account.username tag cnt →
      e.snd.account.username = account.username) :
    Named (s.insert (Session.makeName account.username tag cnt)
      { name := Session.makeName account.username tag cnt, account := account }) ∧
    Answered (s.insert (Session.makeName account.username tag cnt)
      { name := Session.makeName account.username tag cnt, account := account })
      account.username (some (Session.makeName account.username tag cnt)) := by
  by_cases he : ∃ e ∈ s.sessions, e.fst = Session.makeName account.username tag cnt
  · obtain ⟨e, he, hf⟩ := he
    rw [insert_of_mem he hf]
    refine ⟨h, ?_⟩
    intro n hs
    cases hs
    exact ⟨e.snd, hf ▸ he, hn e he hf⟩
  · have he : ∀ e ∈ s.sessions, e.fst ≠ Session.makeName account.username tag cnt :=
      fun e hm hf => he ⟨e, hm, hf⟩
    rw [insert_of_notMem he]
    refine ⟨h.insert ht he, ?_⟩
    intro n hs
    cases hs
    exact ⟨_, List.mem_cons_self, rfl⟩

theorem answered_none {s : SessionManager} {username} : Answered s username none :=
  fun _ h => by cases h

theorem create_answered {s s' : SessionManager} {username fails name} (h : Named s)
    (hd : Distinguishable s (.create username fails))
    (hs : s.onCreateRequestReceived username fails = (s', name)) :
    Named s' ∧ Answered s' username name := by
  simp only [onCreateRequestReceived] at hs
  split at hs
  case h_1 =>
    cases hs
    exact ⟨h, answered_none⟩
  case h_2 account ha =>
    have hu := Accounts.username_of_getAccount ha
    subst hu
    cases fails
    case true =>
      cases hs
      exact ⟨h.update, answered_none⟩
    case false =>
      cases hs
      apply insert_new h.update .none
      intro e he hf
      obtain ⟨_, tag, cnt, ht, hn⟩ := h.names e he
      cases Session.makeName_none_eq ht (hn.symm.trans hf)
      case inl ho => exact ho
      case inr ho => exact absurd hf (hd e he ho)

theorem webCreate_answered {s s' : SessionManager} {username password fails order name}
    (h : Named s) (hd : Distinguishable s (.webCreate username password fails order))
    (ho : order.Perm s.sessions)
    (hs : s.onWebCreateRequestReceived username password fails order = (s', name)) :
    Named s' ∧ Answered s' username name := by
  simp only [onWebCreateRequestReceived] at hs
  split at hs
  case h_1 =>
    cases hs
    exact ⟨h, answered_none⟩
  case h_2 account ha =>
    split at hs
    case isTrue =>
      cases hs
      exact ⟨h, answered_none⟩
    case isFalse hp =>
      have hd := hd account ha (by simpa using hp)
      have hu := Accounts.username_of_getAccount ha
      subst hu
      -- The sessions that are found are the user's own.
      have hown : ∀ e ∈ s.sessions,
          (account.username ++ '-' :: Session.web ++ ['-']) <+: e.fst →
          e.snd.account.username = account.username := by
        intro e he hpre
        obtain ⟨_, tag, cnt, ht, hn⟩ := h.names e he
        obtain ⟨h₁, h₂⟩ := hd e he
        rw [hn] at hpre
        cases Session.owner_of_web_name ht hpre
        case inl hv => exact hv
        case inr hv =>
          cases hv
          case inl hv => exact absurd hv h₁
          case inr hv => exact absurd hv h₂
      split at hs
      case h_1 key session hf =>
        cases hs
        have hm := ho.mem_iff.mp (List.mem_of_find?_eq_some hf)
        have hpre := List.find?_some hf
        simp only [List.isPrefixOf_iff_prefix] at hpre
        obtain ⟨hn, _⟩ := h.names _ hm
        have hn : session.name = key := hn
        rw [insert_of_mem hm hn.symm]
        refine ⟨h, ?_⟩
        intro n hs
        cases hs
        exact ⟨session, hn ▸ hm, hown _ hm (by simpa [Session.web] using hpre)⟩
      case h_2 hf =>
        cases fails
        case true =>
          cases hs
          exact ⟨h.update, answered_none⟩
        case false =>
          cases hs
          apply insert_new h.update .web
          intro e he hn
          apply hown e he
          rw [hn, Session.makeName_web]
          exact ⟨_, by rw [List.append_assoc, List.singleton_append]⟩

theorem terminate_named {s : SessionManager} {session} (h : Named s) :
    Named (s.terminateSession session) where
  nodup := (List.eraseP_sublist.map _).nodup h.nodup
  names := fun e he => h.names e (List.mem_of_mem_eraseP he)

-- Every answer names a session of the user if no two users with sessions can be mixed up.
theorem session_isolation {s : SessionManager × Option (Text × Text)}
    (h : (machine.restrict fun s a => Distinguishable s.fst a).Reachable s) : Isolated s := by
  have hi : Named s.fst ∧ ∀ username name, s.snd = some (username, name) →
      ∃ session, (name, session) ∈ s.fst.sessions ∧ session.account.username = username := by
    apply h.preserves
    case hi =>
      rintro s ⟨hs, ha⟩
      refine ⟨⟨by simp [hs], by simp [hs]⟩, ?_⟩
      intro _ _ hn
      cases ha.symm.trans hn
    case hs =>
      rintro s a s' ⟨hn, _⟩ ⟨he, hd⟩ hs
      cases hs
      cases a
      case create username fails =>
        obtain ⟨hn', ha⟩ := create_answered hn hd rfl
        refine ⟨hn', ?_⟩
        intro _ _ heq
        obtain ⟨n, hname, hpair⟩ := Option.map_eq_some_iff.mp heq
        cases hpair
        exact ha _ hname
      case webCreate username password fails order =>
        obtain ⟨hn', ha⟩ := webCreate_answered hn hd he rfl
        refine ⟨hn', ?_⟩
        intro _ _ heq
        obtain ⟨n, hname, hpair⟩ := Option.map_eq_some_iff.mp heq
        cases hpair
        exact ha _ hname
      case terminate session =>
        refine ⟨terminate_named hn, ?_⟩
        intro _ _ heq
        cases heq
  exact ⟨fun e he => (hi.left.names e he).left, hi.left.nodup, hi.right⟩

def exampleAccount (username : Text) : Account where
  username  := username
  password  := ['p']
  firstName := []
  lastName  := []
  groups    := []
  enabled   := true
  nodup     := .nil

def exampleManager (other : Text) (h : ['a'] ≠ other) : SessionManager where
  accounts := ⟨[exampleAccount ['a'], exampleAccount other], by simp [exampleAccount, h]⟩
  counters := fun _ => 0
  sessions := []

instance (s : SessionManager × Option (Text × Text)) : (a : Action) →
    Decidable (machine.enabled s a)
  | .create _ _              => .isTrue trivial
  | .webCreate _ _ _ order   => inferInstanceAs (Decidable (order.Perm s.fst.sessions))
  | .terminate _             => .isTrue trivial

instance (s : SessionManager × Option (Text × Text)) : (a : Action) →
    Decidable (Distinguishable s.fst a)
  | .create username _ => inferInstanceAs (Decidable (∀ e ∈ s.fst.sessions,
      username = e.snd.account.username ++ '-' :: Session.web →
      e.fst ≠ Session.makeName username [] (s.fst.counters username + 1)))
  | .webCreate username password _ _ =>
    match h : s.fst.accounts.getAccount username with
    | .error _    => .isTrue (fun _ ha => by cases h.symm.trans ha)
    | .ok account =>
      decidable_of_iff (account.password = password → ∀ e ∈ s.fst.sessions,
          e.snd.account.username ≠ username ++ '-' :: Session.web ∧
          ¬ (username ++ '-' :: Session.web ++ ['-']) <+: e.snd.account.username)
        ⟨fun hd _ ha => by cases h.symm.trans ha; exact hd, fun hd => hd account h⟩
  | .terminate _ => .isTrue trivial

instance (s : SessionManager × Option (Text × Text)) (a : Action) :
    Decidable ((machine.restrict fun s a => Distinguishable s.fst a).enabled s a) :=
  inferInstanceAs (Decidable (_ ∧ _))

-- A user whose name is a beginning of another one's asks for a web session twice.
theorem session_isolation_two_users :
    ∃ s, (machine.restrict fun s a => Distinguishable s.fst a).run
        (exampleManager ['a', 'b'] (by decide), none)
        [.create ['a', 'b'] false, .webCreate ['a'] ['p'] false
          [(['a', 'b', '-', '1'], ⟨['a', 'b', '-', '1'], exampleAccount ['a', 'b']⟩)]] = some s ∧
      Isolated s := by
  have hr : ∀ s, (machine.restrict fun s a => Distinguishable s.fst a).run
      (exampleManager ['a', 'b'] (by decide), none)
      [.create ['a', 'b'] false, .webCreate ['a'] ['p'] false
        [(['a', 'b', '-', '1'], ⟨['a', 'b', '-', '1'], exampleAccount ['a', 'b']⟩)]] = some s →
      Isolated s :=
    fun s h => session_isolation (.of_run (.init ⟨rfl, rfl⟩) h)
  exact ⟨_, rfl, hr _ rfl⟩

-- The user `a-web-b` has an ordinary session. It is what the user `a` gets as his web session.
theorem web_session_of_another_user :
    ∃ s, machine.run (exampleManager ['a', '-', 'w', 'e', 'b', '-', 'b'] (by decide), none)
        [.create ['a', '-', 'w', 'e', 'b', '-', 'b'] false, .webCreate ['a'] ['p'] false
          [(['a', '-', 'w', 'e', 'b', '-', 'b', '-', '1'],
            ⟨['a', '-', 'w', 'e', 'b', '-', 'b', '-', '1'],
              exampleAccount ['a', '-', 'w', 'e', 'b', '-', 'b']⟩)]] = some s ∧
      s.snd = some (['a'], ['a', '-', 'w', 'e', 'b', '-', 'b', '-', '1']) ∧ ¬ Isolated s := by
  refine ⟨_, rfl, rfl, ?_⟩
  intro h
  obtain ⟨session, hm, hu⟩ := h.answer _ _ rfl
  cases List.mem_singleton.mp hm
  cases hu

end SessionManager

end Yogi.AccountManager
