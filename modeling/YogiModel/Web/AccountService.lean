import YogiModel.Base.Machine
import YogiModel.Web.Bytes

namespace Yogi.Web

-- The notifications of `Service` that carry the result of a call of the client.
inductive ResponseType
  | asyDnsLookup
  | asyTaskCompleted
  deriving DecidableEq

def ResponseType.code : ResponseType → UInt8
  | .asyDnsLookup     => 13
  | .asyTaskCompleted => 15

-- `YogiSession::notify_client`
def notifyClient (notificationType : ResponseType) (data : Bytes) : Bytes :=
  notificationType.code :: data

-- The part of the class `AccountService` that logs in the user of a web session. While `requesting`
-- the answer of the account manager to the request for a session is outstanding.
structure AccountService where
  requesting     : Bool
  loggingIn      : Bool
  loggedIn       : Bool
  loginTaskId    : UInt32
  username       : HubString
  webSessionName : HubString
  firstName      : Option HubString
  lastName       : Option HubString
  groups         : Option (List HubString)
  terminals      : Option (List Bool)

namespace AccountService

def new : AccountService where
  requesting     := false
  loggingIn      := false
  loggedIn       := false
  loginTaskId    := 0
  username       := ⟨[], by decide⟩
  webSessionName := ⟨[], by decide⟩
  firstName      := none
  lastName       := none
  groups         := none
  terminals      := none

inductive Response
  | ok
  | alreadyLoggedIn
  | notReady
  deriving DecidableEq

-- The request can be sent if the account manager's terminal is subscribed to.
def handleStartLoginTaskRequest (s : AccountService) (taskId : UInt32) (username : HubString)
    (subscribed : Bool) : AccountService × Response :=
  if s.loggedIn then
    (s, .alreadyLoggedIn)
  else if s.loggingIn then
    (s, .notReady)
  else
    let s := { s with loginTaskId := taskId, username := username }
    if subscribed then
      ({ s with requesting := true, loggingIn := true }, .ok)
    else
      (s, .notReady)

-- Creates the terminals that complete the login. Five of them have to be subscribed to.
def setupTerminals (s : AccountService) : AccountService :=
  { s with terminals := some (List.replicate 5 false) }

def handleLoginRequestAnswer (s : AccountService) (res success : Bool)
    (webSessionName : HubString) : AccountService × List Bytes :=
  let s := { s with requesting := false }
  if res && success then
    (setupTerminals { s with webSessionName := webSessionName }, [])
  else
    ({ s with loggingIn := false },
      [notifyClient .asyTaskCompleted (unsignedToByteArray s.loginTaskId)])

def tryCompletingLoginRequest (s : AccountService) (terminals : List Bool) :
    AccountService × List Bytes :=
  if s.loggedIn then
    (s, [])
  else
    match s.firstName, s.lastName, s.groups with
    | some _, some _, some groups =>
      if terminals.all id then
        let data := unsignedToByteArray s.loginTaskId ++ s.webSessionName.toByteArray
        let data := groups.foldl (fun data group => data ++ group.toByteArray) data
        ({ s with loggingIn := false, loggedIn := true }, [notifyClient .asyTaskCompleted data])
      else
        (s, [])
    | _, _, _ => (s, [])

-- What the terminals report.
inductive Event
  | firstName (name : HubString)
  | lastName (name : HubString)
  | groups (groups : List HubString)
  | subscription (i : Nat) (subscribed : Bool)

-- The observers exist from when the terminals are created until the login is complete.
def handleEvent (s : AccountService) (e : Event) : AccountService × List Bytes :=
  match s.terminals, s.loggedIn with
  | some terminals, false =>
    match e with
    | .firstName name  => tryCompletingLoginRequest { s with firstName := some name } terminals
    | .lastName name   => tryCompletingLoginRequest { s with lastName := some name } terminals
    | .groups groups   => tryCompletingLoginRequest { s with groups := some groups } terminals
    | .subscription i b =>
      let terminals := terminals.set i b
      tryCompletingLoginRequest { s with terminals := some terminals } terminals
  | _, _ => (s, [])

inductive Action
  | start (taskId : UInt32) (username : HubString) (subscribed : Bool)
  | answer (res success : Bool) (webSessionName : HubString)
  | event (e : Event)

-- The service afterwards and what it notifies the client of.
def act (s : AccountService) : Action → AccountService × List Bytes
  | .start taskId username subscribed =>
    ((s.handleStartLoginTaskRequest taskId username subscribed).fst, [])
  | .answer res success webSessionName => s.handleLoginRequestAnswer res success webSessionName
  | .event e => s.handleEvent e

def enabled (s : AccountService) : Action → Prop
  | .answer _ _ _ => s.requesting = true
  | _             => True

def machine : Machine AccountService Action Empty where
  init    := fun s => s = new
  enabled := enabled
  step    := fun s a => .ok (s.act a).fst

instance (s : AccountService) : (a : Action) → Decidable (machine.enabled s a)
  | .start _ _ _  => .isTrue trivial
  | .answer _ _ _ => inferInstanceAs (Decidable (_ = _))
  | .event _      => .isTrue trivial

theorem tryCompletingLoginRequest_cases {s s' : AccountService} {terminals msgs}
    (h : s.tryCompletingLoginRequest terminals = (s', msgs)) :
    (s' = s ∧ msgs = []) ∨
    ∃ groups, s.groups = some groups ∧ s' = { s with loggingIn := false, loggedIn := true } ∧
      msgs = [notifyClient .asyTaskCompleted (unsignedToByteArray s.loginTaskId ++
        (s.webSessionName :: groups).flatMap HubString.toByteArray)] := by
  have hf : ∀ (groups : List HubString) data,
      groups.foldl (fun data group => data ++ group.toByteArray) data =
        data ++ groups.flatMap HubString.toByteArray := by
    intro groups
    induction groups
    case nil            => simp
    case cons g gs ih => simp [ih]
  simp only [tryCompletingLoginRequest] at h
  split at h
  case isTrue  => simp_all
  case isFalse =>
    split at h
    case h_2 => simp_all
    case h_1 groups _ _ hg =>
      split at h
      case isFalse => simp_all
      case isTrue  =>
        cases h
        exact .inr ⟨groups, hg, rfl, by simp [hf]⟩

-- The login of a user has been completed by one of the terminals.
structure Completed (s s' : AccountService) (gs : List HubString) (msgs : List Bytes) : Prop where
  groups   : s'.groups = some gs
  loggedIn : s'.loggedIn = true
  msgs     : msgs = [notifyClient .asyTaskCompleted (unsignedToByteArray s.loginTaskId ++
    (s'.webSessionName :: gs).flatMap HubString.toByteArray)]

-- What is the same as long as the login is not complete.
structure Waiting (s s' : AccountService) (msgs : List Bytes) : Prop where
  requesting : s'.requesting = s.requesting
  loggingIn  : s'.loggingIn = s.loggingIn
  loggedIn   : s'.loggedIn = s.loggedIn
  msgs       : msgs = []

theorem handleEvent_cases {s s' : AccountService} {e msgs} (h : s.handleEvent e = (s', msgs)) :
    (Waiting s s' msgs ∧ (s.terminals = none → s' = s)) ∨
    (s.terminals ≠ none ∧ s.loggedIn = false ∧ s'.requesting = s.requesting ∧
      ∃ gs, Completed s s' gs msgs) := by
  simp only [handleEvent] at h
  split at h
  case h_2 =>
    cases h
    exact .inl ⟨⟨rfl, rfl, rfl, rfl⟩, fun _ => rfl⟩
  case h_1 ht hl =>
    cases e <;>
    · have hc := tryCompletingLoginRequest_cases h
      cases hc
      case inl hc =>
        obtain ⟨hs, hm⟩ := hc
        subst hs
        exact .inl ⟨⟨rfl, rfl, rfl, hm⟩, by simp [ht]⟩
      case inr hc =>
        obtain ⟨groups, hg, hs, hm⟩ := hc
        subst hs
        exact .inr ⟨by simp [ht], hl, rfl, groups, hg, rfl, hm⟩

-- The terminals come after the answer of the account manager.
structure Consistent (s : AccountService) : Prop where
  requesting : s.requesting = true → s.loggingIn = true ∧ s.loggedIn = false ∧ s.terminals = none
  idle       : s.loggingIn = false → s.loggedIn = false → s.terminals = none

theorem consistent_act {s : AccountService} (a : Action) (h : Consistent s) (he : s.enabled a) :
    Consistent (s.act a).fst := by
  cases a
  case start taskId username subscribed =>
    simp only [act, handleStartLoginTaskRequest]
    split
    case isTrue  => exact h
    case isFalse hl =>
      split
      case isTrue  => exact h
      case isFalse hi =>
        have hl : s.loggedIn = false := Bool.eq_false_iff.mpr hl
        have hi : s.loggingIn = false := Bool.eq_false_iff.mpr hi
        have ht := h.idle hi hl
        split
        · exact ⟨fun _ => ⟨rfl, hl, ht⟩, fun hf _ => (by cases hf)⟩
        · exact ⟨h.requesting, h.idle⟩
  case answer res success webSessionName =>
    obtain ⟨hi, hl, ht⟩ := h.requesting he
    simp only [act, handleLoginRequestAnswer]
    split
    · exact ⟨fun hr => (by cases hr), fun hf _ => (by cases hi.symm.trans hf)⟩
    · exact ⟨fun hr => (by cases hr), fun _ _ => ht⟩
  case event e =>
    rcases hs : s.handleEvent e with ⟨s', msgs⟩
    simp only [act, hs]
    cases handleEvent_cases hs
    case inl hc =>
      obtain ⟨hw, ht⟩ := hc
      constructor
      case requesting =>
        intro hr
        rw [hw.requesting] at hr
        obtain ⟨hi, hl, hn⟩ := h.requesting hr
        exact ⟨hw.loggingIn.trans hi, hw.loggedIn.trans hl, ht hn ▸ hn⟩
      case idle =>
        intro hi hl
        have hn := h.idle (hw.loggingIn.symm.trans hi) (hw.loggedIn.symm.trans hl)
        exact ht hn ▸ hn
    case inr hc =>
      obtain ⟨ht, _, hr', _, hc⟩ := hc
      constructor
      case requesting =>
        intro hr
        exact absurd (h.requesting (hr'.symm.trans hr)).right.right ht
      case idle =>
        intro _ hl
        cases hc.loggedIn.symm.trans hl

theorem consistent_of_reachable {s : AccountService} (h : machine.Reachable s) : Consistent s :=
  h.preserves
    (by
      intro s hs
      subst hs
      exact ⟨fun hr => (by cases hr), fun _ _ => rfl⟩)
    (by
      intro s a s' hc he hs
      cases hs
      exact consistent_act a hc he)

end AccountService

end Yogi.Web
