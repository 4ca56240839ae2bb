import YogiModel.Web.AccountService

namespace Yogi.Web

-- The values that the fields of a JavaScript object have here.
inductive JsValue
  | null
  | undefined
  | string (s : JsString)
  deriving DecidableEq

-- How a promise ends.
inductive Settlement (α : Type)
  | resolved (value : α)
  | rejected (reason : String)
  deriving DecidableEq

structure LoginInfo where
  webSessionName : JsValue
  groups         : List JsString
  deriving DecidableEq

-- The fields of the class `Session` that `logIn` is about.
structure Account where
  username        : JsValue
  groups          : Option (List JsString)
  webSessionName  : JsValue
  loggedInResolve : Bool
  deriving DecidableEq

namespace Account

def new : Account where
  username        := .null
  groups          := none
  webSessionName  := .null
  loggedInResolve := true

def loggedIn (a : Account) : Bool :=
  a.webSessionName != .null

-- The conversion of an array to a Boolean: an object is true even if it is an empty array.
def toBoolean (_ : List JsString) : Bool :=
  true

def parseLoginTaskCompletion (msg : Bytes) : Except String LoginInfo :=
  if msg.length < 5 then
    .error "Start offset 5 is outside the bounds of the buffer"
  else
    let strings := (zeroTerminated (msg.drop 5)).map fromCharCode
    if !toBoolean strings then
      .error "Login failed (probably invalid credentials)"
    else
      .ok {
        webSessionName := strings.head?.elim .undefined .string
        groups         := strings.tail }

-- What the handler that `runTask` has registered does to the promise of the task.
def completeTask {α : Type} (completionParserFn : Bytes → Except String α) (response : Bytes) :
    Settlement α :=
  match completionParserFn response with
  | .ok value  => .resolved value
  | .error err => .rejected err

-- The continuation of `logIn`. The flag tells whether `loggedInResolve` has been called; when it is
-- null already the call throws, but the promise has been resolved before.
def logIn (a : Account) (username : JsString) :
    Settlement LoginInfo → Account × Settlement Unit × Bool
  | .resolved info =>
    ({ a with
      username        := .string username
      groups          := some info.groups
      webSessionName  := info.webSessionName
      loggedInResolve := false },
      .resolved (), a.loggedInResolve)
  | .rejected err => (a, .rejected err, false)

-- The completion of a login task arrives.
def logInCompleted (a : Account) (username : JsString) (msg : Bytes) :
    Account × Settlement Unit × Bool :=
  a.logIn username (completeTask parseLoginTaskCompletion msg)

-- The client ends up with what the hub has ended up with.
structure Agrees (hub : AccountService) (result : Account × Settlement Unit × Bool) : Prop where
  rejected : (∃ err, result.snd.fst = .rejected err) ↔ hub.loggedIn = false
  info     : hub.loggedIn = true →
    result.fst.webSessionName = .string hub.webSessionName.text ∧
    result.fst.groups = hub.groups.map (List.map HubString.text)
  loggedIn : result.snd.snd = true → hub.loggedIn = true

theorem parseLoginTaskCompletion_strings {taskId : UInt32} {ss : List HubString} :
    parseLoginTaskCompletion (notifyClient .asyTaskCompleted
      (unsignedToByteArray taskId ++ ss.flatMap HubString.toByteArray)) =
      .ok {
        webSessionName := (ss.map HubString.text).head?.elim .undefined .string
        groups         := (ss.map HubString.text).tail } := by
  have hd : (notifyClient .asyTaskCompleted
      (unsignedToByteArray taskId ++ ss.flatMap HubString.toByteArray)).drop 5 =
      ss.flatMap HubString.toByteArray := rfl
  have hl : ¬ (notifyClient .asyTaskCompleted
      (unsignedToByteArray taskId ++ ss.flatMap HubString.toByteArray)).length < 5 := by
    simp only [notifyClient, List.length_cons, List.length_append, unsignedToByteArray_length]
    omega
  simp only [parseLoginTaskCompletion, hl, hd, zeroTerminated_flatMap, if_false, toBoolean,
    Bool.not_true, List.map_map]
  rfl

theorem logInCompleted_of_parse {a : Account} {username msg info}
    (h : parseLoginTaskCompletion msg = .ok info) :
    a.logInCompleted username msg =
      ({ a with
        username        := .string username
        groups          := some info.groups
        webSessionName  := info.webSessionName
        loggedInResolve := false }, .resolved (), a.loggedInResolve) := by
  simp only [logInCompleted, completeTask, h, logIn]

theorem logInCompleted_of_failure {a : Account} {username taskId} :
    a.logInCompleted username (notifyClient .asyTaskCompleted (unsignedToByteArray taskId)) =
      ({ a with
        username        := .string username
        groups          := some []
        webSessionName  := .undefined
        loggedInResolve := false }, .resolved (), a.loggedInResolve) :=
  logInCompleted_of_parse ((parseLoginTaskCompletion_strings : parseLoginTaskCompletion (notifyClient .asyTaskCompleted
    (unsignedToByteArray taskId ++ [].flatMap HubString.toByteArray)) = _))

theorem not_agrees_of_failure {hub : AccountService} {a : Account} {username taskId}
    (h : hub.loggedIn = false) :
    ¬ Agrees hub (a.logInCompleted username
      (notifyClient .asyTaskCompleted (unsignedToByteArray taskId))) := by
  intro ha
  obtain ⟨err, he⟩ := ha.rejected.mpr h
  rw [logInCompleted_of_failure] at he
  cases he

theorem agrees_of_completed {hub hub' : AccountService} {a : Account} {username gs msgs}
    (h : AccountService.Completed hub hub' gs msgs) :
    ∀ msg ∈ msgs, Agrees hub' (a.logInCompleted username msg) := by
  intro msg hm
  rw [h.msgs, List.mem_singleton] at hm
  subst hm
  rw [logInCompleted_of_parse parseLoginTaskCompletion_strings]
  constructor
  case rejected => simp [h.loggedIn]
  case info     => simp [h.groups]
  case loggedIn => exact fun _ => h.loggedIn

-- What the hub tells the client at the end of a login task gets to the client unless the account
-- manager has refused to create a session.
theorem login_agrees_iff {hub hub' : AccountService} {act : AccountService.Action} {a : Account}
    {username msgs msg} (h : AccountService.machine.Reachable hub) (he : hub.enabled act)
    (ha : hub.act act = (hub', msgs)) (hm : msg ∈ msgs) :
    Agrees hub' (a.logInCompleted username msg) ↔
      ∀ res success webSessionName, act = .answer res success webSessionName →
        (res && success) = true := by
  cases act
  case start =>
    cases ha
    cases hm
  case answer res success webSessionName =>
    have hl := ((AccountService.consistent_of_reachable h).requesting he).right.left
    simp only [AccountService.act, AccountService.handleLoginRequestAnswer] at ha
    split at ha
    case isTrue =>
      cases ha
      cases hm
    case isFalse hf =>
      cases ha
      rw [List.mem_singleton] at hm
      subst hm
      refine iff_of_false (not_agrees_of_failure hl) ?_
      intro hs
      exact hf (hs _ _ _ rfl)
  case event e =>
    refine iff_of_true ?_ (fun _ _ _ he => by cases he)
    cases AccountService.handleEvent_cases ha
    case inl hc =>
      rw [hc.left.msgs] at hm
      cases hm
    case inr hc =>
      obtain ⟨_, _, _, _, hc⟩ := hc
      exact agrees_of_completed hc msg hm

def loginWithoutGroups : List AccountService.Action :=
  [.start 1 ⟨[98], by decide⟩ true, .answer true true ⟨[98, 45, 49], by decide⟩,
    .event (.subscription 0 true), .event (.firstName ⟨[66], by decide⟩),
    .event (.subscription 1 true), .event (.groups []), .event (.subscription 2 true),
    .event (.lastName ⟨[66], by decide⟩), .event (.subscription 3 true)]

theorem login_agrees_iff_no_groups :
    ∃ hub, AccountService.machine.run .new loginWithoutGroups = some hub ∧
    ∃ hub' msg, hub.act (.event (.subscription 4 true)) = (hub', [msg]) ∧
      (Agrees hub' (new.logInCompleted [98] msg) ↔
        ∀ res success webSessionName,
          AccountService.Action.event (.subscription 4 true) = .answer res success webSessionName →
          (res && success) = true) := by
  have hr : ∀ hub, AccountService.machine.run .new loginWithoutGroups = some hub →
      AccountService.machine.Reachable hub :=
    fun _ h => .of_run (.init rfl) h
  exact ⟨_, rfl, _, _, rfl, login_agrees_iff (hr _ rfl) trivial rfl (List.mem_singleton_self _)⟩

-- The password was wrong. The promise is resolved and the client takes itself for logged in.
theorem failed_login_resolves :
    ∃ hub, AccountService.machine.run .new [.start 1 ⟨[98], by decide⟩ true] = some hub ∧
    ∃ hub' msg, hub.act (.answer true false ⟨[], by decide⟩) = (hub', [msg]) ∧
      hub'.loggedIn = false ∧ (new.logInCompleted [98] msg).snd = (.resolved (), true) ∧
      (new.logInCompleted [98] msg).fst.loggedIn = true ∧
      ¬ Agrees hub' (new.logInCompleted [98] msg) := by
  refine ⟨_, rfl, _, _, rfl, rfl, ?resolved, ?loggedIn, not_agrees_of_failure rfl⟩
  case resolved => exact congrArg Prod.snd logInCompleted_of_failure
  case loggedIn => exact congrArg (fun result => result.fst.loggedIn) logInCompleted_of_failure

end Account

end Yogi.Web
