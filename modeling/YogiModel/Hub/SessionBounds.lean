import Mathlib
import YogiModel.Hub.SessionRequests

namespace Yogi.Hub

open Web
open Except (ok_bind error_bind)

-- The fields that a handler reads behind the kind of the request.
inductive Field
  | byte
  | unsigned
  | string

namespace Field

-- What follows a field if the field is complete.
def skip : Field → Bytes → Option Bytes
  | byte, _ :: s                  => some s
  | unsigned, _ :: _ :: _ :: _ :: s => some s
  | string, s                     => if 0 ∈ s then some (s.dropWhile (· ≠ 0)).tail else none
  | _, _                          => none

def complete : List Field → Bytes → Bool
  | [], _           => true
  | field :: fields, s =>
    match field.skip s with
    | none   => false
    | some s => complete fields s

end Field

namespace YogiSession

def fields : RequestKind → List Field
  | .knownTerminalsSubtree | .findKnownTerminals                => [.byte]
  | .startDnsLookup | .startCustomCommand                       => [.string]
  | .createTerminal                                             => [.byte, .unsigned, .string]
  | .createBinding                                              => [.unsigned, .string]
  | .destroyTerminal | .destroyBinding                          => [.unsigned]
  | .monitorBindingState | .monitorBuiltinBindingState          => [.unsigned]
  | .monitorSubscriptionState                                   => [.unsigned]
  | .publishMessage | .monitorReceivedPublishMessages           => [.unsigned]
  | .scatterGather | .monitorReceivedScatterMessages            => [.unsigned]
  | .respondToScatteredMessage | .ignoreScatteredMessage        => [.unsigned, .unsigned]
  | .terminateCustomCommand | .writeCustomCommandStdin          => [.unsigned]
  | .startLoginTask                                             => [.unsigned, .string, .string]
  | .startStoreDataTask | .startReadDataTask                    => [.unsigned, .byte, .string]
  | _                                                           => []

section

variable (env : Environment) (session : YogiSession) (request : Bytes)

def isComplete (kind : RequestKind) : Bool :=
  Field.complete (fields kind) (request.drop 1)

-- The IDs that are read first.

def firstId : UInt32 :=
  (readUnsigned (request.drop 1)).fst

def secondId : UInt32 :=
  (readUnsigned (readUnsigned (request.drop 1)).snd).fst

-- What does not refuse a request whose fields are not complete: zeros are read for the IDs that are missing.
def acts : RequestKind → Bool
  | .knownTerminalsSubtree | .findKnownTerminals           => true
  | .destroyTerminal                                       => (session.terminals.get 0).isSome
  | .publishMessage | .monitorReceivedPublishMessages      => (session.terminals.get 0).isSome
  | .destroyBinding                                        => (session.bindings.get 0).isSome
  | .terminateCustomCommand | .writeCustomCommandStdin     => (session.activeCommands.get 0).isSome
  | .monitorBindingState                                   =>
    (session.bindings.get 0).any fun info => !info.observer
  | .monitorBuiltinBindingState                            =>
    (session.terminals.get 0).any fun info => !info.bindingObserver && info.type.isBinder
  | .monitorSubscriptionState                              =>
    (session.terminals.get 0).any fun info => !info.subscriptionObserver && info.type.isSubscribable
  | .scatterGather                                         =>
    (session.terminals.get 0).any fun info => info.type = .scatterGather ∨ info.type = .client
  | .monitorReceivedScatterMessages                        =>
    (session.terminals.get 0).any fun info => info.type = .scatterGather ∨ info.type = .service
  | .respondToScatteredMessage                             =>
    (session.terminals.get (firstId request)).any fun info => (messages info).any (0 ∈ ·)
  | .ignoreScatteredMessage                                =>
    (session.terminals.get (firstId request)).any fun info => (messages info).any (0 ∈ ·) && (env.ignore 0).isOk
  | _                                                      => false

-- An error is answered, and the terminals with their operations, the bindings and the commands are unchanged.
structure Refused (response : Response) (session' : YogiSession) : Prop where
  error     : response.type ≠ .ok
  terminals : session'.terminals = session.terminals
  bindings  : session'.bindings = session.bindings
  commands  : session'.activeCommands = session.activeCommands

-- There is one response, nothing outside of the request is read, and a request that is too short is refused.
def InBounds : Prop :=
  ∃ response session', handleRequest env session request = .ok (response, session') ∧
    ∀ kind, kindOf env request = some kind → isComplete request kind = false → Refused session response session'

-- What is to be shown of a handler.
structure Handles (kind : RequestKind) : Prop where
  returns : isComplete request kind = true → ∃ o, handler env session request kind = .ok o
  refuses : isComplete request kind = false → acts env session request kind = false →
    ∃ o, handler env session request kind = .ok o ∧ Refused session (responseOf o.result) o.session
  acts    : isComplete request kind = false → acts env session request kind = true →
    ∀ o, handler env session request kind = .ok o → ¬Refused session (responseOf o.result) o.session

end

variable {env : Environment} {session : YogiSession} {request : Bytes} {kind : RequestKind}

theorem refused_answer {type : ResponseType} {data : Bytes} (h : type ≠ .ok) :
    ∃ o, answer session type data = .ok o ∧ Refused session (responseOf o.result) o.session :=
  ⟨_, rfl, h, rfl, rfl, rfl⟩

theorem refused_throws {e : Exception} :
    ∃ o, throws session e = .ok o ∧ Refused session (responseOf o.result) o.session := by
  refine ⟨_, rfl, ?_, rfl, rfl, rfl⟩
  cases e
  case failure => exact ResponseType.noConfusion
  case other   => exact ResponseType.noConfusion

theorem not_refused_ok {session' : YogiSession} {data : Bytes} {o : Outcome} (h : answer session' .ok data = .ok o) :
    ¬Refused session (responseOf o.result) o.session := by
  cases h
  exact fun h => h.error rfl

-- A request without fields is complete.
theorem Handles.of_nil (hf : fields kind = []) (h : ∃ o, handler env session request kind = .ok o) :
    Handles env session request kind where
  returns := fun _ => h
  refuses := fun hc => by simp [isComplete, hf, Field.complete] at hc
  acts    := fun hc => by simp [isComplete, hf, Field.complete] at hc

theorem readUnsigned_of_short {s : Bytes} (h : s.length < 4) : readUnsigned s = (0, []) := by
  rcases s with _ | ⟨a, _ | ⟨b, _ | ⟨c, _ | ⟨d, s⟩⟩⟩⟩
  case cons.cons.cons.cons =>
    simp only [List.length_cons] at h
    omega
  all_goals rfl

theorem readUnsigned_snd {s : Bytes} (h : 4 ≤ s.length) : (readUnsigned s).snd = s.drop 4 := by
  rcases s with _ | ⟨a, _ | ⟨b, _ | ⟨c, _ | ⟨d, s⟩⟩⟩⟩
  case cons.cons.cons.cons => rfl
  all_goals simp at h

-- What is complete

section

variable {s : Bytes} {l : List Field}

theorem complete_cons {field : Field} : Field.complete (field :: l) s =
    match field.skip s with
    | none   => false
    | some s => Field.complete l s :=
  rfl

theorem complete_byte : Field.complete (.byte :: l) s = (decide (1 ≤ s.length) && Field.complete l (s.drop 1)) := by
  cases s
  case nil      => rfl
  case cons b s =>
    have hs : Field.byte.skip (b :: s) = some s := rfl
    simp [complete_cons, hs]

theorem complete_unsigned :
    Field.complete (.unsigned :: l) s = (decide (4 ≤ s.length) && Field.complete l (s.drop 4)) := by
  rcases s with _ | ⟨a, _ | ⟨b, _ | ⟨c, _ | ⟨d, s⟩⟩⟩⟩
  case cons.cons.cons.cons =>
    have hs : Field.unsigned.skip (a :: b :: c :: d :: s) = some s := rfl
    simp [complete_cons, hs]
  all_goals rfl

theorem complete_string : Field.complete (.string :: l) s =
    (decide (0 ∈ s) && Field.complete l (s.dropWhile (· ≠ 0)).tail) := by
  have hs : Field.string.skip s = if 0 ∈ s then some (s.dropWhile (· ≠ 0)).tail else none := rfl
  by_cases h : 0 ∈ s <;> simp [complete_cons, hs, h]

theorem complete_nil : Field.complete [] s = true :=
  rfl

end

theorem isComplete_unsigned (hf : fields kind = [.unsigned]) : isComplete request kind = decide (5 ≤ request.length) := by
  rw [isComplete, hf, complete_unsigned, complete_nil, Bool.and_true, List.length_drop]
  exact decide_eq_decide.mpr (by omega)

theorem isComplete_unsigned_unsigned (hf : fields kind = [.unsigned, .unsigned]) :
    isComplete request kind = decide (9 ≤ request.length) := by
  rw [isComplete, hf, complete_unsigned, complete_unsigned, complete_nil, Bool.and_true, List.drop_drop,
    List.length_drop, List.length_drop, ← Bool.decide_and]
  exact decide_eq_decide.mpr (by omega)

-- An ID that is missing is read as zero.

theorem firstId_eq : (readUnsigned (request.drop 1)).fst = firstId request :=
  rfl

theorem secondId_eq : (readUnsigned (readUnsigned (request.drop 1)).snd).fst = secondId request :=
  rfl

theorem firstId_of_short (h : request.length < 5) : firstId request = 0 := by
  rw [firstId, readUnsigned_of_short (by rw [List.length_drop]; omega)]

theorem secondId_of_short (h : request.length < 9) : secondId request = 0 := by
  rw [secondId]
  by_cases h5 : 5 ≤ request.length
  case pos =>
    rw [readUnsigned_snd (by rw [List.length_drop]; omega), List.drop_drop,
      readUnsigned_of_short (by rw [List.length_drop]; omega)]
  case neg =>
    rw [readUnsigned_of_short (s := request.drop 1) (by rw [List.length_drop]; omega)]
    rfl

theorem payload_of_long {n : Nat} (h : n ≤ request.length) : payload request n = .ok (request.drop n) :=
  if_pos h

theorem payload_of_short {n : Nat} (h : request.length < n) : payload request n = .error .outOfBounds :=
  if_neg (by omega)

-- A handler that looks for something with the first ID
theorem Handles.of_lookup {α : Type} (table : LookupTable α) (error : ResponseType) (n : Nat) (p : α → Bool)
    (act : α → Except Fault Outcome) (hf : isComplete request kind = decide (n ≤ request.length))
    (hnone : table.get (firstId request) = none → handler env session request kind = answer session error [])
    (hsome : ∀ info, table.get (firstId request) = some info → handler env session request kind = act info)
    (he : error ≠ .ok)
    (ha : request.length < n → YogiSession.acts env session request kind = (table.get (firstId request)).any p)
    (hr : ∀ info, n ≤ request.length → ∃ o, act info = .ok o)
    (hs : ∀ info, request.length < n → p info = false →
      ∃ o, act info = .ok o ∧ Refused session (responseOf o.result) o.session)
    (hp : ∀ info, request.length < n → table.get (firstId request) = some info → p info = true →
      ∀ o, act info = .ok o → ¬Refused session (responseOf o.result) o.session) :
    Handles env session request kind where
  returns := by
    intro hc
    rw [hf, decide_eq_true_eq] at hc
    cases hg : table.get (firstId request)
    case none      => exact ⟨_, hnone hg⟩
    case some info =>
      rw [hsome info hg]
      exact hr info hc
  refuses := by
    intro hc hn
    rw [hf, decide_eq_false_iff_not, Nat.not_le] at hc
    rw [ha hc] at hn
    cases hg : table.get (firstId request)
    case none      =>
      rw [hnone hg]
      exact refused_answer he
    case some info =>
      rw [hg] at hn
      rw [hsome info hg]
      exact hs info hc hn
  acts := by
    intro hc hn o ho
    rw [hf, decide_eq_false_iff_not, Nat.not_le] at hc
    rw [ha hc] at hn
    cases hg : table.get (firstId request)
    case none      => simp [hg] at hn
    case some info =>
      rw [hg] at hn
      rw [hsome info hg] at ho
      exact hp info hc hg hn o ho

-- A handler that acts on what it finds in any case
theorem Handles.of_take {α : Type} (table : LookupTable α) (error : ResponseType) (session' : YogiSession)
    (hf : fields kind = [.unsigned])
    (hnone : table.get (firstId request) = none → handler env session request kind = answer session error [])
    (hsome : ∀ info, table.get (firstId request) = some info →
      handler env session request kind = answer session' .ok [])
    (he : error ≠ .ok) (ha : YogiSession.acts env session request kind = (table.get 0).isSome) :
    Handles env session request kind := by
  refine .of_lookup table error 5 (fun _ => true) (fun _ => answer session' .ok []) (isComplete_unsigned hf) hnone hsome
    he ?_ (fun _ _ => ⟨_, rfl⟩) (fun _ _ h => by cases h) ?_
  case refine_1 =>
    intro h
    rw [ha, firstId_of_short h]
    cases table.get 0 <;> rfl
  case refine_2 => exact fun _ _ _ _ _ ho => not_refused_ok ho

theorem handles_destroyTerminal : Handles env session request .destroyTerminal := by
  have hh : handler env session request .destroyTerminal = handleDestroyTerminalRequest session request := rfl
  refine .of_take session.terminals .invalidTerminalId
    { session with terminals := session.terminals.erase (firstId request) } rfl ?_ ?_ (by decide) rfl
  case refine_1 => exact fun h => by simp only [hh, handleDestroyTerminalRequest, firstId_eq, h]
  case refine_2 => exact fun _ h => by simp only [hh, handleDestroyTerminalRequest, firstId_eq, h]

theorem handles_destroyBinding : Handles env session request .destroyBinding := by
  have hh : handler env session request .destroyBinding = handleDestroyBindingRequest session request := rfl
  refine .of_take session.bindings .invalidBindingId
    { session with bindings := session.bindings.erase (firstId request) } rfl ?_ ?_ (by decide) rfl
  case refine_1 => exact fun h => by simp only [hh, handleDestroyBindingRequest, firstId_eq, h]
  case refine_2 => exact fun _ h => by simp only [hh, handleDestroyBindingRequest, firstId_eq, h]

theorem handles_terminateCustomCommand : Handles env session request .terminateCustomCommand := by
  have hh : handler env session request .terminateCustomCommand = handleTerminateCommandRequest session request := rfl
  refine .of_take session.activeCommands .invalidCommandId
    { session with activeCommands := session.activeCommands.erase (firstId request) } rfl ?_ ?_ (by decide) rfl
  case refine_1 => exact fun h => by simp only [hh, handleTerminateCommandRequest, firstId_eq, h]
  case refine_2 => exact fun _ h => by simp only [hh, handleTerminateCommandRequest, firstId_eq, h]

theorem handles_writeCustomCommandStdin : Handles env session request .writeCustomCommandStdin := by
  have hh : handler env session request .writeCustomCommandStdin = handleWriteCommandRequest session request := rfl
  refine .of_take session.activeCommands .invalidCommandId session rfl ?_ ?_ (by decide) rfl
  case refine_1 => exact fun h => by simp only [hh, handleWriteCommandRequest, firstId_eq, h]
  case refine_2 => exact fun _ h => by simp only [hh, handleWriteCommandRequest, firstId_eq, h]

-- An observer that is kept before it is started changes the session.

theorem startObserver_returns {session' : YogiSession} : ∃ o, startObserver env session' = .ok o := by
  simp only [startObserver]
  split
  case h_1 => exact ⟨_, rfl⟩
  case h_2 => exact ⟨_, rfl⟩

theorem not_refused_startObserver {session' : YogiSession} {o : Outcome} (h : startObserver env session' = .ok o)
    (hn : session'.terminals ≠ session.terminals ∨ session'.bindings ≠ session.bindings) :
    ¬Refused session (responseOf o.result) o.session := by
  simp only [startObserver] at h
  split at h
  case h_1 => exact not_refused_ok h
  case h_2 =>
    cases h
    intro hr
    cases hn
    case inl hn => exact hn hr.terminals
    case inr hn => exact hn hr.bindings

theorem get_set {α : Type} {table : LookupTable α} {id : UInt32} {val : α} : (table.set id val).get id = some val := by
  simp [LookupTable.get, LookupTable.set]

theorem set_ne {α : Type} {table : LookupTable α} {id : UInt32} {val val' : α} (h : table.get id = some val')
    (hne : val ≠ val') : table.set id val ≠ table := by
  intro he
  have hg : (table.set id val).get id = some val := get_set
  rw [he, h] at hg
  exact hne (Option.some.inj hg).symm

-- An observer is refused if there is one or if there is none for the type of the terminal.
theorem Handles.of_observer {α : Type} (table : LookupTable α) (error : ResponseType) (seen allowed : α → Bool)
    (observe : α → α) (start : LookupTable α → YogiSession) (hf : fields kind = [.unsigned])
    (hnone : table.get (firstId request) = none → handler env session request kind = answer session error [])
    (hsome : ∀ info, table.get (firstId request) = some info → handler env session request kind =
      if seen info then answer session .alreadyMonitoring []
      else if !allowed info then answer session .invalidTerminalType []
      else startObserver env (start (table.set (firstId request) (observe info))))
    (he : error ≠ .ok)
    (ha : YogiSession.acts env session request kind = (table.get 0).any fun info => !seen info && allowed info)
    (hs : ∀ info, seen (observe info) = true)
    (hn : ∀ table', table' ≠ table →
      (start table').terminals ≠ session.terminals ∨ (start table').bindings ≠ session.bindings) :
    Handles env session request kind := by
  refine .of_lookup table error 5 (fun info => !seen info && allowed info) _ (isComplete_unsigned hf) hnone hsome
    he ?_ ?_ ?_ ?_
  case refine_1 => exact fun h => by rw [ha, firstId_of_short h]
  case refine_2 =>
    intro info _
    split
    case isTrue  => exact ⟨_, rfl⟩
    case isFalse =>
      split
      case isTrue  => exact ⟨_, rfl⟩
      case isFalse => exact startObserver_returns
  case refine_3 =>
    intro info _ hp
    cases h : seen info
    case true  => exact refused_answer (by decide)
    case false =>
      rw [h, Bool.not_false, Bool.true_and] at hp
      rw [if_neg Bool.false_ne_true, hp]
      exact refused_answer (by decide)
  case refine_4 =>
    intro info _ hg hp o ho
    rw [Bool.and_eq_true, Bool.not_eq_true'] at hp
    simp only [hp.1, hp.2, Bool.false_eq_true, Bool.not_true, if_false] at ho
    refine not_refused_startObserver ho (hn _ (set_ne hg ?_))
    intro he
    have := hs info
    rw [he, hp.1] at this
    cases this

theorem handles_monitorBindingState : Handles env session request .monitorBindingState := by
  have hh : handler env session request .monitorBindingState =
    handleMonitorBindingStateRequest env session request := rfl
  refine .of_observer session.bindings .invalidBindingId (fun info => info.observer) (fun _ => true)
    (fun info => { info with observer := true }) (fun bindings => { session with bindings := bindings }) rfl ?_ ?_
    (by decide) ?_ (fun _ => rfl) (fun _ h => .inr h)
  case refine_1 => exact fun h => by simp only [hh, handleMonitorBindingStateRequest, firstId_eq, h]
  case refine_2 => exact fun _ h => by simp only [hh, handleMonitorBindingStateRequest, firstId_eq, h]; rfl
  case refine_3 => simp only [YogiSession.acts, Bool.and_true]

theorem handles_monitorBuiltinBindingState : Handles env session request .monitorBuiltinBindingState := by
  have hh : handler env session request .monitorBuiltinBindingState =
    handleMonitorBuiltinBindingStateRequest env session request := rfl
  refine .of_observer session.terminals .invalidTerminalId (fun info => info.bindingObserver)
    (fun info => info.type.isBinder) (fun info => { info with bindingObserver := true })
    (fun terminals => { session with terminals := terminals }) rfl ?_ ?_ (by decide) rfl (fun _ => rfl) (fun _ h => .inl h)
  case refine_1 => exact fun h => by simp only [hh, handleMonitorBuiltinBindingStateRequest, firstId_eq, h]
  case refine_2 => exact fun _ h => by simp only [hh, handleMonitorBuiltinBindingStateRequest, firstId_eq, h]

theorem handles_monitorSubscriptionState : Handles env session request .monitorSubscriptionState := by
  have hh : handler env session request .monitorSubscriptionState =
    handleMonitorSubscriptionStateRequest env session request := rfl
  refine .of_observer session.terminals .invalidTerminalId (fun info => info.subscriptionObserver)
    (fun info => info.type.isSubscribable) (fun info => { info with subscriptionObserver := true })
    (fun terminals => { session with terminals := terminals }) rfl ?_ ?_ (by decide) rfl (fun _ => rfl) (fun _ h => .inl h)
  case refine_1 => exact fun h => by simp only [hh, handleMonitorSubscriptionStateRequest, firstId_eq, h]
  case refine_2 => exact fun _ h => by simp only [hh, handleMonitorSubscriptionStateRequest, firstId_eq, h]

-- What has been caught is answered in the same way.

theorem responseOf_catchFailure {o : Outcome} : responseOf (catchFailure o).result = responseOf o.result := by
  rcases o with ⟨session', (what | _) | response⟩ <;> rfl

theorem session_catchFailure {o : Outcome} : (catchFailure o).session = o.session := by
  rcases o with ⟨session', (what | _) | response⟩ <;> rfl

theorem catch_ok {result : Except Fault Outcome} {o : Outcome} (h : result.map catchFailure = .ok o) :
    ∃ o', result = .ok o' ∧ responseOf o.result = responseOf o'.result ∧ o.session = o'.session := by
  cases result
  case error => cases h
  case ok o' =>
    cases h
    exact ⟨o', rfl, responseOf_catchFailure, session_catchFailure⟩

theorem catch_refused {result : Except Fault Outcome}
    (h : ∃ o, result = .ok o ∧ Refused session (responseOf o.result) o.session) :
    ∃ o, result.map catchFailure = .ok o ∧ Refused session (responseOf o.result) o.session := by
  obtain ⟨o, rfl, hr⟩ := h
  refine ⟨catchFailure o, rfl, ?_⟩
  rwa [responseOf_catchFailure, session_catchFailure]

theorem Handles.of_useTerminal (n : Nat) (p : TerminalInfo → Bool)
    (fn : UInt32 → TerminalInfo → Bytes → Except Fault Outcome)
    (hf : isComplete request kind = decide (n ≤ request.length))
    (hh : handler env session request kind = useTerminal session request fn)
    (ha : request.length < n →
      YogiSession.acts env session request kind = (session.terminals.get (firstId request)).any p)
    (hr : ∀ id info stream, n ≤ request.length → ∃ o, fn id info stream = .ok o)
    (hs : ∀ id info, request.length < n → p info = false → ∃ o, fn id info (readUnsigned (request.drop 1)).snd = .ok o ∧
      Refused session (responseOf o.result) o.session)
    (hp : ∀ id info, request.length < n → session.terminals.get id = some info → p info = true →
      ∀ o, fn id info (readUnsigned (request.drop 1)).snd = .ok o → ¬Refused session (responseOf o.result) o.session) :
    Handles env session request kind := by
  refine .of_lookup session.terminals .invalidTerminalId n p (fun info =>
    (fn (firstId request) info (readUnsigned (request.drop 1)).snd).map catchFailure) hf ?_ ?_ (by decide) ha ?_ ?_ ?_
  case refine_1 => exact fun h => by simp only [hh, useTerminal, firstId_eq, h]
  case refine_2 => exact fun _ h => by simp only [hh, useTerminal, firstId_eq, h]
  case refine_3 =>
    intro info hl
    obtain ⟨o, ho⟩ := hr (firstId request) info (readUnsigned (request.drop 1)).snd hl
    exact ⟨_, congrArg (Except.map catchFailure) ho⟩
  case refine_4 => exact fun info hl h => catch_refused (hs _ info hl h)
  case refine_5 =>
    intro info hl hg h o ho
    obtain ⟨o', ho', hres, hses⟩ := catch_ok ho
    rw [hres, hses]
    exact hp _ info hl hg h o' ho'

-- The payload is taken first.
theorem Handles.of_payload (fn : UInt32 → TerminalInfo → Bytes → Except Fault Outcome) (hf : fields kind = [.unsigned])
    (hh : handler env session request kind =
      useTerminal session request fun id info _ => payload request 5 >>= fn id info)
    (ha : YogiSession.acts env session request kind = (session.terminals.get 0).isSome)
    (hr : ∀ id info data, ∃ o, fn id info data = .ok o) : Handles env session request kind := by
  refine .of_useTerminal 5 (fun _ => true) _ (isComplete_unsigned hf) hh ?_ ?_ (fun _ _ _ h => by cases h) ?_
  case refine_1 =>
    intro h
    rw [ha, firstId_of_short h]
    cases session.terminals.get 0 <;> rfl
  case refine_2 =>
    intro id info stream hl
    rw [payload_of_long hl, ok_bind]
    exact hr id info _
  case refine_3 =>
    intro id info hl _ _ o ho
    rw [payload_of_short hl, error_bind] at ho
    cases ho

theorem handles_publishMessage : Handles env session request .publishMessage := by
  have hh : handler env session request .publishMessage = handlePublishMessageRequest env session request := rfl
  refine .of_payload _ rfl (by rw [hh, handlePublishMessageRequest]) rfl ?_
  intro id info data
  split
  case isTrue  => exact ⟨_, rfl⟩
  case isFalse => split <;> exact ⟨_, rfl⟩

theorem handles_monitorReceivedPublishMessages : Handles env session request .monitorReceivedPublishMessages := by
  have hh : handler env session request .monitorReceivedPublishMessages =
    handleMonitorReceivedPublishMessagesRequest env session request := rfl
  refine .of_payload _ rfl (by rw [hh, handleMonitorReceivedPublishMessagesRequest]) rfl ?_
  intro id info data
  dsimp only
  split
  case isTrue  => exact ⟨_, rfl⟩
  case isFalse => split <;> exact ⟨_, rfl⟩

theorem handles_scatterGather : Handles env session request .scatterGather := by
  have hh : handler env session request .scatterGather = handleScatterGatherRequest env session request := rfl
  refine .of_useTerminal 5 (fun info => info.type = .scatterGather ∨ info.type = .client) _ (isComplete_unsigned rfl)
    (by rw [hh, handleScatterGatherRequest]) (fun h => by rw [firstId_of_short h]; rfl) ?_ ?_ ?_
  case refine_1 =>
    intro id info stream hl
    simp only [payload_of_long hl]
    split
    case isTrue  =>
      rw [ok_bind]
      split <;> exact ⟨_, rfl⟩
    case isFalse =>
      split
      case isTrue  =>
        rw [ok_bind]
        split <;> exact ⟨_, rfl⟩
      case isFalse => exact ⟨_, rfl⟩
  case refine_2 =>
    intro id info _ h
    rw [decide_eq_false_iff_not, not_or] at h
    rw [if_neg h.1, if_neg h.2]
    exact refused_answer (by decide)
  case refine_3 =>
    intro id info hl _ h o ho
    simp only [payload_of_short hl, error_bind] at ho
    by_cases ht : info.type = .scatterGather
    case pos =>
      rw [if_pos ht] at ho
      cases ho
    case neg =>
      rw [if_neg ht, if_pos ((of_decide_eq_true h).resolve_left ht)] at ho
      cases ho

theorem handles_monitorReceivedScatterMessages : Handles env session request .monitorReceivedScatterMessages := by
  have hh : handler env session request .monitorReceivedScatterMessages =
    handleMonitorReceivedScatterMessagesRequest env session request := rfl
  refine .of_useTerminal 5 (fun info => info.type = .scatterGather ∨ info.type = .service) _ (isComplete_unsigned rfl)
    (by rw [hh, handleMonitorReceivedScatterMessagesRequest]) (fun h => by rw [firstId_of_short h]; rfl) ?_ ?_ ?_
  case refine_1 =>
    intro id info stream _
    split
    case isTrue  => exact startObserver_returns
    case isFalse => exact ⟨_, rfl⟩
  case refine_2 =>
    intro id info _ h
    rw [if_neg (of_decide_eq_false h)]
    exact refused_answer (by decide)
  case refine_3 =>
    intro id info hl hg h o ho
    rw [if_pos (of_decide_eq_true h)] at ho
    refine not_refused_startObserver ho (.inl (set_ne hg ?_))
    intro he
    have := congrArg TerminalInfo.messageObservers he
    simp at this

theorem handles_respondToScatteredMessage : Handles env session request .respondToScatteredMessage := by
  have hh : handler env session request .respondToScatteredMessage =
    handleRespondToScatteredMessageRequest env session request := rfl
  refine .of_useTerminal 9 (fun info => (messages info).any (0 ∈ ·)) _ (isComplete_unsigned_unsigned rfl)
    (by rw [hh, handleRespondToScatteredMessageRequest]) (fun _ => rfl) ?_ ?_ ?_
  case refine_1 =>
    intro id info stream hl
    dsimp only
    split
    case h_1 => exact ⟨_, rfl⟩
    case h_2 =>
      split
      case isTrue  => exact ⟨_, rfl⟩
      case isFalse =>
        rw [payload_of_long hl, ok_bind]
        split <;> exact ⟨_, rfl⟩
  case refine_2 =>
    intro id info hl h
    rw [secondId_eq, secondId_of_short hl]
    split
    case h_1          => exact refused_answer (by decide)
    case h_2 hm =>
      rw [hm] at h
      rw [if_pos (by simpa using h)]
      exact refused_answer (by decide)
  case refine_3 =>
    intro id info hl _ h o ho
    rw [secondId_eq, secondId_of_short hl] at ho
    cases hm : messages info
    case none => simp [hm] at h
    case some =>
      simp only [hm] at h ho
      rw [if_neg (by simpa using h), payload_of_short hl, error_bind] at ho
      cases ho

theorem handles_ignoreScatteredMessage : Handles env session request .ignoreScatteredMessage := by
  have hh : handler env session request .ignoreScatteredMessage =
    handleIgnoreScatteredMessageRequest env session request := rfl
  refine .of_useTerminal 9 (fun info => (messages info).any (0 ∈ ·) && (env.ignore 0).isOk) _
    (isComplete_unsigned_unsigned rfl) (by rw [hh, handleIgnoreScatteredMessageRequest]) (fun _ => rfl) ?_ ?_ ?_
  case refine_1 =>
    intro id info stream _
    dsimp only
    split
    case h_1 => exact ⟨_, rfl⟩
    case h_2 =>
      split
      case isTrue  => exact ⟨_, rfl⟩
      case isFalse => split <;> exact ⟨_, rfl⟩
  case refine_2 =>
    intro id info hl h
    rw [secondId_eq, secondId_of_short hl]
    cases hm : messages info
    case none          => exact refused_answer (by decide)
    case some messages =>
      dsimp only
      split
      case isTrue     => exact refused_answer (by decide)
      case isFalse hi =>
        cases he : env.ignore 0
        case error => exact refused_throws
        case ok    => simp [hm, he, Except.isOk, Except.toBool, not_not.mp hi] at h
  case refine_3 =>
    intro id info hl _ h o ho
    rw [secondId_eq, secondId_of_short hl] at ho
    rw [Bool.and_eq_true] at h
    cases hm : messages info
    case none => simp [hm] at h
    case some =>
      simp only [hm] at h ho
      rw [if_neg (by simpa using h.1)] at ho
      cases he : env.ignore 0
      case error => simp [he, Except.isOk, Except.toBool] at h
      case ok    =>
        rw [he] at ho
        exact not_refused_ok ho

-- A request whose last field is a string

theorem isTruncated_cases (request : Bytes) {n : Nat} (hn : 0 < n) : isTruncated request n = .ok true ∨
    isTruncated request n = .ok false ∧ n ≤ request.length ∧ ∀ k < n, 0 ∈ request.drop k := by
  rw [isTruncated]
  by_cases hl : request.length < n
  case pos => exact .inl (if_pos hl)
  case neg =>
    have hi : request.length - 1 < request.length := by omega
    have hb : byteAt request (request.length - 1) = .ok request[request.length - 1] := by simp [byteAt, hi]
    rw [if_neg hl, hb]
    by_cases h0 : request[request.length - 1] = 0
    case neg => exact .inl (congrArg Except.ok (decide_eq_true h0))
    case pos =>
      refine .inr ⟨congrArg Except.ok (decide_eq_false (not_not.mpr h0)), by omega, fun k hk => ?_⟩
      exact List.mem_drop_iff_getElem.mpr ⟨request.length - 1 - k, by omega, by simp only [← h0]; congr 1; omega⟩

theorem Handles.of_truncated (n : Nat) (hn : 0 < n) (result : Except Fault Outcome)
    (hh : handler env session request kind = do
      if ← isTruncated request n then answer session .invalidRequest [] else result)
    (hc : n ≤ request.length → (∀ k < n, 0 ∈ request.drop k) → isComplete request kind = true)
    (hr : (∀ k < n, 0 ∈ request.drop k) → ∃ o, result = .ok o)
    (ha : YogiSession.acts env session request kind = false) : Handles env session request kind where
  returns := by
    intro _
    rw [hh]
    cases isTruncated_cases request hn
    case inl h =>
      rw [h]
      exact ⟨_, rfl⟩
    case inr h =>
      rw [h.1]
      exact hr h.2.2
  refuses := by
    intro hnc _
    rw [hh]
    cases isTruncated_cases request hn
    case inl h =>
      rw [h]
      exact refused_answer (by decide)
    case inr h =>
      rw [hc h.2.1 h.2.2] at hnc
      cases hnc
  acts := by
    intro _ h
    rw [ha] at h
    cases h

theorem stringAt_of_mem {k : Nat} (h : 0 ∈ request.drop k) :
    stringAt request k = .ok ((request.drop k).takeWhile (· ≠ 0)) :=
  if_pos h

theorem handles_startDnsLookup : Handles env session request .startDnsLookup := by
  refine .of_truncated 2 (by decide) (answer session .ok (unsignedToByteArray (env.lookupHost (request.drop 1))))
    rfl ?_ (fun _ => ⟨_, rfl⟩) rfl
  intro _ h
  have hf : fields .startDnsLookup = [.string] := rfl
  simp only [isComplete, hf, complete_string, complete_nil, Bool.and_true, decide_eq_true_eq]
  exact h 1 (by decide)

theorem handles_startCustomCommand : Handles env session request .startCustomCommand := by
  refine .of_truncated 2 (by decide) _ rfl ?_ ?_ rfl
  case refine_1 =>
    intro _ h
    have hf : fields .startCustomCommand = [.string] := rfl
    simp only [isComplete, hf, complete_string, complete_nil, Bool.and_true, decide_eq_true_eq]
    exact h 1 (by decide)
  case refine_2 =>
    intro _
    split <;> exact ⟨_, rfl⟩

theorem handles_createTerminal : Handles env session request .createTerminal := by
  refine .of_truncated 7 (by decide) _ rfl ?_ ?_ rfl
  case refine_1 =>
    intro hl h
    have h6 := h 6 (by decide)
    have hf : fields .createTerminal = [.byte, .unsigned, .string] := rfl
    simp only [isComplete, hf, complete_byte, complete_unsigned, complete_string, complete_nil, List.drop_drop,
      List.length_drop, Bool.and_eq_true, decide_eq_true_eq, and_true]
    exact ⟨by omega, by omega, h6⟩
  case refine_2 =>
    intro h
    simp only [stringAt_of_mem (h 6 (by decide)), ok_bind]
    split
    case h_1 => exact ⟨_, rfl⟩
    case h_2 => split <;> exact ⟨_, rfl⟩

theorem handles_createBinding : Handles env session request .createBinding := by
  refine .of_truncated 7 (by decide) _ rfl ?_ ?_ rfl
  case refine_1 =>
    intro hl h
    have h5 := h 5 (by decide)
    have hf : fields .createBinding = [.unsigned, .string] := rfl
    simp only [isComplete, hf, complete_unsigned, complete_string, complete_nil, List.drop_drop,
      List.length_drop, Bool.and_eq_true, decide_eq_true_eq, and_true]
    exact ⟨by omega, h5⟩
  case refine_2 =>
    intro h
    simp only [stringAt_of_mem (h 5 (by decide)), ok_bind]
    split
    case h_1 => exact ⟨_, rfl⟩
    case h_2 =>
      split
      case isTrue  => exact ⟨_, rfl⟩
      case isFalse => split <;> exact ⟨_, rfl⟩

-- The requests of the account service

theorem drop_takeWhile {s : Bytes} : s.drop ((s.takeWhile (· ≠ 0)).length + 1) = (s.dropWhile (· ≠ 0)).tail := by
  have h : s.drop (s.takeWhile (· ≠ 0)).length = s.dropWhile (· ≠ 0) := by
    have := @List.drop_left _ (s.takeWhile (· ≠ 0)) (s.dropWhile (· ≠ 0))
    rwa [List.takeWhile_append_dropWhile] at this
  rw [← List.drop_drop, h, List.drop_one]

theorem mem_of_count_two {s : Bytes} (h : s.count 0 = 2) : 0 ∈ s ∧ 0 ∈ (s.dropWhile (· ≠ 0)).tail := by
  have hm : 0 ∈ s := List.count_pos_iff.mp (by omega)
  refine ⟨hm, List.count_pos_iff.mp ?_⟩
  have hn : (s.takeWhile (· ≠ 0)).count 0 = 0 :=
    List.count_eq_zero.mpr fun hz => by simpa using List.mem_takeWhile_imp hz
  have hs := congrArg (List.count 0) (List.takeWhile_append_dropWhile (p := (· ≠ 0)) (l := s))
  rw [List.count_append, hn, h] at hs
  have ht := @List.le_count_tail _ _ 0 (s.dropWhile (· ≠ 0))
  omega

theorem handles_startLoginTask : Handles env session request .startLoginTask := by
  have hs (h : ¬(request.length < 7 ∨ countStrings request 5 ≠ 2)) : 7 ≤ request.length ∧ 0 ∈ request.drop 5 ∧
      0 ∈ ((request.drop 5).dropWhile (· ≠ 0)).tail := by
    rw [not_or, Nat.not_lt, not_not] at h
    exact ⟨h.1, mem_of_count_two h.2⟩
  have hf : fields .startLoginTask = [.unsigned, .string, .string] := rfl
  have hh : handler env session request .startLoginTask = handleStartLoginTaskRequest env session request := rfl
  constructor
  case returns =>
    intro _
    rw [hh, handleStartLoginTaskRequest]
    split
    case isTrue    => exact ⟨_, rfl⟩
    case isFalse h =>
      obtain ⟨_, h5, ht⟩ := hs h
      rw [← drop_takeWhile, List.drop_drop, ← Nat.add_assoc] at ht
      simp only [stringAt_of_mem h5, stringAt_of_mem ht, ok_bind]
      split
      case isTrue  => exact ⟨_, rfl⟩
      case isFalse =>
        split
        case isTrue  => exact ⟨_, rfl⟩
        case isFalse => split <;> exact ⟨_, rfl⟩
  case refuses =>
    intro hc _
    rw [hh, handleStartLoginTaskRequest, if_pos]
    case hc =>
      by_contra h
      obtain ⟨hl, h5, ht⟩ := hs h
      rw [isComplete, hf, complete_unsigned, complete_string, complete_string, complete_nil, List.drop_drop,
        List.length_drop, decide_eq_true (by omega), decide_eq_true h5, decide_eq_true ht] at hc
      cases hc
    exact refused_answer (by decide)
  case acts =>
    intro _ h
    cases h

theorem handles_data (send : Bool → Bytes → Bool) (hf : fields kind = [.unsigned, .byte, .string])
    (hh : handler env session request kind = handleStartDataTaskRequest session request send)
    (ha : YogiSession.acts env session request kind = false) : Handles env session request kind := by
  have hm (h : ¬(request.length < 7 ∨ countStrings request 6 < 1)) : 7 ≤ request.length ∧ 0 ∈ request.drop 6 := by
    rw [not_or, Nat.not_lt, Nat.not_lt] at h
    exact ⟨h.1, List.count_pos_iff.mp h.2⟩
  constructor
  case returns =>
    intro _
    rw [hh, handleStartDataTaskRequest]
    split
    case isTrue    => exact ⟨_, rfl⟩
    case isFalse h =>
      split
      case isTrue  => exact ⟨_, rfl⟩
      case isFalse =>
        obtain ⟨b, hb⟩ := byteAt_ok_iff.mpr (show 5 < request.length by have := (hm h).1; omega)
        simp only [hb, ok_bind, stringAt_of_mem (hm h).2]
        split
        case isTrue  => exact ⟨_, rfl⟩
        case isFalse => split <;> exact ⟨_, rfl⟩
  case refuses =>
    intro hc _
    rw [hh, handleStartDataTaskRequest, if_pos]
    case hc =>
      by_contra h
      obtain ⟨hl, hz⟩ := hm h
      rw [isComplete, hf, complete_unsigned, complete_byte, complete_string, complete_nil, List.drop_drop,
        List.drop_drop, List.length_drop, List.length_drop, decide_eq_true (by omega), decide_eq_true (by omega),
        decide_eq_true hz] at hc
      cases hc
    exact refused_answer (by decide)
  case acts =>
    intro _ h
    rw [ha] at h
    cases h

theorem handles_startStoreDataTask : Handles env session request .startStoreDataTask := by
  have hh : handler env session request .startStoreDataTask = handleStartStoreDataTaskRequest env session request := rfl
  exact handles_data _ rfl (by rw [hh, handleStartStoreDataTaskRequest]) rfl

theorem handles_startReadDataTask : Handles env session request .startReadDataTask := by
  have hh : handler env session request .startReadDataTask = handleStartReadDataTaskRequest env session request := rfl
  exact handles_data _ rfl (by rw [hh, handleStartReadDataTaskRequest]) rfl

-- The byte of the requests of the `KnownTerminalsService` is read in any case.
theorem Handles.of_byte (hf : fields kind = [.byte]) (ha : YogiSession.acts env session request kind = true)
    (hr : 1 < request.length → ∃ o, handler env session request kind = .ok o)
    (he : byteAt request 1 = .error .outOfBounds → handler env session request kind = .error .outOfBounds) :
    Handles env session request kind := by
  have hc : isComplete request kind = decide (1 < request.length) := by
    rw [isComplete, hf, complete_byte, complete_nil, Bool.and_true, List.length_drop]
    exact decide_eq_decide.mpr (by omega)
  constructor
  case returns =>
    intro h
    exact hr (of_decide_eq_true (hc.symm.trans h))
  case refuses =>
    intro _ h
    rw [ha] at h
    cases h
  case acts =>
    intro h _ o ho
    have hn : ¬1 < request.length := of_decide_eq_false (hc.symm.trans h)
    rw [he (by simp [byteAt, Nat.not_lt.mp hn])] at ho
    cases ho

theorem handles_knownTerminalsSubtree : Handles env session request .knownTerminalsSubtree := by
  have hh : handler env session request .knownTerminalsSubtree =
    handleKnownTerminalsSubtreeRequest env session request := rfl
  refine .of_byte rfl rfl ?_ ?_ <;> rw [hh, handleKnownTerminalsSubtreeRequest]
  case refine_1 =>
    intro h
    obtain ⟨b, hb⟩ := byteAt_ok_iff.mpr h
    exact ⟨_, by rw [hb]; rfl⟩
  case refine_2 => exact fun h => by rw [h, error_bind]

theorem handles_findKnownTerminals : Handles env session request .findKnownTerminals := by
  have hh : handler env session request .findKnownTerminals = handleFindKnownTerminalsRequest env session request := rfl
  refine .of_byte rfl rfl ?_ ?_ <;> rw [hh, handleFindKnownTerminalsRequest]
  case refine_1 =>
    intro h
    rw [KnownTerminalsService.handleFindKnownTerminalsRequest_eq h]
    exact ⟨_, rfl⟩
  case refine_2 =>
    intro h
    rw [KnownTerminalsService.handleFindKnownTerminalsRequest, h]
    rfl

theorem handles : Handles env session request kind := by
  cases kind
  case knownTerminalsSubtree          => exact handles_knownTerminalsSubtree
  case findKnownTerminals             => exact handles_findKnownTerminals
  case startDnsLookup                 => exact handles_startDnsLookup
  case createTerminal                 => exact handles_createTerminal
  case destroyTerminal                => exact handles_destroyTerminal
  case createBinding                  => exact handles_createBinding
  case destroyBinding                 => exact handles_destroyBinding
  case monitorBindingState            => exact handles_monitorBindingState
  case monitorBuiltinBindingState     => exact handles_monitorBuiltinBindingState
  case monitorSubscriptionState       => exact handles_monitorSubscriptionState
  case publishMessage                 => exact handles_publishMessage
  case monitorReceivedPublishMessages => exact handles_monitorReceivedPublishMessages
  case scatterGather                  => exact handles_scatterGather
  case monitorReceivedScatterMessages => exact handles_monitorReceivedScatterMessages
  case respondToScatteredMessage      => exact handles_respondToScatteredMessage
  case ignoreScatteredMessage         => exact handles_ignoreScatteredMessage
  case startCustomCommand             => exact handles_startCustomCommand
  case terminateCustomCommand         => exact handles_terminateCustomCommand
  case writeCustomCommandStdin        => exact handles_writeCustomCommandStdin
  case startLoginTask                 => exact handles_startLoginTask
  case startStoreDataTask             => exact handles_startStoreDataTask
  case startReadDataTask              => exact handles_startReadDataTask
  case monitorKnownTerminals          =>
    have hh : handler env session request .monitorKnownTerminals =
      handleMonitorKnownTerminalsRequest env session := rfl
    refine .of_nil rfl ?_
    rw [hh, handleMonitorKnownTerminalsRequest]
    split <;> exact ⟨_, rfl⟩
  case monitorConnections             =>
    have hh : handler env session request .monitorConnections = handleMonitorConnectionsRequest env session := rfl
    refine .of_nil rfl ?_
    rw [hh, handleMonitorConnectionsRequest]
    split <;> exact ⟨_, rfl⟩
  all_goals exact .of_nil rfl ⟨_, rfl⟩

-- A request is handled as it should be if its fields are complete or if its handler refuses what is left of it.
theorem in_bounds_iff (env : Environment) (session : YogiSession) (request : Bytes) :
    InBounds env session request ↔ ∀ kind, kindOf env request = some kind →
      isComplete request kind = true ∨ acts env session request kind = false := by
  rw [InBounds, handleRequest]
  cases kindOf env request
  case none      => simp
  case some kind =>
    have h := @handles env session request kind
    simp only [Option.some.injEq, forall_eq']
    cases hc : isComplete request kind
    case true  =>
      obtain ⟨o, ho⟩ := h.returns hc
      exact iff_of_true ⟨_, _, by rw [ho]; rfl, fun hn => by cases hn⟩ (.inl rfl)
    case false =>
      simp only [Bool.false_eq_true, false_or, forall_const]
      cases ha : acts env session request kind
      case false =>
        obtain ⟨o, ho, hr⟩ := h.refuses hc ha
        exact iff_of_true ⟨_, _, by rw [ho]; rfl, hr⟩ rfl
      case true  =>
        refine iff_of_false ?_ Bool.true_eq_false.mp
        rintro ⟨response, session', he, hr⟩
        obtain ⟨o, ho, he⟩ := Except.map_eq_ok.mp he
        cases he
        exact h.acts hc ha o ho hr

-- Nothing outside of the session happens.
def idle : Environment where
  accountService      := false
  version             := []
  currentTime         := []
  clientAddress       := []
  connectionFactories := []
  connections         := []
  knownTerminals      := []
  subtree             := fun _ _ => []
  testCommand         := fun _ => false
  lookupHost          := fun _ => 0
  createTerminal      := fun _ _ _ => .ok ()
  createBinding       := fun _ => .ok ()
  startObserver       := .ok ()
  publish             := fun _ => .ok ()
  cachedMessage       := none
  startOperation      := fun _ => .ok 1
  respond             := fun _ _ => .ok ()
  ignore              := fun _ => .ok ()
  startCommand        := fun _ => .ok true
  sendRequest         := fun _ => true
  sendDataRequest     := fun _ _ => true

-- The request for a subtree of the known terminals ends behind its kind.
theorem subtree_without_flag : ¬∀ env session request, InBounds env session request := by
  intro h
  obtain ⟨_, _, he, _⟩ := h idle {} [4]
  have hf : handleRequest idle {} [4] = .error .outOfBounds := rfl
  rw [hf] at he
  cases he

end YogiSession

end Yogi.Hub
