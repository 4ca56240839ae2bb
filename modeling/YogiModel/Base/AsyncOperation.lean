import Mathlib
import YogiModel.Base.Machine

namespace Yogi

-- The class `AsyncOperation` with handlers of any type.
structure AsyncOperation (η : Type) where
  armedHandler      : Option η := none
  runningOperations : Int      := 0

namespace AsyncOperation

variable {η : Type}

inductive Error
  | asyncOperationRunning
  deriving DecidableEq

-- The sections that are executed while the mutex is locked.

def takeArmedHandler (op : AsyncOperation η) : Option η × AsyncOperation η :=
  (op.armedHandler, { op with armedHandler := none })

def getArmedHandler (op : AsyncOperation η) : Option η :=
  op.armedHandler

def armed (op : AsyncOperation η) : Bool :=
  op.armedHandler.isSome

def arm (op : AsyncOperation η) (handler : η) : Except Error (AsyncOperation η) :=
  if op.armed then
    .error .asyncOperationRunning
  else
    .ok { op with armedHandler := some handler, runningOperations := op.runningOperations + 1 }

def disarm (op : AsyncOperation η) : AsyncOperation η :=
  if op.armed then
    { op with armedHandler := none, runningOperations := op.runningOperations - 1 }
  else
    op

-- The last section of `fire`.
def finish (op : AsyncOperation η) : AsyncOperation η :=
  { op with runningOperations := op.runningOperations - 1 }

-- What `await_idle` waits for.
def idle (op : AsyncOperation η) : Bool :=
  op.runningOperations = 0

inductive Stage
  | taken
  | executing
  | returned
  deriving DecidableEq

-- A call of a member function that has not returned yet. A handler is the number of those that have been
-- armed before it.
inductive Call
  | fire (handler : Nat) (stage : Stage)
  | fireAndReload (handler : Nat) (stage : Stage)
  | awaitIdle
  deriving DecidableEq

def Call.isFire : Call → Bool
  | .fire _ _ => true
  | _         => false

-- What has happened to a handler.
inductive Event
  | armed (handler : Nat)
  | disarmed (handler : Nat)
  | taken (handler : Nat)
  | called (handler : Nat)
  deriving DecidableEq

inductive Action
  | arm
  | disarm
  | fire
  | fireAndReload
  | awaitIdle
  | callHandler
  | handlerReturns
  | finish
  | idleReturns
  deriving DecidableEq

-- An operation and the number of handlers that have been armed.
structure Object where
  op     : AsyncOperation Nat := {}
  number : Nat                := 0

-- The calls of a thread are listed from the innermost to the outermost one.
abbrev Stack := List Call

-- A thread may call a member function from the outside or from a handler that it executes.
def Stack.free : Stack → Bool
  | []                               => true
  | .fire _ .executing :: _          => true
  | .fireAndReload _ .executing :: _ => true
  | _                                => false

namespace Object

-- Whether a thread can take a step.
def allows (o : Object) (stack : Stack) : Action → Bool
  | .arm | .disarm | .fire | .fireAndReload | .awaitIdle => stack.free
  | .callHandler =>
    match stack with
    | .fire _ .taken :: _ | .fireAndReload _ .taken :: _ => true
    | _                                                  => false
  | .handlerReturns =>
    match stack with
    | .fire _ .executing :: _ | .fireAndReload _ .executing :: _ => true
    | _                                                          => false
  | .finish =>
    match stack with
    | .fire _ .returned :: _ => true
    | _                      => false
  | .idleReturns =>
    match stack with
    | .awaitIdle :: _ => o.op.idle
    | _               => false

def perform (o : Object) (stack : Stack) : Action → Object × Stack × List Event
  | .arm =>
    match o.op.arm o.number with
    | .ok op   => ({ op := op, number := o.number + 1 }, stack, [.armed o.number])
    | .error _ => (o, stack, [])
  | .disarm => ({ o with op := o.op.disarm }, stack, o.op.armedHandler.toList.map .disarmed)
  | .fire =>
    match o.op.takeArmedHandler with
    | (some handler, op) => ({ o with op := op }, .fire handler .taken :: stack, [.taken handler])
    | (none, op)         => ({ o with op := op }, stack, [])
  | .fireAndReload =>
    match o.op.getArmedHandler with
    | some handler => (o, .fireAndReload handler .taken :: stack, [])
    | none         => (o, stack, [])
  | .awaitIdle => (o, .awaitIdle :: stack, [])
  | .callHandler =>
    match stack with
    | .fire handler _ :: rest          => (o, .fire handler .executing :: rest, [.called handler])
    | .fireAndReload handler _ :: rest => (o, .fireAndReload handler .executing :: rest, [])
    | _                                => (o, stack, [])
  | .handlerReturns =>
    match stack with
    | .fire handler _ :: rest    => (o, .fire handler .returned :: rest, [])
    | .fireAndReload _ _ :: rest => (o, rest, [])
    | _                          => (o, stack, [])
  | .finish      => ({ o with op := o.op.finish }, stack.tail, [])
  | .idleReturns => (o, stack.tail, [])

end Object

-- The threads that use an operation.
structure Threads where
  object  : Object     := {}
  stackOf : List Stack
  history : List Event := []

namespace Threads

-- The thread with a number takes a step.
def enabled (s : Threads) (a : Nat × Action) : Prop :=
  ∃ stack ∈ s.stackOf[a.1]?, s.object.allows stack a.2 = true

def act (s : Threads) (a : Nat × Action) : Threads :=
  match s.stackOf[a.1]? with
  | none       => s
  | some stack =>
    let (object, stack, events) := s.object.perform stack a.2
    { object := object, stackOf := s.stackOf.set a.1 stack, history := s.history ++ events }

def machine : Machine Threads (Nat × Action) Empty where
  init s  := ∃ n, s = { stackOf := List.replicate n [] }
  enabled := enabled
  step    := fun s a => .ok (s.act a)

-- All calls that have not returned.
def calls (s : Threads) : List Call :=
  s.stackOf.flatten

-- The calls of `fire` that have taken a handler and not yet decremented the counter.
def pendingFires (s : Threads) : Nat :=
  s.calls.countP Call.isFire

-- Where a handler has gone after it has been armed.
inductive Fate (s : Threads) (handler : Nat) : Prop
  | armed (armed : s.object.op.armedHandler = some handler) (taken : .taken handler ∉ s.history)
    (disarmed : .disarmed handler ∉ s.history)
  | fired (armed : s.object.op.armedHandler ≠ some handler) (taken : s.history.count (.taken handler) = 1)
    (disarmed : .disarmed handler ∉ s.history)
    (called : s.history.count (.called handler) + s.calls.count (.fire handler .taken) = 1)
  | disarmed (armed : s.object.op.armedHandler ≠ some handler) (taken : .taken handler ∉ s.history)
    (disarmed : s.history.count (.disarmed handler) = 1) (called : .called handler ∉ s.history)

-- What holds of the object, the calls of all threads and the history between two steps.
structure Inv (o : Object) (cs : List Call) (history : List Event) : Prop where
  running  : o.op.runningOperations = (if o.op.armed then 1 else 0) + cs.countP Call.isFire
  once     : ∀ n, history.count (.armed n) = if n < o.number then 1 else 0
  consumed : ∀ n, history.count (.armed n) = (if o.op.armedHandler = some n then 1 else 0) +
    history.count (.taken n) + history.count (.disarmed n)
  called   : ∀ n, history.count (.taken n) = history.count (.called n) + cs.count (.fire n .taken)

section

variable {o : Object} {op : AsyncOperation Nat} {stack stack' : Stack} {cs cs' : List Call} {history : List Event}
  {n : Nat}

-- The calls of one thread are exchanged.
structure Exchanged (cs cs' stack stack' : List Call) : Prop where
  countP : ∀ p, cs'.countP p + stack.countP p = cs.countP p + stack'.countP p

theorem Exchanged.isFire (h : Exchanged cs cs' stack stack') :
    cs'.countP Call.isFire + stack.countP Call.isFire = cs.countP Call.isFire + stack'.countP Call.isFire :=
  h.countP _

theorem Exchanged.count (h : Exchanged cs cs' stack stack') (c : Call) :
    cs'.count c + stack.count c = cs.count c + stack'.count c :=
  h.countP _

theorem exchanged_set {ss : List Stack} {t : Nat} (h : ss[t]? = some stack) :
    Exchanged ss.flatten (ss.set t stack').flatten stack stack' where
  countP := by
    intro p
    induction ss generalizing t
    case nil               => simp at h
    case cons stack'' l ih =>
      cases t
      case zero =>
        cases h
        simp
        omega
      case succ t =>
        have := ih h
        simp only [List.set_cons_succ, List.flatten_cons, List.countP_append]
        omega

namespace Inv

variable {running : Int} {number : Nat} {rest : Stack}

theorem exchange (h : Inv o cs history) (hx : Exchanged cs cs' stack stack')
    (hf : stack'.countP Call.isFire = stack.countP Call.isFire)
    (ht : ∀ n, stack'.count (.fire n .taken) = stack.count (.fire n .taken)) :
    Inv o cs' (history ++ []) := by
  rw [List.append_nil]
  have hi := hx.isFire
  refine ⟨?_, h.once, h.consumed, fun n => ?_⟩
  case refine_1 =>
    have := h.running
    omega
  case refine_2 =>
    have := h.called n
    have := hx.count (.fire n .taken)
    have := ht n
    omega

theorem same (h : Inv o cs history) (hx : Exchanged cs cs' stack stack) : Inv o cs' (history ++ []) :=
  h.exchange hx rfl fun _ => rfl

theorem arm (h : Inv ⟨⟨none, running⟩, number⟩ cs history) (hx : Exchanged cs cs' stack stack) :
    Inv ⟨⟨some number, running + 1⟩, number + 1⟩ cs' (history ++ [.armed number]) := by
  have hi := hx.isFire
  have hr := h.running
  constructor
  case running  =>
    simp [armed] at hr ⊢
    omega
  case once     =>
    intro n
    have := h.once n
    simp [List.count_singleton] at this ⊢
    grind
  case consumed =>
    intro n
    have := h.once n
    have := h.consumed n
    simp [List.count_singleton] at *
    grind
  case called   =>
    intro n
    have := h.called n
    have := hx.count (.fire n .taken)
    simp at *
    omega

theorem disarm (h : Inv ⟨⟨some n, running⟩, number⟩ cs history) (hx : Exchanged cs cs' stack stack) :
    Inv ⟨⟨none, running - 1⟩, number⟩ cs' (history ++ [.disarmed n]) := by
  have hi := hx.isFire
  have hr := h.running
  constructor
  case running  =>
    simp [armed] at hr ⊢
    omega
  case once     => simpa using h.once
  case consumed =>
    intro m
    have := h.consumed m
    simp [List.count_singleton] at this ⊢
    grind
  case called   =>
    intro m
    have := h.called m
    have := hx.count (.fire m .taken)
    simp at *
    omega

theorem take (h : Inv ⟨⟨some n, running⟩, number⟩ cs history)
    (hx : Exchanged cs cs' stack (.fire n .taken :: stack)) :
    Inv ⟨⟨none, running⟩, number⟩ cs' (history ++ [.taken n]) := by
  have hi := hx.isFire
  have hr := h.running
  constructor
  case running  =>
    simp [armed, List.countP_cons, Call.isFire] at hr hi ⊢
    omega
  case once     => simpa using h.once
  case consumed =>
    intro m
    have := h.consumed m
    simp [List.count_singleton] at this ⊢
    grind
  case called   =>
    intro m
    have := h.called m
    have := hx.count (.fire m .taken)
    simp [List.count_cons] at *
    omega

theorem call (h : Inv o cs history)
    (hx : Exchanged cs cs' (.fire n .taken :: rest) (.fire n .executing :: rest)) :
    Inv o cs' (history ++ [.called n]) := by
  have hi := hx.isFire
  have hr := h.running
  constructor
  case running  =>
    simp [List.countP_cons, Call.isFire] at hi
    omega
  case once     => simpa using h.once
  case consumed => simpa using h.consumed
  case called   =>
    intro m
    have := h.called m
    have := hx.count (.fire m .taken)
    simp [List.count_cons] at *
    omega

theorem finish (h : Inv o cs history) (hx : Exchanged cs cs' (.fire n .returned :: rest) rest) :
    Inv { o with op := o.op.finish } cs' (history ++ []) := by
  have hi := hx.isFire
  have hr := h.running
  rw [List.append_nil]
  constructor
  case running  =>
    have ha : o.op.finish.armed = o.op.armed := rfl
    have hd : o.op.finish.runningOperations = o.op.runningOperations - 1 := rfl
    simp only [List.countP_cons, Call.isFire, if_true] at hi
    rw [hd, hr, ha]
    omega
  case once     => exact h.once
  case consumed => exact h.consumed
  case called   =>
    intro m
    have := h.called m
    have := hx.count (.fire m .taken)
    simp at *
    omega

-- Every step keeps the invariant.
theorem perform {a} (h : Inv o cs history) (ha : o.allows stack a = true)
    (hx : Exchanged cs cs' stack (o.perform stack a).2.1) :
    Inv (o.perform stack a).1 cs' (history ++ (o.perform stack a).2.2) := by
  obtain ⟨⟨handler, running⟩, number⟩ := o
  cases a
  case arm            =>
    cases handler
    case none   => exact h.arm hx
    case some n => exact h.same hx
  case disarm         =>
    cases handler
    case none   => exact h.same hx
    case some n => exact h.disarm hx
  case fire           =>
    cases handler
    case none   => exact h.same hx
    case some n => exact h.take hx
  case fireAndReload  =>
    cases handler
    case none   => exact h.same hx
    case some n => exact h.exchange hx rfl fun m => by simp [Object.perform, getArmedHandler]
  case awaitIdle      => exact h.exchange hx rfl fun m => by simp [Object.perform]
  case callHandler    =>
    simp only [Object.allows] at ha
    split at ha
    case h_1 n rest => exact h.call hx
    case h_2 n rest => exact h.exchange hx rfl fun m => by simp [Object.perform]
    case h_3        => cases ha
  case handlerReturns =>
    simp only [Object.allows] at ha
    split at ha
    case h_1 n rest => exact h.exchange hx rfl fun m => by simp [Object.perform]
    case h_2 n rest => exact h.exchange hx rfl fun m => by simp [Object.perform]
    case h_3        => cases ha
  case finish         =>
    simp only [Object.allows] at ha
    split at ha
    case h_1 n rest => exact h.finish hx
    case h_2        => cases ha
  case idleReturns    =>
    simp only [Object.allows] at ha
    split at ha
    case h_1 rest => exact h.exchange hx rfl fun m => by simp [Object.perform]
    case h_2      => cases ha

end Inv

theorem act_eq {s : Threads} {t : Nat} {a : Action} (h : s.stackOf[t]? = some stack) :
    s.act (t, a) = { object  := (s.object.perform stack a).1,
                     stackOf := s.stackOf.set t (s.object.perform stack a).2.1,
                     history := s.history ++ (s.object.perform stack a).2.2 } := by
  simp [act, h]

theorem Inv.reachable {s : Threads} (h : machine.Reachable s) : Inv s.object s.calls s.history := by
  refine h.preserves (I := fun s => Inv s.object s.calls s.history) ?_ ?_
  case refine_1 =>
    rintro _ ⟨n, rfl⟩
    have : (List.replicate n ([] : Stack)).flatten = [] := by simp
    constructor
    case running  => simp [armed, calls, this]
    case once     => simp
    case consumed => simp
    case called   => simp [calls, this]
  case refine_2 =>
    rintro s ⟨t, a⟩ s' hi ⟨stack, hs, ha⟩ hstep
    cases hstep
    rw [act_eq hs]
    exact hi.perform ha (exchanged_set hs)

theorem Inv.fate {s : Threads} (h : Inv s.object s.calls s.history) (hn : .armed n ∈ s.history) :
    s.history.count (.armed n) = 1 ∧ s.Fate n := by
  have hpos := List.count_pos_iff.mpr hn
  have hone : s.history.count (.armed n) = 1 := by
    have := h.once n
    split at this <;> omega
  have hc := h.consumed n
  have hcalled := h.called n
  refine ⟨hone, ?_⟩
  split at hc
  case isTrue ha =>
    exact .armed ha (List.count_eq_zero.mp (by omega)) (List.count_eq_zero.mp (by omega))
  case isFalse ha =>
    by_cases ht : s.history.count (.taken n) = 0
    case pos =>
      exact .disarmed ha (List.count_eq_zero.mp ht) (by omega) (List.count_eq_zero.mp (by omega))
    case neg => exact .fired ha (by omega) (List.count_eq_zero.mp (by omega)) (by omega)

theorem arm_refused {s : Threads} {t : Nat} (h : machine.enabled s (t, .arm)) :
    (s.object.op.arm s.object.number = .error .asyncOperationRunning ↔ s.object.op.armed = true) ∧
    (s.object.op.armed = true → s.act (t, .arm) = s) := by
  obtain ⟨stack, hs, _⟩ := h
  refine ⟨by simp [AsyncOperation.arm], fun ha => ?_⟩
  have hp : s.object.perform stack .arm = (s.object, stack, []) := by
    simp [Object.perform, AsyncOperation.arm, ha]
  have hset : s.stackOf.set t stack = s.stackOf := by
    obtain ⟨hlt, rfl⟩ := List.getElem?_eq_some_iff.mp hs
    exact List.set_getElem_self hlt
  simp [act_eq hs, hp, hset]

theorem Inv.idle {s : Threads} {t : Nat} (h : Inv s.object s.calls s.history)
    (he : machine.enabled s (t, .idleReturns)) :
    s.object.op.armed = false ∧ ∀ c ∈ s.calls, c.isFire = false := by
  obtain ⟨stack, _, ha⟩ := he
  have hi : s.object.op.runningOperations = 0 := by
    simp only [Object.allows] at ha
    split at ha
    case h_1 => simpa [AsyncOperation.idle] using ha
    case h_2 => cases ha
  have hr := h.running
  split at hr
  case isTrue  => omega
  case isFalse hd =>
    have hz : s.calls.countP Call.isFire = 0 := by omega
    exact ⟨by simpa using hd, by simpa using List.countP_eq_zero.mp hz⟩

theorem operations_accounted (s : Threads) (h : machine.Reachable s) :
    s.object.op.runningOperations = (if s.object.op.armed then 1 else 0) + s.pendingFires ∧
    0 ≤ s.object.op.runningOperations ∧
    (∀ n, .armed n ∈ s.history → s.history.count (.armed n) = 1 ∧ s.Fate n) ∧
    (∀ t, machine.enabled s (t, .arm) →
      (s.object.op.arm s.object.number = .error .asyncOperationRunning ↔ s.object.op.armed = true) ∧
      (s.object.op.armed = true → s.act (t, .arm) = s)) ∧
    (∀ t, machine.enabled s (t, .idleReturns) →
      s.object.op.armed = false ∧ ∀ c ∈ s.calls, c.isFire = false) := by
  have hi := Inv.reachable h
  refine ⟨hi.running, ?_, fun n hn => hi.fate hn, fun t ht => arm_refused ht, fun t ht => hi.idle ht⟩
  rw [hi.running]
  split <;> omega

end

instance {s a} : Decidable (machine.enabled s a) :=
  inferInstanceAs (Decidable (∃ stack ∈ s.stackOf[a.1]?, s.object.allows stack a.2 = true))

-- A handler arms the next one while `await_idle` waits in another thread.
theorem operations_accounted_rearmed :
    ∃ s : Threads, s.object.op.runningOperations = 2 ∧ s.pendingFires = 1 := by
  obtain ⟨s, hs⟩ : ∃ s, machine.run { stackOf := List.replicate 2 [] }
    [(0, .arm), (1, .awaitIdle), (0, .fire), (0, .callHandler), (0, .arm)] = some s := ⟨_, rfl⟩
  have h := operations_accounted s (.of_run (.init ⟨2, rfl⟩) hs)
  cases hs
  exact ⟨_, h.left, rfl⟩

end Threads

end AsyncOperation

end Yogi
