import Mathlib
import YogiModel.Base.Machine

namespace Yogi.Supervisor

inductive ExitStatus
  | unknown
  | success
  | failure
  | timeout
  | canceled
  | killed
  | startupFailure
  deriving DecidableEq

inductive Child
  | running
  | exited (code : Nat)
  | signaled
  deriving DecidableEq

-- The status for a child that has terminated.
def exitStatus (child : Child) (timedOut killed : Bool) : ExitStatus :=
  let es := match child with
    | .running     => .unknown
    | .exited code => if code = 0 then .success else .failure
    | .signaled    => if timedOut then .timeout else .canceled
  if killed && !timedOut then .killed else es

-- The continuations that are posted to the `io_service`.
inductive Continuation
  | killChild
  | complete (es : ExitStatus)
  deriving DecidableEq

inductive CommandFault
  | badFunctionCall
  deriving DecidableEq

-- A command whose `fork` has succeeded.
structure Command where
  -- `m_childPid` is not zero.
  childPid          : Bool
  timedOut          : Bool
  killed            : Bool
  completionHandler : Bool
  -- The timer and the signal set are waited for.
  timer             : Bool
  signals           : Bool
  posted            : List Continuation
  completed         : List ExitStatus
  -- The child and whether a SIGCHLD has not been handled yet.
  child             : Child
  sigchld           : Bool
  -- What has happened: `kill()` was called before the termination was collected, the timer expired while
  -- the child ran and the signal was sent to the child.
  killRequested     : Bool
  expired           : Bool
  sigterm           : Bool
  deriving DecidableEq

namespace Command

variable {s s' : Command} {fails : Bool}

def started (timeout : Bool) : Command where
  childPid          := true
  timedOut          := false
  killed            := false
  completionHandler := true
  timer             := timeout
  signals           := true
  posted            := []
  completed         := []
  child             := .running
  sigchld           := false
  killRequested     := false
  expired           := false
  sigterm           := false

-- `kill_child`, where `::kill` may fail.
def killChild (s : Command) (fails : Bool) : Command :=
  if s.childPid && !s.killed then
    let s := if fails then { s with posted := s.posted ++ [.killChild] } else { s with sigterm := true }
    { s with killed := true }
  else
    s

-- Cancelling the timer does not help if it has expired already.
def kill (s : Command) (fails : Bool) : Command :=
  { s with killRequested := s.killRequested || s.childPid }.killChild fails

def onTimeout (s : Command) (fails : Bool) : Command :=
  { { s with timer := false, expired := s.expired || s.child = Child.running }.killChild fails with timedOut := true }

-- The handler of `async_await_signal`.
def onSignal (s : Command) : Command :=
  let s := { s with sigchld := false, signals := false }
  if s.child ≠ .running then
    let es := exitStatus s.child s.timedOut s.killed
    if es = .unknown then
      { s with signals := true }
    else
      { s with childPid := false, posted := s.posted ++ [.complete es] }
  else
    { s with signals := true }

def complete (s : Command) (es : ExitStatus) : Except CommandFault Command :=
  if s.completionHandler then
    .ok { s with completionHandler := false, completed := s.completed ++ [es] }
  else
    .error .badFunctionCall

-- The next posted continuation.
def poll (s : Command) (fails : Bool) : Except CommandFault Command :=
  match s.posted with
  | []               => .ok s
  | .killChild :: l  => .ok ({ s with posted := l }.killChild fails)
  | .complete es :: l => { s with posted := l }.complete es

inductive Action
  | terminate (child : Child)
  | otherChild
  | signal
  | timeout (fails : Bool)
  | kill (fails : Bool)
  | poll (fails : Bool)
  deriving DecidableEq

def enabled (s : Command) : Action → Prop
  | .terminate child => s.child = .running ∧ child ≠ .running
  | .otherChild      => True
  | .signal          => s.sigchld = true ∧ s.signals = true
  | .timeout _       => s.timer = true
  | .kill _          => True
  | .poll _          => s.posted ≠ []

instance {a : Action} : Decidable (s.enabled a) :=
  match a with
  | .terminate child => inferInstanceAs (Decidable (s.child = .running ∧ child ≠ .running))
  | .otherChild      => isTrue trivial
  | .signal          => inferInstanceAs (Decidable (s.sigchld = true ∧ s.signals = true))
  | .timeout _       => inferInstanceAs (Decidable (s.timer = true))
  | .kill _          => isTrue trivial
  | .poll _          => inferInstanceAs (Decidable (s.posted ≠ []))

def step (s : Command) : Action → Except CommandFault Command
  | .terminate child => .ok { s with child, sigchld := true }
  | .otherChild      => .ok { s with sigchld := true }
  | .signal          => .ok s.onSignal
  | .timeout fails   => .ok (s.onTimeout fails)
  | .kill fails      => .ok (s.kill fails)
  | .poll fails      => s.poll fails

def machine : Machine Command Action CommandFault where
  init    := fun s => ∃ timeout, s = started timeout
  enabled := enabled
  step    := step

-- What the completion handler should be told.
def expectedStatus (s : Command) : ExitStatus :=
  match s.child with
  | .signaled    => if s.expired then .timeout else if s.killRequested then .killed else .canceled
  | .exited code =>
    if s.killRequested && !s.expired then .killed else if code = 0 then .success else .failure
  | .running     => .unknown

-- The life cycle of a command.
structure LifeCycle (s : Command) : Prop where
  atMostOnce : s.completed.length ≤ 1
  notBefore  : s.completed ≠ [] → s.child ≠ .running
  once       : s.child ≠ .running → s.sigchld = false → s.posted = [] → s.completed.length = 1
  status     : ∀ es ∈ s.completed, es = s.expectedStatus
  attempts   : s.child = .running → s.killRequested = true ∨ s.expired = true →
    s.sigterm = true ∨ .killChild ∈ s.posted

-- The timer has expired between the child's termination and its collection.
def Late (s : Command) : Prop :=
  s.childPid = true ∧ s.timedOut = true ∧ s.expired = false

instance : Decidable s.Late :=
  inferInstanceAs (Decidable (_ ∧ _))

-- The conditions under which the code works: a continuation that should try again is not run while the child
-- still runs, and the timer does not expire between the child's termination and its collection unless the child
-- has exited and is not killed before it is collected.
def InTime (s : Command) : Action → Prop
  | .poll _    => s.posted.head? = some .killChild → s.child ≠ .running
  | .timeout _ => s.childPid = true → s.child ≠ .running → s.expired = false →
    s.child ≠ .signaled ∧ s.killRequested = false
  | .kill _    => ¬s.Late
  | _          => True

instance {a : Action} : Decidable (s.InTime a) :=
  match a with
  | .poll _    => inferInstanceAs (Decidable (s.posted.head? = some .killChild → s.child ≠ .running))
  | .timeout _ => inferInstanceAs (Decidable (s.childPid = true → s.child ≠ .running → s.expired = false →
    s.child ≠ .signaled ∧ s.killRequested = false))
  | .kill _    => inferInstanceAs (Decidable (¬s.Late))
  | .terminate _ | .otherChild | .signal => isTrue trivial

-- The termination has not been collected.
structure Monitored (s : Command) : Prop where
  signals : s.signals = true
  handler : s.completionHandler = true
  none    : s.completed = []
  posted  : ∀ p ∈ s.posted, p = .killChild ∧ s.killed = true
  sigchld : s.child ≠ .running → s.sigchld = true
  killed  : s.killed = true ↔ s.killRequested = true ∨ s.timedOut = true
  expired : s.expired = true → s.timedOut = true
  late    : s.timedOut = true → s.expired = true ∨ (∃ code, s.child = .exited code) ∧ s.killRequested = false
  attempt : s.child = .running → s.killed = true → s.sigterm = true ∨ .killChild ∈ s.posted

-- The handler is called for the posted continuation.
structure Collected (s : Command) : Prop where
  signals : s.signals = false
  child   : s.child ≠ .running
  owed    : (s.completionHandler = true ∧ s.completed = [] ∧
      s.posted.filter (· ≠ .killChild) = [.complete s.expectedStatus]) ∨
    (s.completionHandler = false ∧ s.completed = [s.expectedStatus] ∧ s.posted.filter (· ≠ .killChild) = [])

def Inv (s : Command) : Prop :=
  if s.childPid then s.Monitored else s.Collected

theorem Monitored.lifeCycle (h : s.Monitored) : s.LifeCycle where
  atMostOnce := by simp [h.none]
  notBefore  := fun hc => absurd h.none hc
  once       := fun hc hs => by simp [h.sigchld hc] at hs
  status     := by simp [h.none]
  attempts   := fun hc hr => h.attempt hc (h.killed.mpr (hr.imp_right h.expired))

theorem Collected.lifeCycle (h : s.Collected) : s.LifeCycle where
  atMostOnce := by obtain ⟨_, hc, _⟩ | ⟨_, hc, _⟩ := h.owed <;> simp [hc]
  notBefore  := fun _ => h.child
  once       := by
    intro _ _ hp
    obtain ⟨_, _, hc⟩ | ⟨_, hc, _⟩ := h.owed
    · simp [hp] at hc
    · simp [hc]
  status     := by obtain ⟨_, hc, _⟩ | ⟨_, hc, _⟩ := h.owed <;> simp [hc]
  attempts   := fun hc => absurd hc h.child

theorem Inv.lifeCycle (h : s.Inv) : s.LifeCycle := by
  simp only [Inv] at h
  split at h
  case isTrue  => exact h.lifeCycle
  case isFalse => exact h.lifeCycle

theorem killChild_of_not_childPid (h : s.childPid = false) : s.killChild fails = s := by
  simp [killChild, h]

theorem killChild_childPid : (s.killChild fails).childPid = s.childPid := by
  simp only [killChild]
  split <;> cases fails <;> rfl

-- A child that is monitored has been killed afterwards or the attempt is repeated.
structure Killed (s s' : Command) : Prop where
  same    : s' = { s with killed := true, posted := s'.posted, sigterm := s'.sigterm }
  posted  : s'.posted = s.posted ∨ s'.posted = s.posted ++ [.killChild]
  sigterm : s.sigterm = true → s'.sigterm = true
  attempt : s.killed = true ∨ s'.sigterm = true ∨ .killChild ∈ s'.posted

theorem killed_killChild (h : s.childPid = true) : s.Killed (s.killChild fails) := by
  simp only [killChild, h, Bool.true_and, Bool.not_eq_true']
  split
  case isTrue  => cases fails <;> constructor <;> simp [h]
  case isFalse hk =>
    have hk : s.killed = true := by simpa using hk
    exact ⟨by simp [← hk], .inl rfl, id, .inl hk⟩

theorem exitStatus_eq (h : s.Monitored) :
    exitStatus s.child s.timedOut s.killed = s.expectedStatus ∨ s.child = .running := by
  have hk := h.killed
  have he := h.expired
  have hl := h.late
  simp only [exitStatus, expectedStatus]
  grind

theorem Monitored.kill (h : s.Monitored) (hp : s.childPid = true) (hl : ¬s.Late) : (s.kill fails).Monitored := by
  obtain ⟨hs, ho, ht, ha⟩ : Killed { s with killRequested := s.killRequested || s.childPid }
    ({ s with killRequested := s.killRequested || s.childPid }.killChild fails) :=
    killed_killChild (s := { s with killRequested := s.killRequested || s.childPid }) hp
  simp only [Command.kill]
  generalize ({ s with killRequested := s.killRequested || s.childPid }.killChild fails) = s' at hs ho ht ha
  obtain ⟨h₁, h₂, h₃, h₄, h₅, h₆, h₇, h₈, h₉⟩ := h
  rw [hs]
  constructor <;> simp [hp, Late] at * <;> grind

theorem Monitored.onTimeout (h : s.Monitored) (hp : s.childPid = true)
    (hl : s.child ≠ .running → s.expired = false → s.child ≠ .signaled ∧ s.killRequested = false) :
    (s.onTimeout fails).Monitored := by
  have hc : s.child ≠ .running → s.child ≠ .signaled → ∃ code, s.child = .exited code := by
    cases s.child <;> simp
  obtain ⟨hs, ho, ht, ha⟩ : Killed { s with timer := false, expired := s.expired || s.child = Child.running }
    ({ s with timer := false, expired := s.expired || s.child = Child.running }.killChild fails) :=
    killed_killChild (s := { s with timer := false, expired := s.expired || s.child = Child.running }) hp
  simp only [Command.onTimeout]
  generalize ({ s with timer := false, expired := s.expired || s.child = Child.running }.killChild fails) = s'
    at hs ho ht ha
  obtain ⟨h₁, h₂, h₃, h₄, h₅, h₆, h₇, h₈, h₉⟩ := h
  rw [hs]
  constructor <;> simp [hp] at * <;> grind

-- The command guards itself with the flag that it has set before: nothing is tried again.
theorem killChild_of_killed (h : s.killed = true) : s.killChild fails = s := by
  simp [killChild, h]

theorem Monitored.poll (h : s.Monitored) {l} (hl : s.posted = .killChild :: l) (hc : s.child ≠ .running) :
    ({ s with posted := l }.killChild fails).Monitored := by
  have hk : s.killed = true := (h.posted .killChild (by simp [hl])).right
  rw [killChild_of_killed (by exact hk)]
  have hp := h.posted
  rw [hl] at hp
  exact { h with
    posted  := fun p hm => hp p (List.mem_cons_of_mem _ hm)
    attempt := fun hr => absurd hr hc }

theorem Monitored.onSignal (h : s.Monitored) (hp : s.childPid = true) : s.onSignal.Inv := by
  have hf : s.posted.filter (· ≠ .killChild) = [] := by
    rw [List.filter_eq_nil_iff]
    intro p hm
    simp [(h.posted p hm).left]
  simp only [Command.onSignal]
  split
  case isFalse hc =>
    have hc : s.child = .running := by simpa using hc
    simp only [Inv, hp, if_true]
    exact { h with signals := rfl, sigchld := fun hr => absurd hc hr }
  case isTrue hc =>
    have hc : s.child ≠ .running := hc
    have he := (exitStatus_eq h).resolve_right hc
    have hu : s.expectedStatus ≠ .unknown := by
      simp only [expectedStatus]
      grind
    simp only [he, hu, if_false, Inv, Bool.false_eq_true]
    exact ⟨rfl, hc, .inl ⟨h.handler, h.none, by rw [List.filter_append, hf]; rfl⟩⟩

-- After the termination has been collected only the handler's call changes anything.
theorem Collected.same (h : s.Collected) (hs : s'.signals = s.signals ∧
    s'.completionHandler = s.completionHandler ∧ s'.completed = s.completed ∧ s'.posted = s.posted ∧
    s'.child = s.child ∧ s'.killRequested = s.killRequested ∧ s'.expired = s.expired) : s'.Collected := by
  obtain ⟨h₀, h₁, h₂, h₃, h₄, h₅, h₆⟩ := hs
  obtain ⟨hi, hc, ho⟩ := h
  refine ⟨h₀ ▸ hi, h₄ ▸ hc, ?_⟩
  simpa only [h₁, h₂, h₃, expectedStatus, h₄, h₅, h₆] using ho

theorem Collected.poll (h : s.Collected) (hp : s.childPid = false) :
    ∃ s', s.poll fails = .ok s' ∧ s'.childPid = false ∧ s'.Collected := by
  simp only [Command.poll]
  split
  case h_1 => exact ⟨s, rfl, hp, h⟩
  case h_2 l hl =>
    rw [killChild_of_not_childPid (by exact hp)]
    refine ⟨_, rfl, hp, h.signals, h.child, ?_⟩
    simpa [hl, expectedStatus] using h.owed
  case h_3 es l hl =>
    obtain ⟨hh, hn, ho⟩ | ⟨_, _, ho⟩ := h.owed
    · obtain ⟨rfl, ho⟩ : es = s.expectedStatus ∧ l.filter (· ≠ .killChild) = [] := by simpa [hl] using ho
      simp only [Command.complete, hh, if_true]
      exact ⟨_, rfl, hp, h.signals, h.child, .inr ⟨rfl, by rw [hn]; rfl, ho⟩⟩
    · simp [hl] at ho

theorem Monitored.inv (h : s.Monitored) (hp : s.childPid = true) : s.Inv := by
  simpa [Inv, hp] using h

theorem Collected.inv (h : s.Collected) (hp : s.childPid = false) : s.Inv := by
  simpa [Inv, hp] using h

theorem Monitored.step (h : s.Monitored) (hp : s.childPid = true) {a} (he : s.enabled a) (ht : s.InTime a) :
    ∃ s', s.step a = .ok s' ∧ s'.Inv := by
  cases a
  case terminate c =>
    have hl := h.late
    have hr : s.child = .running := he.left
    refine ⟨_, rfl, Monitored.inv { h with sigchld := fun _ => rfl, late := ?_, attempt := ?_ } hp⟩
    · intro hx
      exact (hl hx).imp_right fun hx => by simp [hr] at hx
    · exact fun hx => absurd hx he.right
  case otherChild    => exact ⟨_, rfl, Monitored.inv { h with sigchld := fun _ => rfl } hp⟩
  case signal        => exact ⟨_, rfl, h.onSignal hp⟩
  case timeout fails => exact ⟨_, rfl, (h.onTimeout hp (ht hp)).inv (killChild_childPid.trans hp)⟩
  case kill fails    => exact ⟨_, rfl, (h.kill hp ht).inv (killChild_childPid.trans hp)⟩
  case poll fails    =>
    simp only [enabled, InTime] at he ht
    simp only [Command.step, Command.poll]
    split
    case h_1 hl      => exact absurd hl he
    case h_2 l hl    => exact ⟨_, rfl, (h.poll hl (ht (by simp [hl]))).inv (killChild_childPid.trans hp)⟩
    case h_3 es l hl => simpa using (h.posted (.complete es) (by simp [hl])).left

theorem Collected.step (h : s.Collected) (hp : s.childPid = false) {a} (he : s.enabled a) :
    ∃ s', s.step a = .ok s' ∧ s'.Inv := by
  cases a
  case terminate c   => exact absurd he.left h.child
  case otherChild    => exact ⟨_, rfl, Collected.inv (h.same ⟨rfl, rfl, rfl, rfl, rfl, rfl, rfl⟩) hp⟩
  case signal        => exact absurd (h.signals.symm.trans he.right) (by decide)
  case timeout fails =>
    refine ⟨_, rfl, Collected.inv ?_ (killChild_childPid.trans hp)⟩
    simp only [Command.onTimeout]
    rw [killChild_of_not_childPid (by exact hp)]
    exact h.same ⟨rfl, rfl, rfl, rfl, rfl, rfl, by simp [h.child]⟩
  case kill fails =>
    refine ⟨_, rfl, Collected.inv ?_ (killChild_childPid.trans hp)⟩
    simp only [Command.kill]
    rw [killChild_of_not_childPid (by exact hp)]
    exact h.same ⟨rfl, rfl, rfl, rfl, rfl, by simp [hp], rfl⟩
  case poll fails =>
    obtain ⟨s', hs, hp', hc⟩ := h.poll hp
    exact ⟨s', hs, hc.inv hp'⟩

theorem inv_invariant : (machine.restrict InTime).Invariant Inv where
  init := by
    rintro s ⟨timeout, rfl⟩
    refine Monitored.inv ?_ rfl
    constructor <;> simp [started]
  step := by
    intro s a h he
    cases hp : s.childPid
    case true  => exact Monitored.step (by simpa [Inv, hp] using h) hp he.left he.right
    case false => exact Collected.step (by simpa [Inv, hp] using h) hp he.left

instance {s a} : Decidable (machine.enabled s a) :=
  inferInstanceAs (Decidable (s.enabled a))

instance {s a} : Decidable ((machine.restrict InTime).enabled s a) :=
  inferInstanceAs (Decidable (s.enabled a ∧ s.InTime a))

end Command

end Yogi.Supervisor
