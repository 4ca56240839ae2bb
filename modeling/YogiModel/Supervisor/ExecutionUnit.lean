import Mathlib
import YogiModel.Supervisor.Command

namespace Yogi.Supervisor

-- What an execution unit sees of a command that it has started.
inductive Phase
  | running (killed timedOut : Bool)
  | posted (es : ExitStatus)
  | finished
  deriving DecidableEq

namespace Phase

-- If `fork` fails, the completion is posted at once.
def start (forks : Bool) : Phase :=
  if forks then running false false else posted .startupFailure

-- `Command::kill`
def kill : Phase → Phase
  | running _ timedOut => running true timedOut
  | p                  => p

def onTimeout : Phase → Phase
  | running _ _ => running true true
  | p           => p

-- The termination of the child is collected.
def exit (child : Child) : Phase → Phase
  | running killed timedOut => posted (exitStatus child timedOut killed)
  | p                       => p

def isRunning : Phase → Bool
  | running _ _ => true
  | _           => false

def isPosted : Phase → Bool
  | posted _ => true
  | _        => false

-- A process that was not asked to terminate.
def isUnasked : Phase → Bool
  | running killed _ => !killed
  | _                => false

-- The completion is not the one of a command that has been killed, or will not be.
def restarts : Phase → Bool
  | running killed timedOut => !killed || timedOut
  | posted es               => es ≠ .killed
  | finished                => false

variable {p : Phase} {child : Child}

theorem isPosted_iff : p.isPosted = true ↔ ∃ es, p = .posted es := by
  cases p <;> simp [isPosted]

instance : Decidable (∃ es, p = .posted es) :=
  decidable_of_iff _ isPosted_iff

theorem restarts_of_isUnasked (h : p.isUnasked = true) : p.restarts = true := by
  cases p
  case running k t => simp_all [isUnasked, restarts]
  case posted      => cases h
  case finished    => cases h

theorem restarts_start {forks : Bool} : (start forks).restarts = true := by
  cases forks <;> rfl

theorem exitStatus_killed_iff {t k : Bool} (hc : child ≠ .running) :
    exitStatus child t k = .killed ↔ (!k || t) = false := by
  simp only [exitStatus]
  grind

theorem restarts_exit (hc : child ≠ .running) : (p.exit child).restarts = p.restarts := by
  cases p
  case posted       => rfl
  case finished     => rfl
  case running k t =>
    have h := exitStatus_killed_iff (t := t) (k := k) hc
    simp only [exit, restarts]
    grind

theorem restarts_kill (h : p.isRunning = true ∨ p.restarts = false) (ht : ∀ k, p ≠ .running k true) :
    p.kill.restarts = false := by
  cases p
  case finished     => rfl
  case posted es    => simpa [kill, isRunning] using h
  case running k t  =>
    cases t
    case false => rfl
    case true  => exact absurd rfl (ht k)

end Phase

end Yogi.Supervisor
