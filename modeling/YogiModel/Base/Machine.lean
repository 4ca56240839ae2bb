import Mathlib

-- A system whose steps are caused by actions and may fail.
structure Machine (σ α ε : Type) where
  init    : σ → Prop
  enabled : σ → α → Prop
  step    : σ → α → Except ε σ

namespace Machine

variable {σ σ' α α' ε ε' : Type} {M : Machine σ α ε} {N : Machine σ' α' ε'}

inductive Reachable (M : Machine σ α ε) : σ → Prop
  | init {s} (h : M.init s) : Reachable M s
  | step {s a s'} (h : Reachable M s) (he : M.enabled s a) (hs : M.step s a = .ok s') : Reachable M s'

-- No enabled action fails.
structure Invariant (M : Machine σ α ε) (I : σ → Prop) : Prop where
  init : ∀ {s}, M.init s → I s
  step : ∀ {s a}, I s → M.enabled s a → ∃ s', M.step s a = .ok s' ∧ I s'

theorem Invariant.reachable {I : σ → Prop} (h : M.Invariant I) {s} (hr : M.Reachable s) : I s := by
  induction hr
  case init hi       => exact h.init hi
  case step he hs ih =>
    obtain ⟨s', hs', hi⟩ := h.step ih he
    cases hs.symm.trans hs'
    exact hi

theorem Invariant.safe {I : σ → Prop} (h : M.Invariant I) {s a} (hr : M.Reachable s)
    (he : M.enabled s a) : ∃ s', M.step s a = .ok s' := by
  obtain ⟨s', hs, _⟩ := h.step (h.reachable hr) he
  exact ⟨s', hs⟩

-- An invariant of the steps that do not fail.
theorem Reachable.preserves {I : σ → Prop} {s} (h : M.Reachable s) (hi : ∀ s, M.init s → I s)
    (hs : ∀ s a s', I s → M.enabled s a → M.step s a = .ok s' → I s') : I s := by
  induction h
  case init h           => exact hi _ h
  case step he hstep ih => exact hs _ _ _ ih he hstep

-- The part of a system with only those steps that meet a condition.
def restrict (M : Machine σ α ε) (P : σ → α → Prop) : Machine σ α ε where
  init    := M.init
  enabled := fun s a => M.enabled s a ∧ P s a
  step    := M.step

theorem Reachable.of_restrict {P : σ → α → Prop} {s} (h : (M.restrict P).Reachable s) :
    M.Reachable s := by
  induction h
  case init hi       => exact .init hi
  case step he hs ih => exact .step ih he.left hs

-- Every step of `M` is a number of steps of `N` as far as `f` shows it.
theorem Reachable.project {f : σ → σ'} {s} (h : M.Reachable s)
    (hi : ∀ {s}, M.init s → N.Reachable (f s))
    (hs : ∀ {s a s'}, N.Reachable (f s) → M.enabled s a → M.step s a = .ok s' → N.Reachable (f s')) :
    N.Reachable (f s) := by
  induction h
  case init h           => exact hi h
  case step he hstep ih => exact hs ih he hstep

-- Performs actions if they are enabled.
def run (M : Machine σ α ε) [∀ s a, Decidable (M.enabled s a)] : σ → List α → Option σ
  | s, []      => some s
  | s, a :: as =>
    if M.enabled s a then
      match M.step s a with
      | .ok s'   => M.run s' as
      | .error _ => none
    else
      none

theorem Reachable.of_run [∀ s a, Decidable (M.enabled s a)] {s s' as} (h : M.Reachable s)
    (hr : M.run s as = some s') : M.Reachable s' := by
  induction as generalizing s
  case nil =>
    cases hr
    exact h
  case cons a as ih =>
    simp only [run] at hr
    split at hr
    case isFalse   => cases hr
    case isTrue he =>
      split at hr
      case h_1 hs => exact ih (h.step he hs) hr
      case h_2    => cases hr

end Machine
