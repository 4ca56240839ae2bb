import Mathlib
import YogiModel.Base.Machine
import YogiModel.Supervisor.ExecutionUnit

namespace Yogi.Supervisor

-- A command and the number of the file change from which it originates.
structure StartedCommand where
  phase  : Phase
  change : Nat
  deriving DecidableEq

-- The file change from which a restart after the command originates.
def StartedCommand.pending (c : StartedCommand) : Option Nat :=
  if c.phase.restarts then some c.change else none

structure Service where
  -- The restart delay is not infinite.
  restarts : Bool
  -- The startup command has finished and the files are watched.
  watching : Bool
  -- The newest command is `m_executionCommand`.
  commands : List StartedCommand
  -- `m_restartTimer` and its handlers that can be called as it has expired.
  timer    : Option Nat
  expired  : List Nat
  -- How often a watched file has changed.
  changes  : Nat
  deriving DecidableEq

namespace Service

variable {s s' : Service} {forks : Bool}

def initial (restarts : Bool) : Service where
  restarts := restarts
  watching := false
  commands := []
  timer    := none
  expired  := []
  changes  := 0

def runExecutionCommand (s : Service) (change : Nat) (forks : Bool) : Service :=
  { s with commands := ⟨.start forks, change⟩ :: s.commands }

def onStartupCommandFinishedSuccessfully (s : Service) (forks : Bool) : Service :=
  { s.runExecutionCommand s.changes forks with watching := true }

def onWatchedFileChanged (s : Service) (forks : Bool) : Service :=
  let s := { s with
    commands := s.commands.modifyHead fun c => { c with phase := c.phase.kill }
    changes  := s.changes + 1 }
  s.runExecutionCommand s.changes forks

-- A new expiry time cancels the wait for the previous one.
def startRestartTimer (s : Service) (change : Nat) : Service :=
  if s.restarts then { s with timer := some change } else s

def onExecutionCommandFinished (s : Service) (change : Nat) (es : ExitStatus) : Service :=
  if es = .killed then s else s.startRestartTimer change

def setPhase (s : Service) (i : Nat) (p : Phase) : Service :=
  { s with commands := s.commands.modify i fun c => { c with phase := p } }

inductive Action
  | startup (forks : Bool)
  | exit (i : Nat) (child : Child)
  | finished (i : Nat)
  | timerExpired
  | restartTimerTimedOut (forks : Bool)
  | watchedFileChanged (forks : Bool)
  deriving DecidableEq

def enabled (s : Service) : Action → Prop
  | .startup _              => s.watching = false
  | .exit i child           => child ≠ .running ∧ ∃ c ∈ s.commands[i]?, c.phase.isRunning = true
  | .finished i             => ∃ c ∈ s.commands[i]?, ∃ es, c.phase = .posted es
  | .timerExpired           => s.timer ≠ none
  | .restartTimerTimedOut _ => s.expired ≠ []
  | .watchedFileChanged _   => s.watching = true

instance {a : Action} : Decidable (s.enabled a) :=
  match a with
  | .startup _              => inferInstanceAs (Decidable (s.watching = false))
  | .exit i child           =>
    inferInstanceAs (Decidable (child ≠ .running ∧ ∃ c ∈ s.commands[i]?, c.phase.isRunning = true))
  | .finished i             => inferInstanceAs (Decidable (∃ c ∈ s.commands[i]?, ∃ es, c.phase = .posted es))
  | .timerExpired           => inferInstanceAs (Decidable (s.timer ≠ none))
  | .restartTimerTimedOut _ => inferInstanceAs (Decidable (s.expired ≠ []))
  | .watchedFileChanged _   => inferInstanceAs (Decidable (s.watching = true))

def act (s : Service) : Action → Service
  | .startup forks              => s.onStartupCommandFinishedSuccessfully forks
  | .exit i child               =>
    match s.commands[i]? with
    | some c => s.setPhase i (c.phase.exit child)
    | none   => s
  | .finished i                 =>
    match s.commands[i]? with
    | some ⟨.posted es, change⟩ => (s.setPhase i .finished).onExecutionCommandFinished change es
    | _                         => s
  | .timerExpired               => { s with timer := none, expired := s.expired ++ s.timer.toList }
  | .restartTimerTimedOut forks =>
    match s.expired with
    | change :: l => { s with expired := l }.runExecutionCommand change forks
    | []          => s
  | .watchedFileChanged forks   => s.onWatchedFileChanged forks

def machine : Machine Service Action Empty where
  init    := fun s => ∃ restarts, s = initial restarts
  enabled := enabled
  step    := fun s a => .ok (s.act a)

-- The file changes from which the restarts that are to be expected originate.
def pending (s : Service) : List Nat :=
  s.commands.filterMap StartedCommand.pending ++ s.timer.toList ++ s.expired

-- There is at most one process and no restart that was started before the last file change.
structure Single (s : Service) : Prop where
  one   : s.commands.countP (·.phase.isUnasked) ≤ 1
  fresh : ∀ change ∈ s.pending, change = s.changes

-- The condition under which the code works: no watched file changes while the restart timer runs or the
-- completion of a command that has not been killed is posted.
def InTime (s : Service) : Action → Prop
  | .watchedFileChanged _ => s.timer = none ∧ s.expired = [] ∧
    ∀ c ∈ s.commands, c.phase.restarts = true → c.phase.isRunning = true
  | _                     => True

instance {a : Action} : Decidable (s.InTime a) :=
  match a with
  | .watchedFileChanged _ => inferInstanceAs (Decidable (s.timer = none ∧ s.expired = [] ∧
    ∀ c ∈ s.commands, c.phase.restarts = true → c.phase.isRunning = true))
  | .startup _ | .exit _ _ | .finished _ | .timerExpired | .restartTimerTimedOut _ => isTrue trivial

instance {s a} : Decidable (machine.enabled s a) :=
  inferInstanceAs (Decidable (s.enabled a))

instance {s a} : Decidable ((machine.restrict InTime).enabled s a) :=
  inferInstanceAs (Decidable (s.enabled a ∧ s.InTime a))

structure Inv (s : Service) : Prop where
  idle   : s.watching = false → s.commands = [] ∧ s.timer = none ∧ s.expired = []
  one    : s.pending.length ≤ 1
  fresh  : ∀ change ∈ s.pending, change = s.changes
  older  : s.commands.tail.filterMap StartedCommand.pending = []
  timely : ∀ c ∈ s.commands, ∀ k, c.phase ≠ .running k true

theorem pending_eq_none {c : StartedCommand} : c.pending = none ↔ c.phase.restarts = false := by
  simp [StartedCommand.pending]

theorem countP_unasked_le {l : List StartedCommand} :
    l.countP (·.phase.isUnasked) ≤ (l.filterMap StartedCommand.pending).length := by
  induction l
  case nil => exact Nat.le_refl _
  case cons c l ih =>
    rw [List.countP_cons, List.filterMap_cons]
    cases hp : c.pending
    case some => simp only [List.length_cons]; split <;> omega
    case none =>
      have hu : ¬c.phase.isUnasked = true := fun hu => by
        simpa [Phase.restarts_of_isUnasked hu] using pending_eq_none.mp hp
      simpa [hu] using ih

theorem Inv.single (h : s.Inv) : s.Single where
  one   := by
    have hc := h.one
    have hm := countP_unasked_le (l := s.commands)
    simp only [pending, List.length_append] at hc
    omega
  fresh := h.fresh

theorem filterMap_modify {cs : List StartedCommand} {i : Nat} {p : Phase}
    (hp : ∀ c ∈ cs[i]?, p.restarts = c.phase.restarts) :
    (cs.modify i fun c => { c with phase := p }).filterMap StartedCommand.pending =
      cs.filterMap StartedCommand.pending := by
  induction cs generalizing i
  case nil => simp
  case cons c cs ih =>
    cases i
    case zero   =>
      have hc : p.restarts = c.phase.restarts := hp c rfl
      simp [List.filterMap_cons, StartedCommand.pending, hc]
    case succ i => simpa [List.filterMap_cons] using by rw [ih hp]

theorem mem_modify {cs : List StartedCommand} {i : Nat} {p : Phase} {c : StartedCommand}
    (h : c ∈ cs.modify i fun c => { c with phase := p }) : c ∈ cs ∨ c.phase = p := by
  induction cs generalizing i
  case nil => simp at h
  case cons d cs ih =>
    cases i
    case zero =>
      simp only [List.modify_zero_cons, List.mem_cons] at h
      obtain rfl | h := h
      · exact .inr rfl
      · exact .inl (List.mem_cons_of_mem _ h)
    case succ i =>
      simp only [List.modify_succ_cons, List.mem_cons] at h
      obtain rfl | h := h
      · exact .inl List.mem_cons_self
      · exact (ih h).imp_left (List.mem_cons_of_mem _)

theorem Inv.setPhase (h : s.Inv) {i p} (hw : s.watching = true)
    (hp : ∀ c ∈ s.commands[i]?, p.restarts = c.phase.restarts)
    (ht : ∀ k, p ≠ .running k true) : (s.setPhase i p).Inv where
  idle   := fun hn => by simp [Service.setPhase, hw] at hn
  one    := by
    simp only [pending, Service.setPhase, filterMap_modify hp]
    exact h.one
  fresh  := by
    simp only [pending, Service.setPhase, filterMap_modify hp]
    exact h.fresh
  older  := by
    have ho := h.older
    simp only [Service.setPhase]
    cases hc : s.commands
    case nil       => simp
    case cons c cs =>
      rw [hc] at ho hp
      cases i
      case zero   => exact ho
      case succ i =>
        rw [List.modify_succ_cons, List.tail_cons, filterMap_modify (by simpa using hp)]
        exact ho
  timely := by
    intro c hc k
    cases mem_modify hc
    case inl hm => exact h.timely c hm k
    case inr hm => exact hm ▸ ht k

-- The restarts after the newest command and the timer.
theorem pending_eq {c cs} (hc : s.commands = c :: cs) (ho : s.commands.tail.filterMap StartedCommand.pending = []) :
    s.pending = c.pending.toList ++ s.timer.toList ++ s.expired := by
  rw [hc, List.tail_cons] at ho
  rw [pending, hc, List.filterMap_cons, ho]
  cases c.pending <;> rfl

theorem inv_of_newest {c cs} (hw : s.watching = true) (hc : s.commands = c :: cs)
    (ho : cs.filterMap StartedCommand.pending = [])
    (hp : c.pending.toList ++ s.timer.toList ++ s.expired = [] ∨
      c.pending.toList ++ s.timer.toList ++ s.expired = [s.changes])
    (ht : ∀ c ∈ s.commands, ∀ k, c.phase ≠ .running k true) : s.Inv := by
  have ho : s.commands.tail.filterMap StartedCommand.pending = [] := by simpa [hc] using ho
  rw [← pending_eq hc ho] at hp
  exact ⟨fun hn => absurd (hw.symm.trans hn) (by decide), by obtain hp | hp := hp <;> simp [hp],
    by obtain hp | hp := hp <;> simp [hp], ho, ht⟩

-- Only the newest command causes a restart.
theorem Inv.newest (h : s.Inv) {i : Nat} {c} (hc : s.commands[i]? = some c) (hp : c.phase.restarts = true) :
    i = 0 ∧ ∃ cs, s.commands = c :: cs ∧ cs.filterMap StartedCommand.pending = [] ∧
      s.timer = none ∧ s.expired = [] ∧ c.change = s.changes := by
  have ho := h.older
  cases hcs : s.commands
  case nil => simp [hcs] at hc
  case cons d cs =>
    rw [hcs] at hc ho
    cases i
    case zero =>
      cases hc
      have hpe : s.pending = c.change :: (s.timer.toList ++ s.expired) := by
        rw [pending_eq hcs h.older]
        simp [StartedCommand.pending, hp]
      obtain ⟨ht, he⟩ : s.timer = none ∧ s.expired = [] := by simpa [hpe] using h.one
      exact ⟨rfl, cs, rfl, ho, ht, he, h.fresh c.change (by simp [hpe])⟩
    case succ i =>
      rw [List.getElem?_cons_succ] at hc
      have hn := pending_eq_none.mp (List.filterMap_eq_nil_iff.mp ho _ (List.mem_of_getElem? hc))
      cases hp.symm.trans hn

theorem Inv.onExecutionCommandFinished (h : s.Inv) {i es change} (hw : s.watching = true)
    (hc : s.commands[i]? = some ⟨.posted es, change⟩) :
    ((s.setPhase i .finished).onExecutionCommandFinished change es).Inv := by
  simp only [Service.onExecutionCommandFinished]
  split
  case isTrue hk =>
    refine h.setPhase hw (fun c' hc' => ?_) (by simp)
    cases hc.symm.trans hc'
    simp [Phase.restarts, hk]
  case isFalse hk =>
    obtain ⟨rfl, cs, hcs, ho, ht, he, hf⟩ := h.newest hc (by simp [Phase.restarts, hk])
    have hn : (s.setPhase 0 .finished).commands = ⟨.finished, change⟩ :: cs := by simp [Service.setPhase, hcs]
    have hd : StartedCommand.pending ⟨.finished, change⟩ = none := rfl
    have hm : ∀ c ∈ (s.setPhase 0 .finished).commands, ∀ k, c.phase ≠ .running k true := by
      intro c hc k
      cases mem_modify hc
      case inl hc => exact h.timely c hc k
      case inr hc => simp [hc]
    simp only [startRestartTimer]
    split
    case isTrue  => exact inv_of_newest hw hn ho (.inr (by simpa [Service.setPhase, he, hd] using hf)) hm
    case isFalse => exact inv_of_newest hw hn ho (.inl (by simp [Service.setPhase, he, ht, hd])) hm

theorem inv_runExecutionCommand (hw : s.watching = true)
    (ho : s.commands.filterMap StartedCommand.pending = []) (ht : s.timer = none) (he : s.expired = [])
    (hm : ∀ c ∈ s.commands, ∀ k, c.phase ≠ .running k true) :
    (s.runExecutionCommand s.changes forks).Inv := by
  refine inv_of_newest hw rfl ho (.inr ?_) ?_
  · simp [runExecutionCommand, ht, he, StartedCommand.pending, Phase.restarts_start]
  · intro c hc k
    cases List.mem_cons.mp hc
    case inl hc => cases forks <;> simp [hc, Phase.start]
    case inr hc => exact hm c hc k

theorem Inv.restartTimerTimedOut (h : s.Inv) {change l} (he : s.expired = change :: l) :
    ({ s with expired := l }.runExecutionCommand change forks).Inv := by
  have hl := h.one
  simp only [pending, he, List.length_append, List.length_cons] at hl
  have hc : s.commands.filterMap StartedCommand.pending = [] := List.eq_nil_of_length_eq_zero (by omega)
  have ht : s.timer = none := by cases ht : s.timer <;> simp_all
  have hw : s.watching = true := by
    cases hw : s.watching
    case true  => rfl
    case false => simp [(h.idle hw).right.right] at he
  have hn : l = [] := List.eq_nil_of_length_eq_zero (by omega)
  obtain rfl : change = s.changes := h.fresh change (by simp [pending, he])
  exact inv_runExecutionCommand (s := { s with expired := l }) hw hc ht hn h.timely

theorem Inv.onWatchedFileChanged (h : s.Inv) (hw : s.watching = true) (ht : s.InTime (.watchedFileChanged forks)) :
    (s.onWatchedFileChanged forks).Inv := by
  obtain ⟨ht, he, hr⟩ := ht
  refine inv_runExecutionCommand (s := { s with commands := _, changes := s.changes + 1 }) hw ?_ ht he ?_
  · have ho := h.older
    cases hc : s.commands
    case nil       => rfl
    case cons c cs =>
      rw [hc] at ho
      have hk : c.phase.kill.restarts = false := by
        refine Phase.restarts_kill ?_ (h.timely c (by simp [hc]))
        have := hr c (by simp [hc])
        cases hp : c.phase.restarts
        case true  => exact .inl (this hp)
        case false => exact .inr rfl
      simpa [List.filterMap_cons, StartedCommand.pending, hk] using ho
  · intro c hc k
    cases hcs : s.commands
    case nil        => simp [hcs] at hc
    case cons c' cs =>
      have hm := h.timely
      rw [hcs] at hc hm
      cases List.mem_cons.mp hc
      case inl hc =>
        have := hm c' List.mem_cons_self
        cases hp : c'.phase <;> simp_all [Phase.kill]
      case inr hc => exact hm c (List.mem_cons_of_mem _ hc) k

theorem Inv.onStartupCommandFinishedSuccessfully (h : s.Inv) (hw : s.watching = false) :
    (s.onStartupCommandFinishedSuccessfully forks).Inv := by
  obtain ⟨hc, ht, he⟩ := h.idle hw
  exact inv_runExecutionCommand (s := { s with watching := true }) rfl (by simp [hc]) ht he (by simp [hc])

theorem Inv.act (h : s.Inv) {a} (he : s.enabled a) (ht : s.InTime a) : (s.act a).Inv := by
  have hw {c : StartedCommand} {i : Nat} (hc : s.commands[i]? = some c) : s.watching = true := by
    cases hw : s.watching
    case true  => rfl
    case false => simp [(h.idle hw).left] at hc
  cases a
  case startup forks => exact h.onStartupCommandFinishedSuccessfully he
  case exit i child =>
    obtain ⟨hr, c, hc, hp⟩ := he
    simp only [Service.act, Option.mem_def.mp hc]
    refine h.setPhase (hw hc) (fun c' hc' => ?_) fun k => ?_
    · cases (Option.mem_def.mp hc).symm.trans hc'
      exact Phase.restarts_exit hr
    · cases hph : c.phase <;> simp_all [Phase.exit, Phase.isRunning]
  case finished i =>
    obtain ⟨c, hc, es, hp⟩ := he
    obtain ⟨ph, change⟩ := c
    obtain rfl : ph = .posted es := hp
    simp only [Service.act, Option.mem_def.mp hc]
    exact h.onExecutionCommandFinished (hw hc) hc
  case timerExpired =>
    have hp : pending { s with timer := none, expired := s.expired ++ s.timer.toList } =
        s.commands.filterMap StartedCommand.pending ++ (s.expired ++ s.timer.toList) := by
      simp [pending]
    have hperm : (pending { s with timer := none, expired := s.expired ++ s.timer.toList }).Perm s.pending := by
      rw [hp, pending, List.append_assoc]
      exact List.perm_append_comm.append_left _
    refine ⟨fun hn => ?_, hperm.length_eq ▸ h.one,
      fun change hm => h.fresh change (hperm.mem_iff.mp hm), h.older, h.timely⟩
    obtain ⟨hc, ht, he⟩ := h.idle hn
    exact ⟨hc, rfl, by simp [Service.act, ht, he]⟩
  case restartTimerTimedOut forks =>
    simp only [Service.act]
    split
    case h_1 change l hl => exact h.restartTimerTimedOut hl
    case h_2             => exact h
  case watchedFileChanged forks => exact h.onWatchedFileChanged he ht

theorem inv_of_reachable (h : (machine.restrict InTime).Reachable s) : s.Inv := by
  refine h.preserves ?_ ?_
  · rintro s ⟨restarts, rfl⟩
    constructor <;> simp [initial, pending]
  · rintro s a s' hi he hs
    cases hs
    exact hi.act he.left he.right

end Service

end Yogi.Supervisor
