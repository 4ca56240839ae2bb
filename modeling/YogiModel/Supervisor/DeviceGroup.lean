import Mathlib
import YogiModel.Supervisor.Service

namespace Yogi.Supervisor

inductive CommandKind
  | validation
  | preExecution
  | execution
  deriving DecidableEq

variable {δ : Type}

-- A command for a device, whether it is one of the `m_activeCommands` and the number of the file change from
-- which it originates.
structure DeviceCommand (δ : Type) where
  device : δ
  kind   : CommandKind
  phase  : Phase
  active : Bool
  change : Nat
  deriving DecidableEq

-- A restart timer that runs and whether it is one of the `m_activeTimers`.
structure DeviceTimer (δ : Type) where
  device : δ
  active : Bool
  change : Nat
  deriving DecidableEq

structure DeviceGroup (δ : Type) where
  -- The commands that are set and whether the restart delay is not infinite.
  validation   : Bool
  preExecution : Bool
  restarts     : Bool
  -- The startup command has finished and the files are watched.
  watching     : Bool
  commands     : List (DeviceCommand δ)
  timers       : List (DeviceTimer δ)
  -- How often a watched file has changed.
  changes      : Nat
  deriving DecidableEq

namespace DeviceGroup

variable {s s' : DeviceGroup δ} {d : δ} {change : Nat} {forks : Bool}

def initial (validation preExecution restarts : Bool) : DeviceGroup δ where
  validation   := validation
  preExecution := preExecution
  restarts     := restarts
  watching     := false
  commands     := []
  timers       := []
  changes      := 0

def runCommand (s : DeviceGroup δ) (kind : CommandKind) (d : δ) (change : Nat) (forks : Bool) : DeviceGroup δ :=
  { s with commands := ⟨d, kind, .start forks, true, change⟩ :: s.commands }

def runExecutionCommand (s : DeviceGroup δ) (d : δ) (change : Nat) (forks : Bool) : DeviceGroup δ :=
  s.runCommand .execution d change forks

-- A command that is not set succeeds at once.
def runPreExecutionCommand (s : DeviceGroup δ) (d : δ) (change : Nat) (forks : Bool) : DeviceGroup δ :=
  if s.preExecution then s.runCommand .preExecution d change forks else s.runExecutionCommand d change forks

def runValidationCommand (s : DeviceGroup δ) (d : δ) (change : Nat) (forks : Bool) : DeviceGroup δ :=
  if s.validation then s.runCommand .validation d change forks else s.runPreExecutionCommand d change forks

-- The timer is not inserted into `m_activeTimers`.
def startRestartTimer (s : DeviceGroup δ) (d : δ) (change : Nat) : DeviceGroup δ :=
  if s.restarts then { s with timers := ⟨d, false, change⟩ :: s.timers } else s

-- The completion handlers. The device's file may have been removed.
def onCommandFinished (s : DeviceGroup δ) (kind : CommandKind) (d : δ) (change : Nat) (es : ExitStatus)
    (forks present : Bool) : DeviceGroup δ :=
  match kind with
  | .validation   => if es = .success then s.runPreExecutionCommand d change forks else s
  | .preExecution =>
    if es = .killed then s
    else if es = .success then s.runExecutionCommand d change forks
    else s.startRestartTimer d change
  | .execution    =>
    if es = .killed then s
    else if present then s.startRestartTimer d change
    else s

def killActiveCommands (s : DeviceGroup δ) : DeviceGroup δ :=
  { s with commands := s.commands.map fun c =>
    if c.active then { c with phase := c.phase.kill, active := false } else c }

def killActiveTimers (s : DeviceGroup δ) : DeviceGroup δ :=
  { s with timers := s.timers.filter fun t => !t.active }

def onStartupCommandFinishedSuccessfully (s : DeviceGroup δ) (files : List (δ × Bool)) : DeviceGroup δ :=
  files.foldl (fun s f => s.runValidationCommand f.fst s.changes f.snd) { s with watching := true }

def onWatchedFileChanged (s : DeviceGroup δ) (files : List (δ × Bool)) : DeviceGroup δ :=
  let s := { s.killActiveCommands.killActiveTimers with changes := s.changes + 1 }
  files.foldl (fun s f => s.runPreExecutionCommand f.fst s.changes f.snd) s

def modifyCommand (s : DeviceGroup δ) (i : Nat) (f : DeviceCommand δ → DeviceCommand δ) : DeviceGroup δ :=
  { s with commands := s.commands.modify i f }

-- The completion handler erases the command.
def finish (c : DeviceCommand δ) : DeviceCommand δ :=
  { c with phase := .finished, active := false }

inductive Action (δ : Type)
  | startup (files : List (δ × Bool))
  | deviceCreated (d : δ) (forks : Bool)
  | exit (i : Nat) (child : Child)
  | timeout (i : Nat)
  | finished (i : Nat) (forks present : Bool)
  | restartTimerTimedOut (i : Nat) (forks : Bool)
  | watchedFileChanged (files : List (δ × Bool))
  deriving DecidableEq

-- The files of a directory are distinct. Only the execution command has no timeout.
def enabled (s : DeviceGroup δ) : Action δ → Prop
  | .startup files            => s.watching = false ∧ (files.map Prod.fst).Nodup
  | .deviceCreated _ _        => s.watching = true
  | .exit i child             => child ≠ .running ∧ ∃ c ∈ s.commands[i]?, c.phase.isRunning = true
  | .timeout i                => ∃ c ∈ s.commands[i]?, c.phase.isRunning = true ∧ c.kind ≠ .execution
  | .finished i _ _           => ∃ c ∈ s.commands[i]?, ∃ es, c.phase = .posted es
  | .restartTimerTimedOut i _ => i < s.timers.length
  | .watchedFileChanged files => s.watching = true ∧ (files.map Prod.fst).Nodup

instance [DecidableEq δ] {a : Action δ} : Decidable (s.enabled a) :=
  match a with
  | .startup files            => inferInstanceAs (Decidable (s.watching = false ∧ (files.map Prod.fst).Nodup))
  | .deviceCreated _ _        => inferInstanceAs (Decidable (s.watching = true))
  | .exit i child             =>
    inferInstanceAs (Decidable (child ≠ .running ∧ ∃ c ∈ s.commands[i]?, c.phase.isRunning = true))
  | .timeout i                => inferInstanceAs (Decidable
    (∃ c ∈ s.commands[i]?, c.phase.isRunning = true ∧ c.kind ≠ .execution))
  | .finished i _ _           => inferInstanceAs (Decidable (∃ c ∈ s.commands[i]?, ∃ es, c.phase = .posted es))
  | .restartTimerTimedOut i _ => inferInstanceAs (Decidable (i < s.timers.length))
  | .watchedFileChanged files => inferInstanceAs (Decidable (s.watching = true ∧ (files.map Prod.fst).Nodup))

def act (s : DeviceGroup δ) : Action δ → DeviceGroup δ
  | .startup files                => s.onStartupCommandFinishedSuccessfully files
  | .deviceCreated d forks        => s.runValidationCommand d s.changes forks
  | .exit i child                 => s.modifyCommand i fun c => { c with phase := c.phase.exit child }
  | .timeout i                    => s.modifyCommand i fun c => { c with phase := c.phase.onTimeout }
  | .finished i forks present     =>
    match s.commands[i]? with
    | some ⟨d, kind, .posted es, _, change⟩ =>
      (s.modifyCommand i finish).onCommandFinished kind d change es forks present
    | _                                     => s
  | .restartTimerTimedOut i forks =>
    match s.timers[i]? with
    | some t => { s with timers := s.timers.eraseIdx i }.runPreExecutionCommand t.device t.change forks
    | none   => s
  | .watchedFileChanged files     => s.onWatchedFileChanged files

def machine : Machine (DeviceGroup δ) (Action δ) Empty where
  init    := fun s => ∃ validation preExecution restarts, s = initial validation preExecution restarts
  enabled := enabled
  step    := fun s a => .ok (s.act a)

end DeviceGroup

-- Whether another command may be started after the command has finished.
def DeviceCommand.continues (c : DeviceCommand δ) : Bool :=
  match c.phase, c.kind with
  | .posted es, .validation => es = .success
  | p, _                    => p.restarts

def DeviceCommand.pending (c : DeviceCommand δ) : Option (δ × Nat) :=
  if c.continues then some (c.device, c.change) else none

namespace DeviceGroup

variable {s s' : DeviceGroup δ} {d : δ} {change : Nat} {forks : Bool}

-- The devices for which commands are to be expected with the file changes from which they originate.
def pending (s : DeviceGroup δ) : List (δ × Nat) :=
  s.commands.filterMap DeviceCommand.pending ++ s.timers.map fun t => (t.device, t.change)

-- For each device there is at most one process and no restart that was started before the last file change.
structure Single [DecidableEq δ] (s : DeviceGroup δ) : Prop where
  one   : ∀ d, s.commands.countP (fun c => c.device = d ∧ c.kind ≠ .validation ∧ c.phase.isUnasked = true) ≤ 1
  fresh : ∀ p ∈ s.pending, p.snd = s.changes

-- The conditions under which the code works: a device is not created while something is going on for it, the
-- timeout of a command that has been killed does not expire, and no watched file changes while a restart timer
-- runs, a completion after which another command will be started is posted or a command has timed out.
def InTime (s : DeviceGroup δ) : Action δ → Prop
  | .deviceCreated d _    => d ∉ s.pending.map Prod.fst
  | .timeout i            => ∀ c ∈ s.commands[i]?, c.phase ≠ .running true false
  | .watchedFileChanged _ => s.timers = [] ∧ ∀ c ∈ s.commands, c.continues = true → c.phase = .running false false
  | _                     => True

instance [DecidableEq δ] {a : Action δ} : Decidable (s.InTime a) :=
  match a with
  | .deviceCreated d _    => inferInstanceAs (Decidable (d ∉ s.pending.map Prod.fst))
  | .timeout i            => inferInstanceAs (Decidable (∀ c ∈ s.commands[i]?, c.phase ≠ .running true false))
  | .watchedFileChanged _ => inferInstanceAs (Decidable
    (s.timers = [] ∧ ∀ c ∈ s.commands, c.continues = true → c.phase = .running false false))
  | .startup _ | .exit _ _ | .finished _ _ _ | .restartTimerTimedOut _ _ => isTrue trivial

instance [DecidableEq δ] {s : DeviceGroup δ} {a} : Decidable (machine.enabled s a) :=
  inferInstanceAs (Decidable (s.enabled a))

instance [DecidableEq δ] {s : DeviceGroup δ} {a} : Decidable ((machine.restrict InTime).enabled s a) :=
  inferInstanceAs (Decidable (s.enabled a ∧ s.InTime a))

structure Inv (s : DeviceGroup δ) : Prop where
  idle   : s.watching = false → s.pending = []
  nodup  : (s.pending.map Prod.fst).Nodup
  fresh  : ∀ p ∈ s.pending, p.snd = s.changes
  active : ∀ c ∈ s.commands, c.phase.isRunning = true → c.continues = true → c.active = true

theorem continues_of_isUnasked {c : DeviceCommand δ} (h : c.phase.isUnasked = true) : c.continues = true := by
  have hr := Phase.restarts_of_isUnasked h
  simp only [DeviceCommand.continues]
  split
  case h_1 hp _ => simp [hp, Phase.isUnasked] at h
  case h_2    => exact hr

theorem countP_le_count [DecidableEq δ] {l : List (DeviceCommand δ)} :
    l.countP (fun c => c.device = d ∧ c.kind ≠ .validation ∧ c.phase.isUnasked = true) ≤
      ((l.filterMap DeviceCommand.pending).map Prod.fst).count d := by
  induction l
  case nil => exact Nat.le_refl _
  case cons c l ih =>
    rw [List.countP_cons, List.filterMap_cons]
    cases hc : c.continues
    case true =>
      simp only [DeviceCommand.pending, hc, if_true, List.map_cons, List.count_cons]
      by_cases hd : c.device = d
      · simp only [hd, true_and, beq_self_eq_true, if_true]
        split <;> omega
      · simpa [hd] using ih
    case false =>
      have hu : ¬c.phase.isUnasked = true := fun hu => by simp [continues_of_isUnasked hu] at hc
      simpa [DeviceCommand.pending, hc, hu] using ih

theorem Inv.single [DecidableEq δ] (h : s.Inv) : s.Single where
  one   := by
    intro d
    have hn := List.nodup_iff_count_le_one.mp h.nodup d
    have hc := countP_le_count (l := s.commands) (d := d)
    simp only [pending, List.map_append, List.count_append] at hn
    omega
  fresh := h.fresh

-- Less may be expected.
theorem Inv.shrinks (h : s.Inv) (hp : s'.pending.Sublist s.pending) (hc : s'.changes = s.changes)
    (hw : s'.watching = s.watching)
    (ha : ∀ c ∈ s'.commands, c.phase.isRunning = true → c.continues = true → c.active = true) : s'.Inv where
  idle   := fun hn => List.sublist_nil.mp (h.idle (hw ▸ hn) ▸ hp)
  nodup  := (hp.map _).nodup h.nodup
  fresh  := fun p hm => hc ▸ h.fresh p (hp.subset hm)
  active := ha

-- One more command or timer for a device for which there is none.
theorem Inv.grows (h : s.Inv) (hw : s'.watching = true) (hp : s'.pending.Perm ((d, change) :: s.pending))
    (hd : d ∉ s.pending.map Prod.fst) (hx : change = s.changes) (hc : s'.changes = s.changes)
    (ha : ∀ c ∈ s'.commands, c.phase.isRunning = true → c.continues = true → c.active = true) : s'.Inv where
  idle   := fun hn => absurd (hw.symm.trans hn) (by decide)
  nodup  := ((hp.map _).nodup_iff).mpr (List.nodup_cons.mpr ⟨hd, h.nodup⟩)
  fresh  := by
    intro p hm
    cases List.mem_cons.mp (hp.mem_iff.mp hm)
    case inl he => simp [he, hx, hc]
    case inr hm => exact hc ▸ h.fresh p hm
  active := ha

theorem filterMap_modify_sublist {cs : List (DeviceCommand δ)} {i : Nat} {f : DeviceCommand δ → DeviceCommand δ}
    (hf : ∀ c ∈ cs[i]?, (f c).pending = none ∨ (f c).pending = c.pending) :
    ((cs.modify i f).filterMap DeviceCommand.pending).Sublist (cs.filterMap DeviceCommand.pending) := by
  induction cs generalizing i
  case nil => simp
  case cons c cs ih =>
    cases i
    case zero =>
      simp only [List.modify_zero_cons, List.filterMap_cons]
      obtain hc | hc := hf c rfl
      · rw [hc]
        cases c.pending <;> simp
      · rw [hc]
    case succ i =>
      have hs := ih (i := i) (by simpa using hf)
      simp only [List.modify_succ_cons, List.filterMap_cons]
      cases c.pending
      case none   => exact hs
      case some p => exact hs.cons_cons p

theorem mem_modify {cs : List (DeviceCommand δ)} {i : Nat} {f : DeviceCommand δ → DeviceCommand δ}
    {c : DeviceCommand δ} (h : c ∈ cs.modify i f) : c ∈ cs ∨ ∃ c₀ ∈ cs[i]?, c = f c₀ := by
  obtain ⟨j, hj⟩ := List.mem_iff_getElem?.mp h
  rw [List.getElem?_modify] at hj
  split at hj
  case isTrue hi =>
    subst hi
    obtain ⟨c₀, hc, rfl⟩ := Option.map_eq_some_iff.mp hj
    exact .inr ⟨c₀, hc, rfl⟩
  case isFalse => exact .inl (List.mem_of_getElem? (by simpa using hj))

theorem Inv.modifyCommand (h : s.Inv) {i : Nat} {f : DeviceCommand δ → DeviceCommand δ}
    (hf : ∀ c ∈ s.commands[i]?, (f c).pending = none ∨ (f c).pending = c.pending)
    (ha : ∀ c ∈ s.commands[i]?, (f c).phase.isRunning = true → (f c).continues = true → (f c).active = true) :
    (s.modifyCommand i f).Inv := by
  refine h.shrinks ((filterMap_modify_sublist hf).append_right _) rfl rfl fun c hc => ?_
  obtain hm | ⟨c₀, hm, rfl⟩ := mem_modify hc
  · exact h.active c hm
  · exact ha c₀ hm

def Active (s : DeviceGroup δ) : Prop :=
  ∀ c ∈ s.commands, c.phase.isRunning = true → c.continues = true → c.active = true

-- At most one more command or timer, which is for the device.
structure Starts (s s' : DeviceGroup δ) (d : δ) (change : Nat) : Prop where
  pending  : s'.pending.Perm ((d, change) :: s.pending) ∨ s'.pending = s.pending
  watching : s'.watching = s.watching
  changes  : s'.changes = s.changes
  active   : s.Active → s'.Active

theorem starts_runCommand {kind} : s.Starts (s.runCommand kind d change forks) d change where
  pending  := by
    simp only [pending, runCommand, List.filterMap_cons]
    split
    case h_1 => exact .inr rfl
    case h_2 p hp =>
      simp only [DeviceCommand.pending] at hp
      split at hp
      case isTrue  => cases hp; exact .inl (.refl _)
      case isFalse => cases hp
  watching := rfl
  changes  := rfl
  active   := by
    intro h c hc
    cases List.mem_cons.mp hc
    case inl hc => simp [hc]
    case inr hc => exact h c hc

theorem starts_runPreExecutionCommand : s.Starts (s.runPreExecutionCommand d change forks) d change := by
  simp only [runPreExecutionCommand]
  split <;> exact starts_runCommand

theorem starts_runValidationCommand : s.Starts (s.runValidationCommand d change forks) d change := by
  simp only [runValidationCommand]
  split
  case isTrue  => exact starts_runCommand
  case isFalse => exact starts_runPreExecutionCommand

theorem starts_startRestartTimer : s.Starts (s.startRestartTimer d change) d change := by
  simp only [startRestartTimer]
  split
  case isFalse => exact ⟨.inr rfl, rfl, rfl, id⟩
  case isTrue  =>
    refine ⟨.inl ?_, rfl, rfl, id⟩
    simp only [pending, List.map_cons]
    exact List.perm_middle

theorem starts_onCommandFinished {kind es present} :
    s.Starts (s.onCommandFinished kind d change es forks present) d change := by
  have hs : s.Starts s d change := ⟨.inr rfl, rfl, rfl, id⟩
  cases kind <;> simp only [onCommandFinished]
  case validation   => split <;> first | exact starts_runPreExecutionCommand | exact hs
  case preExecution =>
    split
    · exact hs
    · split
      · exact starts_runCommand
      · exact starts_startRestartTimer
  case execution    =>
    split
    · exact hs
    · split
      · exact starts_startRestartTimer
      · exact hs

theorem Inv.starts (h : s.Inv) (hw : s.watching = true) (hs : s.Starts s' d change)
    (hd : d ∉ s.pending.map Prod.fst) (hx : change = s.changes) : s'.Inv := by
  obtain ⟨hp | hp, hw', hc, ha⟩ := hs
  · exact h.grows (hw' ▸ hw) hp hd hx hc (ha h.active)
  · exact h.shrinks (hp ▸ .refl _) hc hw' (ha h.active)

-- Commands for several devices.
theorem Inv.foldl {run : DeviceGroup δ → δ → Nat → Bool → DeviceGroup δ}
    (hr : ∀ s d change forks, Starts s (run s d change forks) d change) {files : List (δ × Bool)}
    (h : s.Inv) (hw : s.watching = true) (hn : (files.map Prod.fst).Nodup)
    (hd : ∀ d ∈ files.map Prod.fst, d ∉ s.pending.map Prod.fst) :
    (files.foldl (fun s f => run s f.fst s.changes f.snd) s).Inv := by
  induction files generalizing s
  case nil => exact h
  case cons f fs ih =>
    rw [List.map_cons, List.nodup_cons] at hn
    have hs := hr s f.fst s.changes f.snd
    have hi := h.starts hw hs (hd f.fst (by simp)) rfl
    refine ih hi (hs.watching ▸ hw) hn.right fun d hm => ?_
    have hne : d ≠ f.fst := fun he => hn.left (he ▸ hm)
    have hds := hd d (List.mem_cons_of_mem _ hm)
    obtain hp | hp := hs.pending
    · simp only [(hp.map _).mem_iff, List.map_cons, List.mem_cons, not_or]
      exact ⟨hne, hds⟩
    · exact hp ▸ hds

theorem Inv.startup (h : s.Inv) (hw : s.watching = false) {files : List (δ × Bool)}
    (hn : (files.map Prod.fst).Nodup) : (s.onStartupCommandFinishedSuccessfully files).Inv := by
  have hi : Inv { s with watching := true } := ⟨fun _ => h.idle hw, h.nodup, h.fresh, h.active⟩
  have hr (s : DeviceGroup δ) (d change forks) : s.Starts (s.runValidationCommand d change forks) d change :=
    starts_runValidationCommand
  refine hi.foldl hr rfl hn fun d _ hd => ?_
  simp only [show pending { s with watching := true } = [] from h.idle hw] at hd
  cases hd

theorem continues_kill {c : DeviceCommand δ} (h : c.continues = true → c.phase = .running false false) :
    DeviceCommand.continues { c with phase := c.phase.kill, active := false } = false := by
  simp only [DeviceCommand.continues] at h ⊢
  cases hp : c.phase <;> simp_all [Phase.kill, Phase.restarts]
  grind

theorem Inv.watchedFileChanged (h : s.Inv) (hw : s.watching = true) {files : List (δ × Bool)}
    (hn : (files.map Prod.fst).Nodup) (ht : s.timers = [])
    (hc : ∀ c ∈ s.commands, c.continues = true → c.phase = .running false false) :
    (s.onWatchedFileChanged files).Inv := by
  have hk : ∀ c ∈ s.killActiveCommands.commands, c.continues = false := by
    intro c hm
    obtain ⟨c₀, hc₀, rfl⟩ := List.mem_map.mp hm
    split
    case isTrue      => exact continues_kill (hc c₀ hc₀)
    case isFalse hna =>
      cases hx : c₀.continues
      case false => rfl
      case true  => exact absurd (h.active c₀ hc₀ (by rw [hc c₀ hc₀ hx]; rfl) hx) hna
  have hp : pending { s.killActiveCommands.killActiveTimers with changes := s.changes + 1 } = [] := by
    have hf : s.killActiveCommands.commands.filterMap DeviceCommand.pending = [] :=
      List.filterMap_eq_nil_iff.mpr fun c hm => by simp [DeviceCommand.pending, hk c hm]
    simpa [pending, killActiveTimers, killActiveCommands, ht] using hf
  have hi : Inv { s.killActiveCommands.killActiveTimers with changes := s.changes + 1 } := by
    refine ⟨fun _ => hp, by simp [hp], by simp [hp], fun c hm _ hx => ?_⟩
    simp [hk c hm] at hx
  have hr (s : DeviceGroup δ) (d change forks) : s.Starts (s.runPreExecutionCommand d change forks) d change :=
    starts_runPreExecutionCommand
  exact hi.foldl hr hw hn fun d _ hd => by simp [hp] at hd

theorem filterMap_finish {cs : List (DeviceCommand δ)} {i : Nat} {c : DeviceCommand δ} {p}
    (hc : cs[i]? = some c) (hp : c.pending = some p) :
    (cs.filterMap DeviceCommand.pending).Perm
      (p :: (cs.modify i finish).filterMap DeviceCommand.pending) := by
  induction cs generalizing i
  case nil => simp at hc
  case cons d ds ih =>
    cases i
    case zero =>
      cases hc
      have hf : (finish c).pending = none := rfl
      simp [hp, hf]
    case succ i =>
      have hs := ih (i := i) (by simpa using hc)
      simp only [List.modify_succ_cons, List.filterMap_cons]
      cases d.pending
      case none   => exact hs
      case some q => exact (hs.cons q).trans (.swap ..)

-- The command at a position has finished.
theorem pending_finish {i : Nat} {c : DeviceCommand δ} {p} (hc : s.commands[i]? = some c) (hp : c.pending = some p) :
    s.pending.Perm (p :: (s.modifyCommand i finish).pending) :=
  (filterMap_finish hc hp).append_right _

theorem pending_eraseTimer {i : Nat} {t : DeviceTimer δ} (ht : s.timers[i]? = some t) :
    s.pending.Perm ((t.device, t.change) :: pending { s with timers := s.timers.eraseIdx i }) := by
  obtain ⟨hi, rfl⟩ := List.getElem?_eq_some_iff.mp ht
  have hp := (List.getElem_cons_eraseIdx_perm hi).symm.map fun t => (t.device, t.change)
  exact (hp.append_left _).trans List.perm_middle

-- What is started instead of a command or timer.
theorem Inv.replaces {s₁ : DeviceGroup δ} (h : s.Inv) (hi : s₁.Inv) (hp : s.pending.Perm ((d, change) :: s₁.pending))
    (hw : s₁.watching = s.watching) (hc : s₁.changes = s.changes) (hs : s₁.Starts s' d change) : s'.Inv := by
  have hm : (d, change) ∈ s.pending := hp.mem_iff.mpr List.mem_cons_self
  have hn := (hp.map Prod.fst).nodup_iff.mp h.nodup
  have hw' : s.watching = true := by
    cases hw : s.watching
    case true  => rfl
    case false => simp [h.idle hw] at hm
  exact hi.starts (hw.trans hw') hs (List.nodup_cons.mp hn).left ((h.fresh _ hm).trans hc.symm)

theorem pending_of_continues {c c' : DeviceCommand δ} (hd : c'.device = c.device) (hx : c'.change = c.change)
    (hc : c'.continues = true → c.continues = true) : c'.pending = none ∨ c'.pending = c.pending := by
  simp only [DeviceCommand.pending, hd, hx]
  cases h : c'.continues
  case false => exact .inl rfl
  case true  => exact .inr (by simp [hc h])

theorem continues_exit {c : DeviceCommand δ} {child} (hr : child ≠ .running)
    (h : DeviceCommand.continues { c with phase := c.phase.exit child } = true) : c.continues = true := by
  have hs : (c.phase.exit child).restarts = c.phase.restarts := Phase.restarts_exit hr
  cases hp : c.phase
  case posted es    => simpa [DeviceCommand.continues, hp, Phase.exit] using h
  case finished     => simpa [DeviceCommand.continues, hp, Phase.exit] using h
  case running k t =>
    rw [hp] at hs
    have hx : c.continues = Phase.restarts (.running k t) := by simp [DeviceCommand.continues, hp]
    rw [hx, ← hs]
    simp only [DeviceCommand.continues, hp, Phase.exit] at h ⊢
    cases hk : c.kind <;> simp_all [Phase.restarts]

theorem Inv.exit (h : s.Inv) {i child} (hr : child ≠ .running) :
    (s.modifyCommand i fun c => { c with phase := c.phase.exit child }).Inv := by
  refine h.modifyCommand (fun c _ => pending_of_continues rfl rfl (continues_exit hr)) fun c _ hc => ?_
  cases hp : c.phase <;> simp [hp, Phase.exit, Phase.isRunning] at hc

theorem Inv.timeout (h : s.Inv) {i : Nat} (he : ∃ c ∈ s.commands[i]?, c.phase.isRunning = true ∧ c.kind ≠ .execution)
    (ht : ∀ c ∈ s.commands[i]?, c.phase ≠ .running true false) :
    (s.modifyCommand i fun c => { c with phase := c.phase.onTimeout }).Inv := by
  obtain ⟨c, hc, hr, _⟩ := he
  have hx : c.continues = true := by
    have hne := ht c hc
    simp only [DeviceCommand.continues]
    cases hp : c.phase <;> simp_all [Phase.isRunning, Phase.restarts]
    grind
  refine h.modifyCommand (fun c' hc' => ?_) fun c' hc' _ _ => ?_
  · cases (Option.mem_def.mp hc).symm.trans hc'
    exact pending_of_continues rfl rfl fun _ => hx
  · cases (Option.mem_def.mp hc).symm.trans hc'
    exact h.active c (List.mem_of_getElem? hc) hr hx

theorem onCommandFinished_of_not_continues {kind es active present}
    (h : DeviceCommand.continues ⟨d, kind, .posted es, active, change⟩ = false) :
    s.onCommandFinished kind d change es forks present = s := by
  cases kind <;> simp_all [DeviceCommand.continues, Phase.restarts, onCommandFinished]

theorem Inv.finished (h : s.Inv) {i : Nat} {d kind es active change present}
    (hc : s.commands[i]? = some ⟨d, kind, .posted es, active, change⟩) :
    ((s.modifyCommand i finish).onCommandFinished kind d change es forks present).Inv := by
  have hi : (s.modifyCommand i finish).Inv := by
    refine h.modifyCommand (fun _ _ => .inl rfl) fun _ _ hr => ?_
    cases hr
  cases hx : DeviceCommand.continues ⟨d, kind, .posted es, active, change⟩
  case false => rwa [onCommandFinished_of_not_continues hx]
  case true  =>
    have hp : DeviceCommand.pending ⟨d, kind, .posted es, active, change⟩ = some (d, change) := by
      simp [DeviceCommand.pending, hx]
    exact h.replaces hi (pending_finish hc hp) rfl rfl starts_onCommandFinished

theorem Inv.restartTimerTimedOut (h : s.Inv) {i : Nat} {t : DeviceTimer δ} (ht : s.timers[i]? = some t) :
    ({ s with timers := s.timers.eraseIdx i }.runPreExecutionCommand t.device t.change forks).Inv := by
  have hi : Inv { s with timers := s.timers.eraseIdx i } :=
    h.shrinks (((List.eraseIdx_sublist ..).map _).append_left _) rfl rfl h.active
  exact h.replaces hi (pending_eraseTimer ht) rfl rfl starts_runPreExecutionCommand

theorem Inv.act (h : s.Inv) {a} (he : s.enabled a) (ht : s.InTime a) : (s.act a).Inv := by
  cases a
  case startup files                => exact h.startup he.left he.right
  case deviceCreated d forks        => exact h.starts he starts_runValidationCommand ht rfl
  case exit i child                 => exact h.exit he.left
  case timeout i                    => exact h.timeout he ht
  case finished i forks present     =>
    simp only [DeviceGroup.act]
    split
    case h_1 hc => exact h.finished hc
    case h_2    => exact h
  case restartTimerTimedOut i forks =>
    simp only [DeviceGroup.act]
    split
    case h_1 ht => exact h.restartTimerTimedOut ht
    case h_2    => exact h
  case watchedFileChanged files     => exact h.watchedFileChanged he.left he.right ht.left ht.right

theorem inv_of_reachable (h : (machine.restrict InTime).Reachable s) : s.Inv := by
  refine h.preserves ?_ ?_
  · rintro s ⟨validation, preExecution, restarts, rfl⟩
    constructor <;> simp [initial, pending]
  · rintro s a s' hi he hs
    cases hs
    exact hi.act he.left he.right

end DeviceGroup

end Yogi.Supervisor
