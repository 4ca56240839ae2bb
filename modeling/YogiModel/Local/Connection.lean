import YogiModel.Base.Machine

namespace Yogi.Local

-- The two communicators that are connected.
inductive Side
  | a
  | b
  deriving DecidableEq

inductive State
  | registration
  | running
  | closed
  deriving DecidableEq

-- What is posted on a strand.
inductive Handler (α : Type)
  | death
  | message (m : α)
  deriving DecidableEq

-- Where the handler that a strand runs stands.
inductive Running (α : Type)
  | death
  | check (m : α)
  | spin (m : α)
  | recheck (m : α)
  | deliver (m : α)
  | close
  deriving DecidableEq

-- What a communicator sees of the connection.
inductive Event (α : Type)
  | started
  | message (m : α)
  | destroyed
  deriving DecidableEq

-- A `channel_data` with its strand; `sent` are the messages that have been posted and `log` are the
-- calls of the receiver.
structure Channel (α : Type) where
  queue      : List (Handler α)
  running    : Option (Running α)
  delayDeath : Bool
  sent       : List α
  log        : List (Event α)
  deriving DecidableEq

-- Where `register_channels` stands. It leaves with an exception when a side has failed.
inductive Registration
  | newConnection (x : Side)
  | connectionStarted (x : Side)
  | undelay (x : Side)
  | exchange
  | done
  | postDeath
  | setClosed (x : Side)
  | awaitIdle (x : Side)
  | failed (x : Side)
  deriving DecidableEq

-- Who calls `close`.
inductive Caller
  | user
  | sender
  | handler (x : Side)
  deriving DecidableEq

-- Where the one call of `close` stands that has set the state.
inductive Closer
  | none
  | post (x : Side) (caller : Caller)
  | returned
  deriving DecidableEq

structure Connection (α : Type) where
  state        : State
  channel      : Side → Channel α
  activePosts  : Int
  registration : Registration
  closer       : Closer

namespace Channel

variable {α : Type}

def new : Channel α where
  queue      := []
  running    := none
  delayDeath := true
  sent       := []
  log        := []

def post (c : Channel α) (h : Handler α) : Channel α :=
  { c with queue := c.queue ++ [h] }

def call (c : Channel α) (e : Event α) : Channel α :=
  { c with log := c.log ++ [e] }

end Channel

namespace Connection

variable {α : Type}

def new : Connection α where
  state        := .registration
  channel      := fun _ => .new
  activePosts  := 0
  registration := .newConnection .b
  closer       := .none

def update (s : Connection α) (x : Side) (f : Channel α → Channel α) : Connection α :=
  { s with channel := Function.update s.channel x (f (s.channel x)) }

-- The counter is only read by `await_idle`.
def postDeath (s : Connection α) (x : Side) : Connection α :=
  { s.update x fun c => c.post .death with activePosts := s.activePosts + 1 }

-- The strand has run a handler.
def handled (s : Connection α) (x : Side) : Connection α :=
  { s.update x fun c => { c with running := none } with activePosts := s.activePosts - 1 }

-- What a caller does when `close` returns.
def closeReturned (s : Connection α) : Caller → Connection α
  | .user      => s
  | .sender    => { s with activePosts := s.activePosts - 1 }
  | .handler x => s.handled x

def close (s : Connection α) (caller : Caller) : Connection α :=
  if s.state = .closed then
    s.closeReturned caller
  else
    { s with state := .closed, closer := .post .b caller }

def proceedClosing (s : Connection α) : Connection α :=
  match s.closer with
  | .post .b caller => { s.postDeath .b with closer := .post .a caller }
  | .post .a caller => { s.postDeath .a with closer := .returned }.closeReturned caller
  | _               => s

def deliverDeath (s : Connection α) (x : Side) : Connection α :=
  if (s.channel x).delayDeath then
    (s.postDeath x).handled x
  else
    (s.update x fun c => c.call .destroyed).handled x

def setRunning (s : Connection α) (x : Side) (r : Running α) : Connection α :=
  s.update x fun c => { c with running := some r }

-- The next step of the handler that the strand runs.
def proceed (s : Connection α) (x : Side) (throws : Bool) : Connection α :=
  match (s.channel x).running with
  | none               => s
  | some .death        => s.deliverDeath x
  | some (.check m)    => s.setRunning x (if s.state = .running then .deliver m else .spin m)
  | some (.spin m)     => s.setRunning x (if s.state = .registration then .spin m else .recheck m)
  | some (.recheck m)  => if s.state = .closed then s.handled x else s.setRunning x (.deliver m)
  | some (.deliver m)  =>
    let s := s.update x fun c => c.call (.message m)
    if throws then
      (s.setRunning x .close).close (.handler x)
    else
      s.handled x
  | some .close        => s

def begin (s : Connection α) (x : Side) : Connection α :=
  match (s.channel x).queue with
  | []                => s
  | .death :: hs      => s.update x fun c => { c with queue := hs, running := some .death }
  | .message m :: hs  => s.update x fun c => { c with queue := hs, running := some (.check m) }

-- Posting fails if the message cannot be cloned or the strand has no memory.
def postMsg (s : Connection α) (x : Side) (m : α) (fails : Bool) : Connection α :=
  let s := { s with activePosts := s.activePosts + 1 }
  if fails then
    s.close .sender
  else
    s.update x fun c => { c.post (.message m) with sent := c.sent ++ [m] }

-- The next step of `register_channels`, where a call of a communicator may throw.
def register (s : Connection α) (throws : Bool) : Connection α :=
  match s.registration with
  | .newConnection x     =>
    if throws then
      { s with registration := if x = .a then .postDeath else .setClosed .b }
    else
      { s with registration := .connectionStarted x }
  | .connectionStarted x =>
    if throws then
      { s with registration := if x = .a then .postDeath else .setClosed .b }
    else
      { s.update x fun c => c.call .started with registration := .undelay x }
  | .undelay x           =>
    { s.update x fun c => { c with delayDeath := false } with
      registration := if x = .b then .newConnection .a else .exchange }
  | .exchange            =>
    { s with
      state        := if s.state = .registration then .running else s.state
      registration := .done }
  | .postDeath           => { s.postDeath .b with registration := .setClosed .a }
  | .setClosed x         => { s with state := .closed, registration := .awaitIdle x }
  | .awaitIdle x         => { s with registration := .failed x }
  | .done                => s
  | .failed _            => s

inductive Action (α : Type)
  | register (throws : Bool)
  | postMsg (x : Side) (m : α) (fails : Bool)
  | begin (x : Side)
  | proceed (x : Side) (throws : Bool)
  | close
  | proceedClosing
  deriving DecidableEq

def enabled (s : Connection α) : Action α → Prop
  | .register _     =>
    match s.registration with
    | .done | .failed _ => False
    | .awaitIdle _      => s.activePosts = 0
    | _                 => True
  | .postMsg _ _ _  => True
  | .begin x        => (s.channel x).running = none ∧ (s.channel x).queue ≠ []
  | .proceed x _    => (s.channel x).running ≠ none ∧ (s.channel x).running ≠ some .close
  | .close          => True
  | .proceedClosing => s.closer ≠ .none ∧ s.closer ≠ .returned

def act (s : Connection α) : Action α → Connection α
  | .register throws   => s.register throws
  | .postMsg x m fails => s.postMsg x m fails
  | .begin x           => s.begin x
  | .proceed x throws  => s.proceed x throws
  | .close             => s.close .user
  | .proceedClosing    => s.proceedClosing

def machine (α : Type) : Machine (Connection α) (Action α) Empty where
  init    := fun s => s = new
  enabled := enabled
  step    := fun s a => .ok (s.act a)

end Connection

end Yogi.Local
