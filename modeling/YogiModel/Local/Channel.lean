import YogiModel.Local.Connection

namespace Yogi.Local

variable {α : Type} {x y : Side}

namespace Registration

-- The side's `on_connection_started` has returned normally.
def started : Registration → Side → Bool
  | .newConnection y, x | .connectionStarted y, x => y == .a && x == .b
  | .undelay y, x                                 => y == .a || x == .b
  | .exchange, _ | .done, _                       => true
  | .postDeath, x                                 => x == .b
  | .setClosed y, x | .awaitIdle y, x | .failed y, x => y == .a && x == .b

def delays (r : Registration) (x : Side) : Bool :=
  !r.started x || r == .undelay x

-- The second side has failed.
def secondFailed : Registration → Bool
  | .postDeath | .setClosed .a | .awaitIdle .a | .failed .a => true
  | _ => false

-- The state has been set since a side has failed.
def awaiting : Registration → Bool
  | .awaitIdle _ | .failed _ => true
  | _ => false

end Registration

-- How many notices of its death a side gets.
def dues (r : Registration) (cl : Closer) (x : Side) : Nat :=
  (if cl = .none then 0 else 1) + (if x = .b ∧ r.secondFailed then 1 else 0)

-- How many of them have not been posted.
def owed (r : Registration) (cl : Closer) (x : Side) : Nat :=
  (match cl with
    | .post y _ => if y = .b ∨ x = .a then 1 else 0
    | _         => 0) + (if x = .b ∧ r = .postDeath then 1 else 0)

def Running.message? : Running α → Option α
  | .check m | .spin m | .recheck m | .deliver m => some m
  | .death | .close => none

def Handler.message? : Handler α → Option α
  | .message m => some m
  | .death     => none

def Running.isDeath : Running α → Bool
  | .death => true
  | _      => false

def Handler.isDeath : Handler α → Bool
  | .death => true
  | _      => false

namespace Channel

-- The messages that the strand still has.
def pending (c : Channel α) : List α :=
  (c.running.bind Running.message?).toList ++ c.queue.filterMap Handler.message?

def deaths (c : Channel α) : Nat :=
  (c.running.any Running.isDeath).toNat + c.queue.countP Handler.isDeath

def posts (c : Channel α) : Nat :=
  c.running.toList.length + c.queue.length

-- The side has got some messages and `n` notices of its death.
structure Sound (st : State) (r : Registration) (cl : Closer) (x : Side) (c : Channel α)
    (ms : List α) (n : Nat) : Prop where
  log     : c.log =
    if r.started x then .started :: ms.map .message ++ List.replicate n .destroyed else []
  nothing : r.started x = false → ms = [] ∧ n = 0
  delay   : c.delayDeath = r.delays x
  deaths  : c.deaths + n + owed r cl x = dues r cl x
  order   : ms ++ c.pending = c.sent ∨
    (st = .closed ∧ ms <+: c.sent ∧ ∀ m, c.running ≠ some (.deliver m))
  running : ms ≠ [] → r = .done
  deliver : ∀ m, c.running = some (.deliver m) → r = .done ∧ n = 0
  recheck : ∀ m, c.running = some (.recheck m) → st ≠ .registration
  close   : ∀ y, cl = .post y (.handler x) → c.running = some .close

variable {st st' : State} {r r' : Registration} {cl cl' : Closer} {c : Channel α} {ms : List α}
  {n : Nat} {m : α} {r₀ r₁ : Running α}

theorem isDeath_of_message? (h : r₀.message? = some m) : r₀.isDeath = false := by
  cases r₀ <;> first | rfl | cases h

theorem eq_deliver_of_message? {m' : α} (h : (Running.deliver m').message? = some m) : m' = m := by
  cases h
  rfl

-- The handler of a message goes on.
theorem Sound.setRunning (h : Sound st r cl x c ms n) (hr : c.running = some r₀)
    (h₀ : r₀.message? = some m) (h₁ : r₁.message? = some m)
    (hd : ∀ m', r₁ = .deliver m' → r = .done ∧ n = 0 ∧ st ≠ .closed)
    (hc : ∀ m', r₁ = .recheck m' → st ≠ .registration) :
    Sound st r cl x { c with running := some r₁ } ms n where
  log     := h.log
  nothing := h.nothing
  delay   := h.delay
  deaths  := by
    have := h.deaths
    simpa [Channel.deaths, hr, isDeath_of_message? h₀, isDeath_of_message? h₁] using this
  order   := by
    cases h.order
    case inl ho => exact .inl (by simpa [pending, hr, h₀, h₁] using ho)
    case inr ho =>
      refine .inr ⟨ho.left, ho.right.left, ?_⟩
      intro m' he
      cases he
      exact (hd m' rfl).right.right ho.left
  running := h.running
  deliver := by
    intro m' he
    cases he
    obtain ⟨hr, hn, _⟩ := hd m' rfl
    exact ⟨hr, hn⟩
  recheck := by
    intro m' he
    cases he
    exact hc m' rfl
  close   := by
    intro y hy
    have := (h.close y hy).symm.trans hr
    cases this
    cases h₀

-- It is not delivered.
theorem Sound.drop (h : Sound st r cl x c ms n) (hr : c.running = some r₀)
    (h₀ : r₀.message? = some m) (hst : st = .closed) :
    Sound st r cl x { c with running := none } ms n where
  log     := h.log
  nothing := h.nothing
  delay   := h.delay
  deaths  := by
    have := h.deaths
    simpa [Channel.deaths, hr, isDeath_of_message? h₀] using this
  order   := by
    refine .inr ⟨hst, ?_, fun _ h => by cases h⟩
    cases h.order
    case inl ho => exact ⟨_, ho⟩
    case inr ho => exact ho.right.left
  running := h.running
  deliver := fun _ h => by cases h
  recheck := fun _ h => by cases h
  close   := by
    intro y hy
    have := (h.close y hy).symm.trans hr
    cases this
    cases h₀

theorem Sound.message (h : Sound st r cl x c ms n) (hr : c.running = some (.deliver m))
    {run : Option (Running α)} (hrun : run = none ∨ run = some .close) :
    Sound st r cl x { c.call (.message m) with running := run } (ms ++ [m]) n := by
  obtain ⟨hd, hn⟩ := h.deliver m hr
  subst hd hn
  have hl : c.log = .started :: ms.map .message ++ List.replicate 0 .destroyed := h.log
  have ho := h.order.resolve_right fun ho => ho.right.right m hr
  have hdeaths := h.deaths
  refine ⟨?_, fun h => (by cases h), h.delay, ?_, .inl ?_, fun _ => rfl, ?_, ?_, ?_⟩
  · simp [call, hl, Registration.started]
  · cases hrun <;> simpa [Channel.deaths, call, hr, Running.isDeath, *] using hdeaths
  · cases hrun <;> simpa [call, pending, hr, Running.message?, *] using ho
  · intro m' he
    cases hrun <;> simp_all
  · intro m' he
    cases hrun <;> simp_all
  · intro y hy
    have := (h.close y hy).symm.trans hr
    cases this

theorem Sound.destroyed (h : Sound st r cl x c ms n) (hr : c.running = some .death)
    (hd : c.delayDeath = false) :
    Sound st r cl x { c.call .destroyed with running := none } ms (n + 1) := by
  have hs : r.started x = true := by
    have := h.delay.symm.trans hd
    simp only [Registration.delays, Bool.or_eq_false_iff, Bool.not_eq_false'] at this
    exact this.left
  have hdeaths := h.deaths
  refine ⟨?_, ?_, h.delay, ?_, ?_, h.running, fun _ h => (by cases h), fun _ h => (by cases h), ?_⟩
  · have hl := h.log
    simp only [hs, if_true] at hl ⊢
    simp [call, hl, List.replicate_succ']
  · intro hn
    simp [hs] at hn
  · simp only [Channel.deaths, hr, Option.any_some, Option.any_none, Running.isDeath, call,
      Bool.toNat_true, Bool.toNat_false] at hdeaths ⊢
    omega
  · cases h.order
    case inl ho => exact .inl (by simpa [call, pending, hr, Running.message?] using ho)
    case inr ho => exact .inr ⟨ho.left, ho.right.left, fun _ h => by cases h⟩
  · intro y hy
    have := (h.close y hy).symm.trans hr
    cases this

theorem Sound.repost (h : Sound st r cl x c ms n) (hr : c.running = some .death) :
    Sound st r cl x { c.post .death with running := none } ms n := by
  have hdeaths := h.deaths
  refine ⟨h.log, h.nothing, h.delay, ?_, ?_, h.running, fun _ h => (by cases h),
    fun _ h => (by cases h), ?_⟩
  · simp only [Channel.deaths, hr, Option.any_some, Option.any_none, Running.isDeath, post,
      Bool.toNat_true, Bool.toNat_false, List.countP_append, List.countP_singleton, Handler.isDeath,
      if_true] at hdeaths ⊢
    omega
  · cases h.order
    case inl ho =>
      refine .inl ?_
      simpa [post, pending, hr, Running.message?, Handler.message?, List.filterMap_cons] using ho
    case inr ho => exact .inr ⟨ho.left, ho.right.left, fun _ h => by cases h⟩
  · intro y hy
    have := (h.close y hy).symm.trans hr
    cases this

theorem Sound.begin {hd hs} (h : Sound st r cl x c ms n) (hr : c.running = none)
    (hq : c.queue = hd :: hs) {run : Running α} (hm : run.message? = hd.message?)
    (hdeath : run.isDeath = hd.isDeath) (hn : ∀ m, run ≠ .deliver m ∧ run ≠ .recheck m) :
    Sound st r cl x { c with queue := hs, running := some run } ms n := by
  have hdeaths := h.deaths
  refine ⟨h.log, h.nothing, h.delay, ?_, ?_, h.running, ?_, ?_, ?_⟩
  · simp only [Channel.deaths, hr, hq, Option.any_some, Option.any_none, List.countP_cons, hdeath,
      Bool.toNat_false] at hdeaths ⊢
    cases hh : hd.isDeath <;> simp_all
    omega
  · cases h.order
    case inl ho =>
      refine .inl ?_
      rw [← ho]
      cases hmm : hd.message? <;> simp [pending, hr, hq, hm, hmm]
    case inr ho =>
      refine .inr ⟨ho.left, ho.right.left, ?_⟩
      intro m he
      exact (hn m).left (Option.some.inj he)
  · intro m he
    exact absurd (Option.some.inj he) (hn m).left
  · intro m he
    exact absurd (Option.some.inj he) (hn m).right
  · intro y hy
    have := (h.close y hy).symm.trans hr
    cases this

theorem Sound.postMsg (h : Sound st r cl x c ms n) (m : α) :
    Sound st r cl x { c.post (.message m) with sent := c.sent ++ [m] } ms n where
  log     := h.log
  nothing := h.nothing
  delay   := h.delay
  deaths  := by
    have := h.deaths
    simpa [Channel.deaths, post, Handler.isDeath] using this
  order   := by
    cases h.order
    case inl ho =>
      refine .inl ?_
      rw [← ho]
      simp [pending, post, Handler.message?]
    case inr ho =>
      exact .inr ⟨ho.left, ho.right.left.trans (List.prefix_append ..), ho.right.right⟩
  running := h.running
  deliver := h.deliver
  recheck := h.recheck
  close   := h.close

-- A notice is posted.
theorem Sound.postDeath (h : Sound st r cl x c ms n) (hs : r'.started x = r.started x)
    (hd : r'.delays x = r.delays x) (hdone : r = .done → r' = .done)
    (ho : owed r cl x + dues r' cl' x = owed r' cl' x + dues r cl x + 1)
    (hc : ∀ y, cl' = .post y (.handler x) → cl = .post .b (.handler x)) :
    Sound st r' cl' x (c.post .death) ms n where
  log     := by
    rw [hs]
    exact h.log
  nothing := hs ▸ h.nothing
  delay   := hd ▸ h.delay
  deaths  := by
    have := h.deaths
    simp only [Channel.deaths, post, List.countP_append, List.countP_singleton, Handler.isDeath,
      if_true] at this ⊢
    omega
  order   := by
    cases h.order
    case inl ho =>
      exact .inl (by simpa [pending, post, Handler.message?, List.filterMap_cons] using ho)
    case inr ho => exact .inr ho
  running := fun hm => hdone (h.running hm)
  deliver := fun m hm => (h.deliver m hm).imp_left hdone
  recheck := h.recheck
  close   := fun y hy => h.close .b (hc y hy)

-- Nothing happens to the channel.
theorem Sound.other (h : Sound st r cl x c ms n) (hst : st = .closed → st' = .closed)
    (hreg : st ≠ .registration → st' ≠ .registration) (hs : r'.started x = r.started x)
    (hd : r'.delays x = r.delays x) (hdone : r = .done → r' = .done)
    (ho : owed r cl x + dues r' cl' x = owed r' cl' x + dues r cl x)
    (hc : ∀ y, cl' = .post y (.handler x) → c.running = some .close) :
    Sound st' r' cl' x c ms n where
  log     := by
    rw [hs]
    exact h.log
  nothing := hs ▸ h.nothing
  delay   := hd ▸ h.delay
  deaths  := by
    have := h.deaths
    omega
  order   := h.order.imp_right fun ho => ⟨hst ho.left, ho.right⟩
  running := fun hm => hdone (h.running hm)
  deliver := fun m hm => (h.deliver m hm).imp_left hdone
  recheck := fun m hm => hreg (h.recheck m hm)
  close   := hc

theorem Sound.returned (h : Sound st r cl x c ms n) (hr : c.running = some .close)
    (hc : ∀ y, cl ≠ .post y (.handler x)) : Sound st r cl x { c with running := none } ms n where
  log     := h.log
  nothing := h.nothing
  delay   := h.delay
  deaths  := by
    have := h.deaths
    simpa [Channel.deaths, hr, Running.isDeath] using this
  order   := by
    cases h.order
    case inl ho => exact .inl (by simpa [pending, hr, Running.message?] using ho)
    case inr ho => exact .inr ⟨ho.left, ho.right.left, fun _ h => by cases h⟩
  running := h.running
  deliver := fun _ h => by cases h
  recheck := fun _ h => by cases h
  close   := fun y hy => absurd hy (hc y)

-- The side's `on_connection_started` returns.
theorem Sound.start (h : Sound st r cl x c ms n) (r' : Registration)
    (hs : r.started x = false) (hs' : r'.started x = true) (hd : r'.delays x = r.delays x)
    (ho : owed r cl x + dues r' cl x = owed r' cl x + dues r cl x) :
    Sound st r' cl x (c.call .started) [] 0 := by
  have hne : r ≠ .done := by
    intro he
    simp [he, Registration.started] at hs
  obtain ⟨hms, hn⟩ := h.nothing hs
  subst hms hn
  refine ⟨?_, fun _ => ⟨rfl, rfl⟩, hd ▸ h.delay, ?_, h.order, fun h => absurd rfl h, ?_, h.recheck,
    h.close⟩
  · have hl := h.log
    simp [hs] at hl
    simp [call, hl, hs']
  · have hdeaths := h.deaths
    simp only [Channel.deaths, call] at hdeaths ⊢
    omega
  · exact fun m hm => absurd (h.deliver m hm).left hne

theorem Sound.undelay (h : Sound st r cl x c ms n) (r' : Registration)
    (hs : r'.started x = r.started x)
    (hd : r'.delays x = false) (hdone : r ≠ .done)
    (ho : owed r cl x + dues r' cl x = owed r' cl x + dues r cl x) :
    Sound st r' cl x { c with delayDeath := false } ms n where
  log     := by
    rw [hs]
    exact h.log
  nothing := hs ▸ h.nothing
  delay   := hd.symm
  deaths  := by
    have := h.deaths
    simp only [Channel.deaths] at this ⊢
    omega
  order   := h.order
  running := fun hm => absurd (h.running hm) hdone
  deliver := fun m hm => absurd (h.deliver m hm).left hdone
  recheck := h.recheck
  close   := h.close

end Channel

end Yogi.Local
