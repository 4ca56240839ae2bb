import YogiModel.Local.Channel

namespace Yogi.Local.Connection

open Channel

variable {α : Type} {x y : Side} {s : Connection α} {c : Channel α} {ch : Side → Channel α}
  {f g : Channel α → Channel α} {st : State} {r : Registration} {cl : Closer} {caller : Caller}
  {p d : Int} {k : Nat}

structure Global (st : State) (r : Registration) (cl : Closer) : Prop where
  running  : st = .running → r = .done
  awaiting : r.awaiting = true → st = .closed
  closer   : cl ≠ .none → st = .closed
  closed   : st = .closed → cl ≠ .none ∨ r.awaiting = true
  done     : r = .done → st ≠ .registration
  late     : cl ≠ .none → r.secondFailed = false

def Sound (st : State) (r : Registration) (cl : Closer) (ch : Side → Channel α) : Prop :=
  ∀ x, ∃ ms n, (ch x).Sound st r cl x ms n

-- What `await_idle` waits for; `k` calls of `post_msg` have failed and have not returned.
def Accounted (p : Int) (ch : Side → Channel α) (k : Nat) : Prop :=
  p = (ch .a).posts + (ch .b).posts + k

def Caller.posts : Caller → Nat
  | .sender => 1
  | _       => 0

def Closer.posts : Closer → Nat
  | .post _ caller => Caller.posts caller
  | _              => 0

structure Consistent (s : Connection α) : Prop where
  global    : Global s.state s.registration s.closer
  sound     : Sound s.state s.registration s.closer s.channel
  accounted : Accounted s.activePosts s.channel (Closer.posts s.closer)

theorem consistent_new : (new : Connection α).Consistent where
  global    := ⟨by simp [new], by simp [new, Registration.awaiting], by simp [new], by simp [new],
    by simp [new], by simp [new]⟩
  sound     := by
    intro x
    refine ⟨[], 0, ?_⟩
    cases x <;> exact ⟨rfl, fun _ => ⟨rfl, rfl⟩, rfl, rfl, .inl rfl, fun h => absurd rfl h,
      fun _ h => (by cases h), fun _ h => (by cases h), fun _ h => (by cases h)⟩
  accounted := rfl

theorem sound_update (h : Sound st r cl ch)
    (hc : ∀ ms n, (ch x).Sound st r cl x ms n → ∃ ms n, c.Sound st r cl x ms n) :
    Sound st r cl (Function.update ch x c) := by
  intro y
  by_cases hy : y = x
  case pos =>
    subst hy
    obtain ⟨ms, n, hs⟩ := h y
    rw [Function.update_self]
    exact hc ms n hs
  case neg =>
    rw [Function.update_of_ne hy]
    exact h y

theorem accounted_update (h : Accounted p ch k) (hc : (c.posts : Int) = (ch x).posts + d) :
    Accounted (p + d) (Function.update ch x c) k := by
  simp only [Accounted] at h ⊢
  cases x
  · have hb : Function.update ch .a c .b = ch .b := Function.update_of_ne (by decide) ..
    rw [Function.update_self, hb, h, hc]
    omega
  · have ha : Function.update ch .b c .a = ch .a := Function.update_of_ne (by decide) ..
    rw [Function.update_self, ha, h, hc]
    omega

-- A step that concerns one channel.
theorem Consistent.update (h : s.Consistent) (d : Int)
    (hs : ∀ ms n, (s.channel x).Sound s.state s.registration s.closer x ms n →
      ∃ ms n, (f (s.channel x)).Sound s.state s.registration s.closer x ms n)
    (hp : ((f (s.channel x)).posts : Int) = (s.channel x).posts + d) :
    ({ s.update x f with activePosts := s.activePosts + d } : Connection α).Consistent where
  global    := h.global
  sound     := sound_update h.sound hs
  accounted := accounted_update h.accounted hp

theorem Consistent.update_only (h : s.Consistent)
    (hs : ∀ ms n, (s.channel x).Sound s.state s.registration s.closer x ms n →
      ∃ ms n, (f (s.channel x)).Sound s.state s.registration s.closer x ms n)
    (hp : (f (s.channel x)).posts = (s.channel x).posts) : (s.update x f).Consistent := by
  have := h.update 0 hs (by omega)
  rwa [Int.add_zero] at this

theorem update_update : (s.update x f).update x g = s.update x (g ∘ f) := by
  simp [Connection.update]

@[simp] theorem channel_update_self : (s.update x f).channel x = f (s.channel x) :=
  Function.update_self ..

-- The end of a handler after a call of its receiver.
theorem handled_update : (s.update x f).handled x =
    { s.update x fun c => { f c with running := none } with
      activePosts := s.activePosts + (-1) } := by
  simp only [handled, update_update]
  rfl

theorem posts_of_handled {run : Running α} (hr : c.running = some run)
    (hq : (f c).queue = c.queue) :
    (({ f c with running := none } : Channel α).posts : Int) = c.posts + (-1) := by
  simp only [posts, hr, hq, Option.toList_none, Option.toList_some, List.length_nil,
    List.length_singleton]
  omega

theorem consistent_deliverDeath (h : s.Consistent) (hr : (s.channel x).running = some .death) :
    (s.deliverDeath x).Consistent := by
  rw [deliverDeath]
  split
  case isTrue hd =>
    have he : (s.postDeath x).handled x =
        s.update x fun c => { c.post .death with running := none } := by
      simp only [handled, Connection.postDeath, Connection.update, Function.update_self,
        Function.update_idem]
      congr 1
      omega
    rw [he]
    apply h.update_only
    · exact fun ms n hs => ⟨ms, n, hs.repost hr⟩
    · simp [posts, hr, post]
      omega
  case isFalse hd =>
    rw [handled_update]
    apply h.update
    · exact fun ms n hs => ⟨ms, n + 1, hs.destroyed hr (by simpa using hd)⟩
    · exact posts_of_handled (f := fun c => c.call .destroyed) hr rfl

theorem consistent_setRunning {m : α} {r₀ r₁ : Running α} (h : s.Consistent)
    (hr : (s.channel x).running = some r₀) (h₀ : r₀.message? = some m) (h₁ : r₁.message? = some m)
    (hd : ∀ m', r₁ = .deliver m' → s.state = .running)
    (hc : ∀ m', r₁ = .recheck m' → s.state ≠ .registration) :
    (s.setRunning x r₁).Consistent := by
  apply h.update_only
  case hp => simp [posts, hr]
  case hs =>
    intro ms n hs
    refine ⟨ms, n, hs.setRunning hr h₀ h₁ ?_ hc⟩
    intro m' he
    have hst := hd m' he
    have hdone := h.global.running hst
    have hcl : s.closer = .none := by
      apply Classical.byContradiction
      intro hn
      have := h.global.closer hn
      simp [hst] at this
    -- Nobody has posted a notice yet.
    have hdeaths := hs.deaths
    simp only [hdone, hcl, dues, owed, Registration.secondFailed] at hdeaths
    refine ⟨hdone, ?_, by simp [hst]⟩
    simp at hdeaths
    omega

theorem consistent_closeReturned (hg : Global s.state s.registration s.closer)
    (hs : Sound s.state s.registration s.closer s.channel)
    (ha : Accounted s.activePosts s.channel (Closer.posts s.closer + Caller.posts caller))
    (hc : ∀ x, caller = .handler x →
      (s.channel x).running = some .close ∧ ∀ y, s.closer ≠ .post y (.handler x)) :
    (s.closeReturned caller).Consistent := by
  cases caller
  case user   => exact ⟨hg, hs, ha⟩
  case sender =>
    refine ⟨hg, hs, ?_⟩
    simp only [Accounted, Caller.posts, closeReturned] at ha ⊢
    omega
  case handler x =>
    obtain ⟨hr, hn⟩ := hc x rfl
    refine ⟨hg, ?_, ?_⟩
    · exact sound_update hs fun ms n h => ⟨ms, n, h.returned hr hn⟩
    · exact accounted_update ha (posts_of_handled (f := id) hr rfl)

theorem consistent_close (hg : Global s.state s.registration s.closer)
    (hs : Sound s.state s.registration s.closer s.channel)
    (ha : Accounted s.activePosts s.channel (Closer.posts s.closer + Caller.posts caller))
    (hc : ∀ x, caller = .handler x →
      (s.channel x).running = some .close ∧ ∀ y, s.closer ≠ .post y (.handler x))
    (hl : s.state ≠ .closed → s.registration.secondFailed = false) :
    (s.close caller).Consistent := by
  rw [close]
  split
  case isTrue  => exact consistent_closeReturned hg hs ha hc
  case isFalse hst =>
    have hcl : s.closer = .none := by
      apply Classical.byContradiction
      exact fun hn => hst (hg.closer hn)
    refine ⟨?_, ?_, ?_⟩
    · exact {
        running  := fun h => by cases h
        awaiting := fun _ => rfl
        closer   := fun _ => rfl
        closed   := fun _ => .inl (by simp)
        done     := fun _ => by simp
        late     := fun _ => hl hst }
    · intro x
      obtain ⟨ms, n, h⟩ := hs x
      refine ⟨ms, n, h.other (fun _ => rfl) (fun _ => by simp) rfl rfl id ?_ ?_⟩
      · simp only [hcl, owed, dues]
        simp
        omega
      · intro y he
        cases he
        exact (hc x rfl).left
    · rw [hcl] at ha
      simpa [Accounted, Closer.posts] using ha

theorem not_closing {run : Running α} (h : s.Consistent) (hr : (s.channel x).running = some run)
    (hn : run ≠ .close) (y : Side) : s.closer ≠ .post y (.handler x) := by
  intro he
  obtain ⟨_, _, hs⟩ := h.sound x
  exact hn (Option.some.inj (hr.symm.trans (hs.close y he)))

theorem consistent_deliver {m : α} (h : s.Consistent)
    (hr : (s.channel x).running = some (.deliver m)) (throws : Bool) :
    (if throws then
      ((s.update x fun c => c.call (.message m)).setRunning x .close).close (.handler x)
    else
      (s.update x fun c => c.call (.message m)).handled x).Consistent := by
  split
  case isFalse =>
    rw [handled_update]
    apply h.update
    · exact fun ms n hs => ⟨ms ++ [m], n, hs.message hr (.inl rfl)⟩
    · exact posts_of_handled (f := fun c => c.call (.message m)) hr rfl
  case isTrue =>
    have hrun : s.registration = .done := by
      obtain ⟨_, _, hs⟩ := h.sound x
      exact (hs.deliver m hr).left
    rw [setRunning, update_update]
    have hu : Consistent
        (s.update x fun c => { c.call (.message m) with running := some .close }) := by
      apply h.update_only
      · exact fun ms n hs => ⟨ms ++ [m], n, hs.message hr (.inr rfl)⟩
      · simp [posts, hr, call]
    apply consistent_close hu.global hu.sound
    · exact hu.accounted
    · intro y hy
      cases hy
      refine ⟨?_, fun y => ?_⟩
      · exact congrArg Channel.running channel_update_self
      · exact not_closing h hr (by simp) y
    · intro _
      exact hrun ▸ rfl

theorem consistent_proceed (h : s.Consistent) (throws : Bool) : (s.proceed x throws).Consistent := by
  rw [proceed]
  split
  case h_1       => exact h
  case h_2 hr    => exact consistent_deliverDeath h hr
  case h_3 m hr  =>
    apply consistent_setRunning h hr (m := m) rfl
    · split <;> rfl
    · intro m' he
      split at he
      case isTrue hst => exact hst
      case isFalse    => cases he
    · intro m' he
      split at he <;> cases he
  case h_4 m hr  =>
    apply consistent_setRunning h hr (m := m) rfl
    · split <;> rfl
    · intro m' he
      split at he <;> cases he
    · intro m' he
      split at he
      case isTrue      => cases he
      case isFalse hst => exact hst
  case h_5 m hr  =>
    split
    case isTrue hst =>
      apply h.update (f := fun c => { c with running := none })
      · exact fun ms n hs => ⟨ms, n, hs.drop hr rfl hst⟩
      · exact posts_of_handled (f := id) hr rfl
    case isFalse hst =>
      apply consistent_setRunning h hr (m := m) rfl rfl
      · intro m' _
        obtain ⟨_, _, hs⟩ := h.sound x
        have hreg := hs.recheck m hr
        cases hs : s.state
        case registration => exact absurd hs hreg
        case running      => rfl
        case closed       => exact absurd hs hst
      · exact fun m' he => by cases he
  case h_6 m hr  => exact consistent_deliver h hr throws
  case h_7       => exact h

theorem consistent_begin (h : s.Consistent) (hr : (s.channel x).running = none) :
    (s.begin x).Consistent := by
  rw [begin]
  split
  case h_1       => exact h
  case h_2 hq    =>
    apply h.update_only
    · exact fun ms n hs => ⟨ms, n, hs.begin hr hq rfl rfl fun m => ⟨by simp, by simp⟩⟩
    · simp [posts, hr, hq]
      omega
  case h_3 hq    =>
    apply h.update_only
    · exact fun ms n hs => ⟨ms, n, hs.begin hr hq rfl rfl fun m => ⟨by simp, by simp⟩⟩
    · simp [posts, hr, hq]
      omega

theorem consistent_postMsg (h : s.Consistent) (m : α) {fails : Bool}
    (hl : fails = true → s.state ≠ .closed → s.registration.secondFailed = false) :
    (s.postMsg x m fails).Consistent := by
  rw [postMsg]
  cases fails
  case false =>
    apply h.update (f := fun c => { c.post (.message m) with sent := c.sent ++ [m] })
    · exact fun ms n hs => ⟨ms, n, hs.postMsg m⟩
    · simp [posts, post]
      omega
  case true =>
    have ha := h.accounted
    rw [if_pos rfl]
    refine consistent_close h.global h.sound ?_ (fun _ he => by cases he) (hl rfl)
    simp only [Accounted, Caller.posts] at ha ⊢
    omega

theorem posts_post {hd : Handler α} : ((c.post hd).posts : Int) = c.posts + 1 := by
  simp only [posts, post, List.length_append, List.length_singleton]
  omega

theorem channel_postDeath_self : (s.postDeath x).channel x = (s.channel x).post .death :=
  Function.update_self ..

theorem channel_postDeath (h : y ≠ x) : (s.postDeath x).channel y = s.channel y :=
  Function.update_of_ne h ..

@[simp] theorem registration_postDeath : (s.postDeath x).registration = s.registration :=
  rfl

theorem running_postDeath : ((s.postDeath x).channel y).running = (s.channel y).running := by
  by_cases h : y = x
  case pos => rw [h, channel_postDeath_self, post]
  case neg => rw [channel_postDeath h]

theorem consistent_proceedClosing (h : s.Consistent) : s.proceedClosing.Consistent := by
  rw [proceedClosing]
  split
  case h_3 => exact h
  case h_1 caller hcl =>
    have hst := h.global.closer (by simp [hcl])
    have hsf := h.global.late (by simp [hcl])
    refine ⟨?_, ?_, ?_⟩
    · exact {
        running  := h.global.running
        awaiting := h.global.awaiting
        closer   := fun _ => hst
        closed   := fun _ => .inl (by simp)
        done     := h.global.done
        late     := fun _ => hsf }
    · intro y
      obtain ⟨ms, n, hs⟩ := h.sound y
      rw [hcl] at hs
      cases y
      case a =>
        refine ⟨ms, n, ?_⟩
        rw [channel_postDeath (by decide)]
        refine hs.other id id rfl rfl id ?_ ?_
        · simp [owed, dues]
        · intro y he
          cases he
          exact hs.close .b rfl
      case b =>
        refine ⟨ms, n, ?_⟩
        rw [channel_postDeath_self]
        refine hs.postDeath rfl rfl id ?_ ?_
        · simp [owed, dues]
          omega
        · intro y he
          cases he
          rfl
    · have := h.accounted
      rw [hcl] at this
      exact accounted_update this posts_post
  case h_2 caller hcl =>
    have hst := h.global.closer (by simp [hcl])
    have hsf := h.global.late (by simp [hcl])
    apply consistent_closeReturned
    · exact {
        running  := h.global.running
        awaiting := h.global.awaiting
        closer   := fun _ => hst
        closed   := fun _ => .inl (by simp)
        done     := h.global.done
        late     := fun _ => hsf }
    · intro y
      obtain ⟨ms, n, hs⟩ := h.sound y
      rw [hcl] at hs
      cases y
      case a =>
        refine ⟨ms, n, ?_⟩
        rw [channel_postDeath_self]
        refine hs.postDeath rfl rfl id ?_ ?_
        · simp [owed, dues]
        · exact fun y he => by cases he
      case b =>
        refine ⟨ms, n, ?_⟩
        rw [channel_postDeath (by decide)]
        refine hs.other id id rfl rfl id ?_ ?_
        · simp [owed, dues]
        · exact fun y he => by cases he
    · have := h.accounted
      rw [hcl] at this
      have hp : (((s.channel .a).post .death).posts : Int) = (s.channel .a).posts + 1 := posts_post
      have := accounted_update this hp
      simpa [Accounted, Closer.posts, Connection.postDeath, Connection.update] using this
    · intro x he
      subst he
      obtain ⟨ms, n, hs⟩ := h.sound x
      exact ⟨running_postDeath.trans (hs.close .a hcl), fun y => by simp⟩

-- The registration goes on without the channels.
theorem consistent_registration {r' : Registration} (h : s.Consistent)
    (hg : Global s.state r' s.closer) (hdone : s.registration ≠ .done)
    (hs : ∀ x, r'.started x = s.registration.started x ∧ r'.delays x = s.registration.delays x ∧
      owed s.registration s.closer x + dues r' s.closer x =
        owed r' s.closer x + dues s.registration s.closer x) :
    ({ s with registration := r' } : Connection α).Consistent where
  global    := hg
  sound     := by
    intro x
    obtain ⟨ms, n, hx⟩ := h.sound x
    obtain ⟨hst, hd, ho⟩ := hs x
    exact ⟨ms, n, hx.other id id hst hd (fun he => absurd he hdone) ho fun y he => hx.close y he⟩
  accounted := h.accounted

theorem state_ne_running (h : s.Consistent) (hr : s.registration ≠ .done) : s.state ≠ .running :=
  fun he => hr (h.global.running he)

theorem closer_eq_none (h : s.Consistent) (hst : s.state ≠ .closed) : s.closer = .none :=
  Classical.byContradiction fun hn => hst (h.global.closer hn)

-- Before the end of the registration a close is the only reason for the closed state.
theorem global_of_not_awaiting {r' : Registration} (h : s.Consistent)
    (hr : s.registration.awaiting = false) (hn : s.registration ≠ .done)
    (ha : r'.awaiting = false) (hd : r' ≠ .done)
    (hl : s.closer ≠ .none → r'.secondFailed = false) : Global s.state r' s.closer where
  running  := fun he => absurd he (state_ne_running h hn)
  awaiting := fun he => by simp [ha] at he
  closer   := h.global.closer
  closed   := fun he => .inl ((h.global.closed he).resolve_right (by simp [hr]))
  done     := fun he => absurd he hd
  late     := hl

theorem consistent_throw (h : s.Consistent)
    (hr : s.registration = .newConnection x ∨ s.registration = .connectionStarted x)
    (hc : x = .a → s.state ≠ .closed) :
    ({ s with registration := if x = .a then .postDeath else .setClosed .b } :
      Connection α).Consistent := by
  have ha : s.registration.awaiting = false := by cases hr <;> simp [*, Registration.awaiting]
  have hn : s.registration ≠ .done := by cases hr <;> simp [*]
  cases x
  case a =>
    have hcl := closer_eq_none h (hc rfl)
    refine consistent_registration h
      (global_of_not_awaiting h ha hn rfl (by simp) fun hne => absurd hcl hne) hn fun y => ?_
    cases hr <;> rename_i hr <;> rw [hr] <;> cases y <;> refine ⟨rfl, rfl, ?_⟩ <;>
      simp [owed, dues, Registration.secondFailed] <;> omega
  case b =>
    refine consistent_registration h (global_of_not_awaiting h ha hn rfl (by simp) fun _ => rfl) hn
      fun y => ?_
    cases hr <;> rename_i hr <;> rw [hr] <;> cases y <;> refine ⟨rfl, rfl, ?_⟩ <;>
      simp [owed, dues, Registration.secondFailed]

theorem consistent_start (h : s.Consistent) (hr : s.registration = .connectionStarted x) :
    ({ s.update x fun c => c.call .started with registration := .undelay x } :
      Connection α).Consistent where
  global    := by
    have hg : Global s.state (.undelay x) s.closer :=
      global_of_not_awaiting h (by simp [hr, Registration.awaiting]) (by simp [hr]) rfl (by simp)
        fun _ => rfl
    exact hg
  sound     := by
    intro y
    obtain ⟨ms, n, hs⟩ := h.sound y
    rw [hr] at hs
    by_cases hy : y = x
    case pos =>
      subst hy
      refine ⟨[], 0, ?_⟩
      have hs := hs.start (.undelay y) (by cases y <;> rfl) (by cases y <;> rfl)
        (by cases y <;> rfl) (by simp [owed, dues, Registration.secondFailed])
      exact channel_update_self (s := s) (f := fun c => c.call .started) ▸ hs
    case neg =>
      refine ⟨ms, n, ?_⟩
      have hc : (s.update x fun c => c.call .started).channel y = s.channel y :=
        Function.update_of_ne hy ..
      have ho : owed (.connectionStarted x) s.closer y + dues (.undelay x) s.closer y =
          owed (.undelay x) s.closer y + dues (.connectionStarted x) s.closer y := by
        simp [owed, dues, Registration.secondFailed]
      refine hc ▸ hs.other id id ?_ ?_ (fun he => by cases he) ho fun z he => hs.close z he
      · cases x <;> cases y <;> first | rfl | exact absurd rfl hy
      · cases x <;> cases y <;> rfl
  accounted := by
    have := accounted_update (x := x) (c := (s.channel x).call .started) (d := 0) h.accounted
      (by simp [posts, call])
    rwa [Int.add_zero] at this

theorem consistent_undelay (h : s.Consistent) (hr : s.registration = .undelay x) :
    ({ s.update x fun c => { c with delayDeath := false } with
      registration := if x = .b then .newConnection .a else .exchange } :
      Connection α).Consistent where
  global    := by
    have hg : Global s.state (if x = .b then .newConnection .a else .exchange) s.closer := by
      apply global_of_not_awaiting h (by simp [hr, Registration.awaiting]) (by simp [hr])
      · cases x <;> rfl
      · cases x <;> simp
      · cases x <;> exact fun _ => rfl
    exact hg
  sound     := by
    intro y
    obtain ⟨ms, n, hs⟩ := h.sound y
    rw [hr] at hs
    refine ⟨ms, n, ?_⟩
    have ho : owed (.undelay x) s.closer y +
        dues (if x = .b then .newConnection .a else .exchange) s.closer y =
        owed (if x = .b then .newConnection .a else .exchange) s.closer y +
          dues (.undelay x) s.closer y := by
      cases x <;> simp [owed, dues, Registration.secondFailed]
    by_cases hy : y = x
    case pos =>
      subst hy
      have hs := hs.undelay (if y = .b then .newConnection .a else .exchange)
        (by cases y <;> rfl) (by cases y <;> rfl) (by simp) ho
      exact channel_update_self (s := s) (f := fun c => { c with delayDeath := false }) ▸ hs
    case neg =>
      have hc : (s.update x fun c => { c with delayDeath := false }).channel y = s.channel y :=
        Function.update_of_ne hy ..
      refine hc ▸ hs.other id id ?_ ?_ (fun he => by cases he) ho fun z he => hs.close z he
      · cases x <;> cases y <;> rfl
      · cases x <;> cases y <;> first | rfl | exact absurd rfl hy
  accounted := by
    have := accounted_update (x := x) (c := { s.channel x with delayDeath := false }) (d := 0)
      h.accounted (by simp [posts])
    rwa [Int.add_zero] at this

theorem consistent_exchange (h : s.Consistent) (hr : s.registration = .exchange) :
    ({ s with
      state        := if s.state = .registration then .running else s.state
      registration := .done } : Connection α).Consistent where
  global    := {
    running  := fun _ => rfl
    awaiting := fun he => by simp [Registration.awaiting] at he
    closer   := fun hn => by simp [h.global.closer hn]
    closed   := fun he => by
      split at he
      case isTrue  => cases he
      case isFalse =>
        exact .inl ((h.global.closed he).resolve_right (by simp [hr, Registration.awaiting]))
    done     := fun _ => by split <;> simp [*]
    late     := fun _ => rfl }
  sound     := by
    intro y
    obtain ⟨ms, n, hs⟩ := h.sound y
    rw [hr] at hs
    refine ⟨ms, n, hs.other ?_ ?_ rfl rfl (fun _ => rfl) ?_ fun z he => hs.close z he⟩
    · intro hst
      simp [hst]
    · intro _
      split <;> simp [*]
    · simp [owed, dues, Registration.secondFailed]
  accounted := h.accounted

theorem consistent_postDeath (h : s.Consistent) (hr : s.registration = .postDeath) :
    ({ s.postDeath .b with registration := .setClosed .a } : Connection α).Consistent := by
  have hcl : s.closer = .none := by
    apply Classical.byContradiction
    intro hn
    have := h.global.late hn
    simp [hr, Registration.secondFailed] at this
  have hg : Global s.state (.setClosed .a) s.closer :=
    global_of_not_awaiting h (by simp [hr, Registration.awaiting]) (by simp [hr]) rfl (by simp)
      fun hn => absurd hcl hn
  refine ⟨hg, ?_, ?_⟩
  · intro y
    obtain ⟨ms, n, hs⟩ := h.sound y
    rw [hr, hcl] at hs
    refine ⟨ms, n, ?_⟩
    have he : (s.postDeath .b).closer = .none := hcl
    cases y
    case a =>
      rw [channel_postDeath (by decide)]
      refine hs.other id id rfl rfl (fun he => by cases he) ?_ ?_
      · simp [owed, dues, he]
      · intro z hz
        cases he.symm.trans hz
    case b =>
      rw [channel_postDeath_self]
      refine hs.postDeath rfl rfl (fun he => by cases he) ?_ ?_
      · simp [owed, dues, Registration.secondFailed, he]
      · intro z hz
        cases he.symm.trans hz
  · exact accounted_update h.accounted posts_post

theorem consistent_setClosed (h : s.Consistent) (hr : s.registration = .setClosed x) :
    ({ s with state := .closed, registration := .awaitIdle x } : Connection α).Consistent where
  global    := {
    running  := fun he => by cases he
    awaiting := fun _ => rfl
    closer   := fun _ => rfl
    closed   := fun _ => .inr rfl
    done     := fun he => by cases he
    late     := fun hn => by
      have := h.global.late hn
      rw [hr] at this
      cases x
      case a => cases this
      case b => rfl }
  sound     := by
    intro y
    obtain ⟨ms, n, hs⟩ := h.sound y
    rw [hr] at hs
    refine ⟨ms, n, hs.other (fun _ => rfl) (fun _ => by simp) rfl ?_ (fun he => by cases he) ?_
      fun z he => hs.close z he⟩
    · cases x <;> cases y <;> rfl
    · cases x <;> simp [owed, dues, Registration.secondFailed]
  accounted := h.accounted

theorem consistent_failed (h : s.Consistent) (hr : s.registration = .awaitIdle x) :
    ({ s with registration := .failed x } : Connection α).Consistent := by
  have hst := h.global.awaiting (by simp [hr, Registration.awaiting])
  refine consistent_registration h ?_ (by simp [hr]) fun y => ?_
  · exact {
      running  := fun he => by simp [hst] at he
      awaiting := fun _ => hst
      closer   := h.global.closer
      closed   := fun _ => .inr rfl
      done     := fun he => by cases he
      late     := fun hn => by
        have := h.global.late hn
        rw [hr] at this
        cases x
        case a => cases this
        case b => rfl }
  · rw [hr]
    refine ⟨rfl, ?_, ?_⟩
    · cases x <;> cases y <;> rfl
    · cases x <;> simp [owed, dues, Registration.secondFailed]

theorem consistent_register (h : s.Consistent) {throws : Bool}
    (hc : throws = true → s.registration = .newConnection .a ∨ s.registration = .connectionStarted .a →
      s.state ≠ .closed) : (s.register throws).Consistent := by
  rw [register]
  split
  case h_1 x hr =>
    split
    case isTrue ht  => exact consistent_throw h (.inl hr) fun hx => hc ht (.inl (hx ▸ hr))
    case isFalse    =>
      refine consistent_registration h ?_ (by simp [hr]) fun y => ?_
      · exact global_of_not_awaiting h (by simp [hr, Registration.awaiting]) (by simp [hr]) rfl
          (by simp) fun _ => rfl
      · rw [hr]
        refine ⟨rfl, rfl, ?_⟩
        simp [owed, dues, Registration.secondFailed]
  case h_2 x hr =>
    split
    case isTrue ht  => exact consistent_throw h (.inr hr) fun hx => hc ht (.inr (hx ▸ hr))
    case isFalse    => exact consistent_start h hr
  case h_3 x hr => exact consistent_undelay h hr
  case h_4 hr   => exact consistent_exchange h hr
  case h_5 hr   => exact consistent_postDeath h hr
  case h_6 x hr => exact consistent_setClosed h hr
  case h_7 x hr => exact consistent_failed h hr
  case h_8      => exact h
  case h_9      => exact h

-- The connection is not closed before the registration of the second side fails.
def InTime (s : Connection α) : Action α → Prop
  | .register throws   =>
    throws = true → s.registration = .newConnection .a ∨ s.registration = .connectionStarted .a →
      s.state ≠ .closed
  | .postMsg _ _ fails =>
    fails = true → s.registration ≠ .postDeath ∧ s.registration ≠ .setClosed .a
  | .close             => s.registration ≠ .postDeath ∧ s.registration ≠ .setClosed .a
  | _                  => True

theorem secondFailed_eq_false (h : s.Consistent)
    (hr : s.registration ≠ .postDeath ∧ s.registration ≠ .setClosed .a) (hst : s.state ≠ .closed) :
    s.registration.secondFailed = false := by
  have ha : s.registration.awaiting = false := by
    rw [← Bool.not_eq_true]
    exact fun ha => hst (h.global.awaiting ha)
  cases hreg : s.registration
  case postDeath   => exact absurd hreg hr.left
  case setClosed x =>
    cases x
    case a => exact absurd hreg hr.right
    case b => rfl
  case awaitIdle   => simp [hreg, Registration.awaiting] at ha
  case failed      => simp [hreg, Registration.awaiting] at ha
  all_goals rfl

theorem consistent_act {a : Action α} (h : s.Consistent) (he : s.enabled a) (ht : s.InTime a) :
    (s.act a).Consistent := by
  cases a
  case register       => exact consistent_register h ht
  case postMsg m _    =>
    exact consistent_postMsg h m fun hf hst => secondFailed_eq_false h (ht hf) hst
  case begin          => exact consistent_begin h he.left
  case proceed throws => exact consistent_proceed h throws
  case proceedClosing => exact consistent_proceedClosing h
  case close          =>
    refine consistent_close h.global h.sound ?_ (fun _ he => by cases he)
      (secondFailed_eq_false h ht)
    exact h.accounted

theorem consistent_of_reachable (h : ((machine α).restrict InTime).Reachable s) :
    s.Consistent := by
  apply h.preserves
  case hi => exact fun s hi => hi ▸ consistent_new
  case hs =>
    intro s a s' hc he hs
    cases hs
    exact consistent_act hc he.left he.right

-- What the destructor or a failing constructor waits for.
structure Idle (s : Connection α) : Prop where
  state        : s.state = .closed
  registration : s.registration = .done ∨ ∃ x, s.registration = .failed x
  closer       : ∀ y caller, s.closer ≠ .post y caller
  activePosts  : s.activePosts = 0

structure Delivers (s : Connection α) : Prop where
  log        : ∀ x, ∃ ms, ms <+: (s.channel x).sent ∧
    ((s.channel x).log = [] ∨ (s.channel x).log = .started :: ms.map .message ∨
      (s.channel x).log = .started :: ms.map .message ++ [.destroyed])
  registered : ∀ x y m, .message m ∈ (s.channel x).log → .started ∈ (s.channel y).log
  destroyed  : s.Idle → ∀ x, .started ∈ (s.channel x).log → .destroyed ∈ (s.channel x).log

theorem dues_le (hl : cl ≠ .none → r.secondFailed = false) : dues r cl x ≤ 1 := by
  rw [dues]
  by_cases hcl : cl = .none
  case pos =>
    rw [if_pos hcl]
    split <;> omega
  case neg => simp [hcl, hl hcl]

theorem Consistent.le_one {ms : List α} {n : Nat} (h : s.Consistent)
    (hs : (s.channel x).Sound s.state s.registration s.closer x ms n) : n ≤ 1 := by
  have hd := hs.deaths
  have hle := dues_le (x := x) h.global.late
  omega

theorem Consistent.log (h : s.Consistent) (x : Side) : ∃ ms, ms <+: (s.channel x).sent ∧
    ((s.channel x).log = [] ∨ (s.channel x).log = .started :: ms.map .message ∨
      (s.channel x).log = .started :: ms.map .message ++ [.destroyed]) := by
  obtain ⟨ms, n, hs⟩ := h.sound x
  refine ⟨ms, ?_, ?_⟩
  · cases hs.order
    case inl ho => exact ⟨_, ho⟩
    case inr ho => exact ho.right.left
  · rw [hs.log]
    split
    case isFalse => exact .inl rfl
    case isTrue  =>
      have hn := h.le_one hs
      have hn : n = 0 ∨ n = 1 := by omega
      cases hn
      case inl hn => exact .inr (.inl (by simp [hn]))
      case inr hn => exact .inr (.inr (by simp [hn]))

theorem Consistent.registered (h : s.Consistent) {m : α} (hm : .message m ∈ (s.channel x).log)
    (y : Side) : .started ∈ (s.channel y).log := by
  obtain ⟨ms, n, hs⟩ := h.sound x
  obtain ⟨ms', n', hs'⟩ := h.sound y
  have hms : ms ≠ [] := by
    intro he
    rw [hs.log, he] at hm
    split at hm <;> simp at hm
  have hd := hs.running hms
  rw [hs'.log, hd]
  simp [Registration.started]

theorem Consistent.destroyed (h : s.Consistent) (hi : s.Idle)
    (hx : .started ∈ (s.channel x).log) : .destroyed ∈ (s.channel x).log := by
  obtain ⟨ms, n, hs⟩ := h.sound x
  have hst : s.registration.started x = true := by
    rw [hs.log] at hx
    split at hx
    case isTrue h => exact h
    case isFalse  => cases hx
  have hposts : (s.channel x).posts = 0 := by
    have ha := h.accounted
    simp only [Accounted, hi.activePosts] at ha
    cases x <;> omega
  have hdeaths : (s.channel x).deaths = 0 := by
    simp only [posts, Nat.add_eq_zero_iff, List.length_eq_zero_iff,
      Option.toList_eq_nil_iff] at hposts
    simp [Channel.deaths, hposts.left, hposts.right]
  have howed : owed s.registration s.closer x = 0 := by
    have hr : s.registration ≠ .postDeath := by
      cases hi.registration
      case inl hr => simp [hr]
      case inr hr =>
        obtain ⟨_, hr⟩ := hr
        simp [hr]
    cases hcl : s.closer
    case post y caller => exact absurd hcl (hi.closer y caller)
    all_goals simp [owed, hr]
  -- Either somebody has closed the connection or the second side has failed.
  have hdues : dues s.registration s.closer x = 1 := by
    have hle := dues_le (x := x) h.global.late
    cases h.global.closed hi.state
    case inl hcl =>
      simp only [dues, if_neg hcl] at hle ⊢
      omega
    case inr ha =>
      obtain ⟨y, hr⟩ := hi.registration.resolve_left fun hr => by
        simp [hr, Registration.awaiting] at ha
      rw [hr] at hst hle ⊢
      have hy : y = .a ∧ x = .b := by cases x <;> cases y <;> first | exact ⟨rfl, rfl⟩ | cases hst
      simp only [dues, hy.left, hy.right, Registration.secondFailed] at hle ⊢
      simp at hle ⊢
      omega
  have hn : n = 1 := by
    have := hs.deaths
    omega
  rw [hs.log, hst, hn]
  simp

theorem messages_are_delivered (h : ((machine α).restrict InTime).Reachable s) : s.Delivers :=
  have hc := consistent_of_reachable h
  { log        := hc.log
    registered := fun _ y _ hm => hc.registered hm y
    destroyed  := fun hi _ hx => hc.destroyed hi hx }

instance [DecidableEq α] {a : Action α} : Decidable (s.enabled a) := by
  cases a <;> simp only [enabled]
  case register => split <;> infer_instance
  all_goals infer_instance

instance {a : Action α} : Decidable (s.InTime a) := by
  cases a <;> simp only [InTime] <;> infer_instance

instance [DecidableEq α] : ∀ s a, Decidable ((machine α).enabled s a) :=
  fun s a => inferInstanceAs (Decidable (s.enabled a))

instance [DecidableEq α] : ∀ s a, Decidable (((machine α).restrict InTime).enabled s a) :=
  fun s a => inferInstanceAs (Decidable (s.enabled a ∧ s.InTime a))

-- A message is sent while the sides are registered and the connection is closed afterwards.
def sendAndClose : List (Action Nat) :=
  [.postMsg .b 7 false, .begin .b, .proceed .b false] ++ List.replicate 7 (.register false) ++
    List.replicate 3 (.proceed .b false) ++ [.close, .proceedClosing, .proceedClosing] ++
    [.begin .a, .proceed .a false, .begin .b, .proceed .b false]

theorem messages_are_delivered_one :
    ∃ s, ((machine Nat).restrict InTime).run new sendAndClose = some s ∧
      (s.channel .b).log = [.started, .message 7, .destroyed] ∧ s.activePosts = 0 ∧ s.Delivers := by
  have hr : ∀ s, ((machine Nat).restrict InTime).run new sendAndClose = some s →
      ((machine Nat).restrict InTime).Reachable s := fun _ h => .of_run (.init rfl) h
  exact ⟨_, rfl, rfl, rfl, messages_are_delivered (hr _ rfl)⟩

-- The first side gets two notices.
theorem death_is_delivered_twice :
    ¬ ∀ s : Connection Nat, (machine Nat).Reachable s → s.Delivers := by
  intro h
  let actions : List (Action Nat) :=
    [.register false, .postMsg .a 7 true, .register false, .register false, .proceedClosing,
      .proceedClosing, .register true, .register false, .begin .b, .proceed .b false, .begin .b,
      .proceed .b false]
  have hr : ∀ s, (machine Nat).run new actions = some s → (machine Nat).Reachable s :=
    fun _ h => .of_run (.init rfl) h
  obtain ⟨ms, _, hl⟩ := (h _ (hr _ rfl)).log .b
  have he : ([.started, .destroyed, .destroyed] : List (Event Nat)) = [] ∨
      [.started, .destroyed, .destroyed] = .started :: ms.map Event.message ∨
      [.started, .destroyed, .destroyed] = .started :: ms.map Event.message ++ [.destroyed] := hl
  cases ms with
  | nil       => simp at he
  | cons m ms => simp at he

end Yogi.Local.Connection
