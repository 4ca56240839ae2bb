import YogiModel.Tcp.ConnectionFactory

namespace Yogi.Tcp.ConnectionFactory

open Wire

-- The whole header of the other side with its version information and its size.
structure Header (received : List Byte) (conn : Connection) (info size : List Byte) : Prop where
  bytes          : received = magicPrefix ++ info ++ size ++ conn.remoteIdentification
  infoLength     : info.length = yogiVersionInfoSize
  version        : conn.remoteVersion = versionOf info
  compatible     : majorMinor conn.remoteVersion = majorMinor yogiVersion
  sizeLength     : size.length = 4
  identification : ntohl size = conn.remoteIdentification.length
  bound          : conn.remoteIdentification.length ≤ yogiMaxTcpIdentificationSize

structure Truthful (s : ConnectionFactory) : Prop where
  atMostOnce : s.completed.length ≤ 1
  once       : s.socket = none → s.timer = false → s.completed.length = 1
  connection : ∀ e conn, (e, conn) ∈ s.completed → (conn.isSome = true ↔ e = .ok)
  header     : ∀ e conn, (e, some conn) ∈ s.completed → ∃ info size, Header s.received conn info size

-- The timer does not fail before there is a result.
def TimerWorks (s : ConnectionFactory) : Action → Prop
  | .timerCompleted ec => ec ≠ none → s.firstResult ≠ none
  | _                  => True

instance {s : ConnectionFactory} {a : Action} : Decidable (s.TimerWorks a) :=
  match a with
  | .timerCompleted ec => inferInstanceAs (Decidable (ec ≠ none → s.firstResult ≠ none))
  | .socketCompleted _ _ | .cancelShakeHands => isTrue trivial

-- What has been received when an operation is pending.
inductive Progress (received version buffer : List Byte) : Operation → Prop
  | sendHeader (hr : received = []) : Progress received version buffer .sendHeader
  | receiveMagicPrefix (hr : received = []) (hb : buffer.length = magicPrefix.length) :
      Progress received version buffer .receiveMagicPrefix
  | receiveVersionInfo (hr : received = magicPrefix) (hb : buffer.length = yogiVersionInfoSize) :
      Progress received version buffer .receiveVersionInfo
  | receiveIdentificationSize {info} (hr : received = magicPrefix ++ info)
      (hi : info.length = yogiVersionInfoSize) (hv : version = versionOf info)
      (hc : majorMinor version = majorMinor yogiVersion) (hb : buffer.length = 4) :
      Progress received version buffer .receiveIdentificationSize
  | receiveIdentificationData {info size} (hr : received = magicPrefix ++ info ++ size)
      (hi : info.length = yogiVersionInfoSize) (hv : version = versionOf info)
      (hc : majorMinor version = majorMinor yogiVersion) (hz : size.length = 4)
      (hn : ntohl size = buffer.length) (hb : buffer.length ≤ yogiMaxTcpIdentificationSize) :
      Progress received version buffer .receiveIdentificationData

inductive Stage (s : ConnectionFactory) : Prop
  | both {op} (hs : s.socket = some op) (ht : s.timer = true) (hf : s.firstResult = none)
      (hc : s.completed = []) (hp : Progress s.received s.remoteVersion s.buffer op)
  -- The socket is done and has canceled the timer.
  | timer {e} (hs : s.socket = none) (ht : s.timer = true) (hf : s.firstResult = some e)
      (hc : s.completed = [])
      (hr : e = .ok → ∃ info size, Header s.received s.makeConnection info size)
  -- The timer has expired and has canceled the socket.
  | socket {op} (hs : s.socket = some op) (ht : s.timer = false) (hf : s.firstResult = some .timeout)
      (hc : s.completed = []) (ha : s.canceled = true)
  | done {e conn} (hs : s.socket = none) (ht : s.timer = false) (hc : s.completed = [(e, conn)])
      (he : conn.isSome = true ↔ e = .ok)
      (hr : ∀ c, conn = some c → ∃ info size, Header s.received c info size)

variable {s s' : ConnectionFactory} {op : Operation} {ec : Option SystemError} {data : List Byte}

theorem Stage.truthful (h : s.Stage) : s.Truthful := by
  cases h
  case both hs ht hf hc hp   => exact ⟨by simp [hc], by simp [hs], by simp [hc], by simp [hc]⟩
  case timer hs ht hf hc hr  => exact ⟨by simp [hc], by simp [ht], by simp [hc], by simp [hc]⟩
  case socket hs ht hf hc ha => exact ⟨by simp [hc], by simp [hs], by simp [hc], by simp [hc]⟩
  case done e conn hs ht hc he hr =>
    refine ⟨by simp [hc], by simp [hc], ?_, ?_⟩
    · intro e' conn' hm
      cases List.mem_singleton.mp (hc ▸ hm)
      exact he
    · intro e' conn' hm
      cases List.mem_singleton.mp (hc ▸ hm)
      exact hr conn' rfl

theorem stage_startAsyncShakeHands {setOption expiresFromNow} :
    (s.startAsyncShakeHands setOption expiresFromNow).Stage := by
  simp only [startAsyncShakeHands]
  split <;> exact .both rfl rfl rfl rfl (.sendHeader rfl)

theorem stage_cancelShakeHands (h : s.Stage) : s.cancelShakeHands.Stage := by
  cases h
  case both hs ht hf hc hp   => exact .both hs ht hf hc hp
  case timer hs ht hf hc hr  => exact .timer hs ht hf hc hr
  case socket hs ht hf hc ha => exact .socket hs ht hf hc rfl
  case done hs ht hc he hr   => exact .done hs ht hc he hr

theorem stage_onTimeout (h : s.Stage) (ht : s.timer = true)
    (hw : s.TimerWorks (.timerCompleted ec)) : ({ s with timer := false }.onTimeout ec).Stage := by
  cases h
  case socket hs ht' _ _ _   => exact absurd ht (by simp [ht'])
  case done hs ht' _ _ _     => exact absurd ht (by simp [ht'])
  case both hs _ hf hc hp =>
    have he : ec = none := Classical.byContradiction fun he => hw he hf
    simp only [onTimeout, hf, he]
    exact .socket hs rfl rfl hc rfl
  case timer e hs _ hf hc hr =>
    simp only [onTimeout, hf, onShakeHandsCompleted, hc, List.nil_append]
    refine .done hs rfl rfl ?_ ?_
    · by_cases he : e = .ok <;> simp [he]
    · intro c hcn
      by_cases he : e = .ok
      case neg => simp [he] at hcn
      case pos =>
        rw [if_pos he] at hcn
        cases hcn
        exact hr he

-- The socket is not used any more.
theorem stage_finish {e} (hs : s.socket = none) (ht : s.timer = true) (hc : s.completed = [])
    (he : e ≠ .ok) : (s.finish e).Stage :=
  .timer hs ht rfl hc fun h => absurd h he

theorem stage_handleProtocolError {e} (hs : s.socket = none) (ht : s.timer = true)
    (hf : s.firstResult = none) (hc : s.completed = []) (he : e ≠ .ok) :
    (s.handleProtocolError e).Stage := by
  simp only [handleProtocolError, hf]
  exact stage_finish hs ht hc he

theorem length_resize {buffer : List Byte} {n : Nat} : (resize buffer n).length = n := by
  simp only [resize, List.length_append, List.length_take, List.length_replicate]
  omega

theorem stage_onSucceeded (hs : s.socket = none) (ht : s.timer = true) (hf : s.firstResult = none)
    (hc : s.completed = []) {buffer : List Byte} {received : List Byte}
    (hp : Progress received s.remoteVersion buffer op)
    (hd : op = .sendHeader ∧ s.received = received ∨
      op ≠ .sendHeader ∧ s.buffer.length = buffer.length ∧ s.received = received ++ s.buffer) :
    (onSucceeded op s).Stage := by
  cases hp
  case sendHeader hr =>
    have hr' := (hd.resolve_right fun h => h.left rfl).right
    exact .both rfl ht hf hc (.receiveMagicPrefix (hr'.trans hr) length_resize)
  case receiveMagicPrefix hr hb =>
    obtain ⟨_, hl, hd⟩ := hd.resolve_left fun h => by cases h.left
    simp only [onSucceeded, onReceiveMagicPrefixSucceeded]
    split
    case isFalse   => exact stage_handleProtocolError hs ht hf hc (by decide)
    case isTrue he =>
      refine .both rfl ht hf hc (.receiveVersionInfo ?_ length_resize)
      exact hd.trans (by rw [hr, he, List.nil_append])
  case receiveVersionInfo hr hb =>
    obtain ⟨_, hl, hd⟩ := hd.resolve_left fun h => by cases h.left
    simp only [onSucceeded, onReceiveVersionInfoSucceeded]
    split
    case isFalse   => exact stage_handleProtocolError hs ht hf hc (by decide)
    case isTrue he =>
      refine .both rfl ht hf hc (.receiveIdentificationSize (hd.trans (by rw [hr])) (hl.trans hb) rfl
        ?_ length_resize)
      simpa [versionsAreCompatible, startAsyncReceive] using he
  case receiveIdentificationSize info hr hi hv hv' hb =>
    obtain ⟨_, hl, hd⟩ := hd.resolve_left fun h => by cases h.left
    simp only [onSucceeded, onReceiveIdentificationSizeSucceeded]
    split
    case isFalse   => exact stage_handleProtocolError hs ht hf hc (by decide)
    case isTrue he =>
      refine .both rfl ht hf hc (.receiveIdentificationData (hd.trans (by rw [hr])) hi hv hv'
        (hl.trans hb) length_resize.symm ?_)
      exact length_resize.le.trans he
  case receiveIdentificationData info size hr hi hv hv' hz hn hb =>
    obtain ⟨_, hl, hd⟩ := hd.resolve_left fun h => by cases h.left
    simp only [onSucceeded, onReceiveIdentificationDataSucceeded, hf]
    refine .timer hs ht rfl hc fun _ => ⟨info, size, ?_⟩
    exact {
      bytes          := hd.trans (by rw [hr]; rfl)
      infoLength     := hi
      version        := hv
      compatible     := hv'
      sizeLength     := hz
      identification := hn.trans hl.symm
      bound          := hl.le.trans hb }

theorem stage_socketCompleted (h : s.Stage) (he : s.enabled (.socketCompleted ec data)) :
    (s.act (.socketCompleted ec data)).Stage := by
  obtain ⟨op, hop, hle, hlen⟩ := he
  simp only [Option.mem_def] at hop
  cases h
  case timer hs _ _ _ _ => simp [hs] at hop
  case done hs _ _ _ _  => simp [hs] at hop
  case socket hs ht hf hc ha =>
    simp only [act, hop, completionHandler, ha, hf, onShakeHandsCompleted, hc]
    exact .done rfl ht rfl (by simp) (by simp)
  case both hs ht hf hc hp =>
    cases hs.symm.trans hop
    simp only [act, hop, completionHandler, hf]
    split
    case isTrue hg =>
      have hec : ec = none := by
        simp only [Bool.and_eq_true, Option.isNone_iff_eq_none] at hg
        exact hg.right
      refine stage_onSucceeded rfl ht rfl hc hp ?_
      have hlen := hlen hec
      by_cases ho : op = .sendHeader
      case pos =>
        have hnil : data = [] := by
          rw [ho] at hlen
          exact List.eq_nil_of_length_eq_zero hlen
        exact .inl ⟨ho, by simp [hnil]⟩
      case neg =>
        have hb : data.length = s.buffer.length := by
          cases op
          case sendHeader => exact absurd rfl ho
          all_goals exact hlen
        exact .inr ⟨ho, by simp [hb], by simp [hb]⟩
    case isFalse =>
      split
      case isTrue  => exact stage_finish rfl ht hc (by decide)
      case isFalse => exact stage_finish rfl ht hc (by decide)

theorem stage_of_reachable (h : (machine.restrict TimerWorks).Reachable s) : s.Stage := by
  apply h.preserves
  case hi =>
    intro s hi
    obtain ⟨s₀, setOption, expiresFromNow, hs⟩ := hi
    exact hs ▸ stage_startAsyncShakeHands
  case hs =>
    intro s a s' hst he hs
    cases hs
    cases a
    case socketCompleted  => exact stage_socketCompleted hst he.left
    case timerCompleted   => exact stage_onTimeout hst he.left he.right
    case cancelShakeHands => exact stage_cancelShakeHands hst

theorem handshake_is_reported_once (h : (machine.restrict TimerWorks).Reachable s) : s.Truthful :=
  (stage_of_reachable h).truthful

def idle : ConnectionFactory where
  firstResult   := none
  remoteVersion := []
  buffer        := []
  canceled      := false
  socket        := none
  timer         := false
  received      := []
  completed     := []

def started : ConnectionFactory :=
  idle.startAsyncShakeHands none none

theorem init_started : machine.init started :=
  ⟨idle, none, none, rfl⟩

instance {s : ConnectionFactory} {a : Action} : Decidable ((machine.restrict TimerWorks).enabled s a) :=
  inferInstanceAs (Decidable (s.enabled a ∧ s.TimerWorks a))

instance {s : ConnectionFactory} {a : Action} : Decidable (machine.enabled s a) :=
  inferInstanceAs (Decidable (s.enabled a))

def wholeHeader : List Action := [
  .socketCompleted none [],
  .socketCompleted none magicPrefix,
  .socketCompleted none (resize yogiVersion yogiVersionInfoSize),
  .socketCompleted none [0, 0, 0, 1],
  .socketCompleted none [42],
  .timerCompleted (some .operationAborted)]

theorem handshake_is_reported_once_ok :
    ∃ s, (machine.restrict TimerWorks).run started wholeHeader = some s ∧
      s.completed = [(.ok, some ⟨yogiVersion, [42]⟩)] ∧ s.Truthful := by
  have hr : ∀ s, (machine.restrict TimerWorks).run started wholeHeader = some s →
      (machine.restrict TimerWorks).Reachable s := fun _ h => .of_run (.init init_started) h
  exact ⟨_, by decide +kernel, by decide +kernel, handshake_is_reported_once (hr _ rfl)⟩

-- A connection is made from what has been received of the header.
theorem timer_error_makes_connection : ¬ ∀ s, machine.Reachable s → s.Truthful := by
  intro h
  let actions : List Action :=
    [.timerCompleted (some .other), .socketCompleted (some .operationAborted) []]
  have hr : ∀ s, machine.run started actions = some s → machine.Reachable s :=
    fun _ h => .of_run (.init init_started) h
  obtain ⟨info, size, hh⟩ := (h _ (hr _ rfl)).header .ok ⟨[], []⟩ List.mem_cons_self
  have hb : [] = magicPrefix ++ info ++ size ++ [] := hh.bytes
  simp [magicPrefix] at hb

end Yogi.Tcp.ConnectionFactory
