import YogiModel.Tcp.Sender

namespace Yogi.Tcp.Sender

open Wire

variable {maxSize capacity : Nat}

-- While there is something to send, it is being sent.
def Sending (s : Sender maxSize) : Prop :=
  s.alive = true → s.outBuffer.contents ≠ [] ∨ s.waiting ≠ [] → s.sendSomeDataRunning = true

-- The socket does not take everything the buffer holds while a call waits to add to it.
def NotDrained (s : Sender maxSize) : Action → Prop
  | .sent bytesSent => s.waiting ≠ [] → bytesSent < s.outBuffer.contents.length
  | _               => True

-- What a call does neither ends the connection nor an operation of the socket.
structure Keeps (s s' : Sender maxSize) : Prop where
  alive   : s'.alive = s.alive
  running : s.sendSomeDataRunning = true → s'.sendSomeDataRunning = true

theorem Keeps.refl {s : Sender maxSize} : s.Keeps s :=
  ⟨rfl, id⟩

theorem Keeps.trans {s₁ s₂ s₃ : Sender maxSize} (h₁ : s₁.Keeps s₂) (h₂ : s₂.Keeps s₃) : s₁.Keeps s₃ :=
  ⟨h₂.alive.trans h₁.alive, h₂.running ∘ h₁.running⟩

theorem write_keeps {s : Sender maxSize} {input} : s.Keeps (s.write input).snd :=
  ⟨rfl, id⟩

theorem block_keeps {s : Sender maxSize} {w} : s.Keeps (s.block w) :=
  ⟨rfl, id⟩

theorem startAsyncSendSomeData_keeps {s : Sender maxSize} : s.Keeps s.startAsyncSendSomeData := by
  refine ⟨?_, fun _ => startAsyncSendSomeData_running⟩
  simp only [startAsyncSendSomeData]
  split <;> rfl

theorem waitMessage_keeps {s s' : Sender maxSize} {it version} (h : s.waitMessage it version = .ok s') :
    s.Keeps s' := by
  simp only [waitMessage] at h
  split at h
  case isTrue  => cases h; exact .refl
  case isFalse =>
    split at h
    case isTrue  => cases h
    case isFalse =>
      cases h
      split
      case isTrue  => exact write_keeps
      case isFalse => exact write_keeps.trans block_keeps

theorem writeMessage_keeps {s s' : Sender maxSize} (h : s.writeMessage = .ok s') :
    s.Keeps s' ∧ s'.sendSomeDataRunning = true := by
  have hw := waitMessage_keeps h
  exact ⟨write_keeps.trans (startAsyncSendSomeData_keeps.trans hw),
    hw.running startAsyncSendSomeData_running⟩

theorem waitHeader_keeps {s s' : Sender maxSize} {it version} (h : s.waitHeader it version = .ok s') :
    s.Keeps s' := by
  simp only [waitHeader] at h
  split at h
  case isTrue  => exact (writeMessage_keeps h).left
  case isFalse =>
    split at h
    case isTrue  => cases h
    case isFalse =>
      split at h
      case isTrue  => exact write_keeps.trans (writeMessage_keeps h).left
      case isFalse =>
        cases h
        exact write_keeps.trans block_keeps

-- The call has nothing to wait for.
theorem waitHeader_running {s s' : Sender maxSize} {version}
    (h : s.waitHeader s.tmpHeaderBuffer.length version = .ok s') : s'.sendSomeDataRunning = true := by
  simp only [waitHeader, List.drop_length, write_fst, List.drop_nil, List.isEmpty_nil] at h
  split at h
  case isTrue  => exact (writeMessage_keeps h).right
  case isFalse =>
    split at h
    case isTrue  => cases h
    case isFalse => exact (writeMessage_keeps h).right

theorem sendMessage_running {s s' : Sender maxSize} {m} (ha : s.alive = true)
    (h : s.sendMessage m = .ok s') : s'.sendSomeDataRunning = true := by
  simp only [sendMessage, ha] at h
  split at h
  case isTrue hf => cases hf
  case isFalse   =>
    split at h
    case isTrue hr  =>
      rw [List.isEmpty_iff.mp hr] at h
      exact waitHeader_running h
    case isFalse hr => exact (waitHeader_keeps h).running startAsyncSendSomeData_running

theorem waitHeartbeat_keeps {s : Sender maxSize} {it} : s.Keeps (s.waitHeartbeat it) := by
  simp only [waitHeartbeat]
  split
  case isTrue  => exact .refl
  case isFalse =>
    split
    case isTrue  => exact write_keeps
    case isFalse => exact write_keeps.trans block_keeps

theorem resume_keeps {s s' : Sender maxSize} {w} (h : s.resume w = .ok s') : s.Keeps s' := by
  cases w
  case header    => exact waitHeader_keeps h
  case message   => exact waitMessage_keeps h
  case heartbeat =>
    cases h
    exact waitHeartbeat_keeps

-- What happens when the socket has sent something.
theorem onSendSomeDataCompleted_eq {s s' : Sender maxSize} {n}
    (h : s.onSendSomeDataCompleted n = .ok s') :
    s'.outBuffer.contents = s.outBuffer.contents.drop n ∧ s'.waiting = s.waiting ∧
    s'.alive = s.alive ∧
    (s'.sendSomeDataRunning = true ↔ s'.outBuffer.contents ≠ []) := by
  simp only [onSendSomeDataCompleted] at h
  split at h
  case h_1 => cases h
  case h_2 b hb =>
    have hc := RingBuffer.commitFirstReadArray_eq hb
    cases he : b.isEmpty
    case true  =>
      have hn := RingBuffer.isEmpty_iff.mp he
      cases hr : s.sendSomeDataRunning
      case false => simp [he, hr, done, assert] at h
      case true  =>
        simp only [he, hr, done] at h
        cases h
        exact ⟨hc, rfl, rfl, by simp [hn]⟩
    case false =>
      have hn : b.contents ≠ [] := fun hn => by simp [RingBuffer.isEmpty_iff.mpr hn] at he
      simp only [he, startAsyncSendSomeData] at h
      cases h
      exact ⟨hc, rfl, rfl, by simp [hn]⟩

theorem Sending.step {s s' : Sender maxSize} {a} (h : s.Sending) (hd : s.NotDrained a)
    (he : s.enabled a) (hs : s.step a = .ok s') : s'.Sending := by
  intro ha hn
  cases a
  case send m        =>
    cases hl : s.alive
    case false => simp only [Sender.step, sendMessage, hl] at hs; cases hs; simp [hl] at ha
    case true  => exact sendMessage_running hl hs
  case sendHeartbeat =>
    cases hs
    exact waitHeartbeat_keeps.running startAsyncSendSomeData_running
  case wake i        =>
    obtain ⟨w, hw⟩ : ∃ w, s.waiting[i]? = some w := ⟨_, List.getElem?_eq_getElem he⟩
    simp only [Sender.step, hw] at hs
    have hk := resume_keeps hs
    exact hk.running (h (hk.alive ▸ ha) (.inr (List.ne_nil_of_length_pos (Nat.zero_lt_of_lt he))))
  case sent n        =>
    obtain ⟨hc, hw, _, hr⟩ := onSendSomeDataCompleted_eq hs
    apply hr.mpr
    cases hn
    case inl hn => exact hn
    case inr hn =>
      have hl := hd (hw ▸ hn)
      rw [hc]
      simpa using hl
  case sendFailed    =>
    cases hs
    cases ha
  case die           =>
    cases hs
    cases ha

-- The state after a message has filled the buffer.
structure Full (m : Outgoing) (s : Sender (capacity + 1)) : Prop where
  alive   : s.alive = true
  length  : s.outBuffer.contents.length = capacity
  readIdx : s.outBuffer.readIdx = 0
  send    : s.send = some capacity
  running : s.sendSomeDataRunning = true
  waiting : s.waiting = [.message (capacity - m.header.length) 1]
  msg     : s.tmpMsgBuffer = m.msg
  version : s.tmpVersion = 1

theorem waitMessage_blocks {s : Sender maxSize} {it} (ha : s.alive = true) (hf : s.free = 0)
    (hn : it < s.tmpMsgBuffer.length) :
    s.waitMessage it s.tmpVersion =
      .ok ((s.write (s.tmpMsgBuffer.drop it)).snd.block (.message it s.tmpVersion)) := by
  have hr : s.tmpMsgBuffer.drop it ≠ [] := by simpa using hn
  simp [waitMessage, ha, hf, hr]

theorem waitMessage_returns {s : Sender maxSize} {i} (ha : s.alive = true)
    (hf : (s.tmpMsgBuffer.drop i).length ≤ s.free) :
    s.waitMessage i s.tmpVersion = .ok (s.write (s.tmpMsgBuffer.drop i)).snd := by
  have hr := List.drop_eq_nil_of_le hf
  simp only [waitMessage, ha, write_fst, hr]
  simp

theorem sendMessage_full {m : Outgoing} (hh : m.header.length ≤ capacity)
    (hl : capacity < m.header.length + m.msg.length) :
    ∃ s, (init capacity).sendMessage m = .ok s ∧ s.Full m := by
  have hf : (init capacity).free = capacity := by simp [free_eq, init]
  let s₁ := (((init capacity).fill m).write m.header).snd
  let s₂ := ((s₁.write []).snd.write m.msg).snd.startAsyncSendSomeData
  have hf₂ : s₂.free = 0 := by
    simp [s₂, s₁, hf]
    omega
  have hm : min m.msg.length (capacity - m.header.length) = capacity - m.header.length := by omega
  have hn : capacity - m.header.length < s₂.tmpMsgBuffer.length := by
    simp [s₂, s₁]
    omega
  have hs : (init capacity).sendMessage m = s₂.waitMessage (capacity - m.header.length) s₂.tmpVersion := by
    rw [sendMessage_eq rfl (hf.symm ▸ hh), writeMessage_eq]
    simp [s₂, s₁, hf, hm]
  rw [waitMessage_blocks rfl hf₂ hn] at hs
  have hl₂ := contents_length_of_free hf₂
  refine ⟨_, hs, ?_⟩
  constructor
  case alive   => rfl
  case length  => simp [hf₂, hl₂]
  case readIdx => simp [s₂, s₁, init, RingBuffer.new]
  case send    =>
    have hr : ((s₁.write []).snd.write m.msg).snd.outBuffer.readIdx = 0 := rfl
    have hl := RingBuffer.firstReadArray_length_of_readIdx hr
    simp only [s₂, startAsyncSendSomeData_outBuffer] at hl₂
    simp only [block_send, write_send, s₂, startAsyncSendSomeData]
    simp only [write_sendSomeDataRunning, s₁]
    exact congrArg some (hl.trans hl₂)
  case running => simp [s₂]
  case waiting => simp [s₂, s₁, init]
  case msg     => simp [s₂, s₁]
  case version => simp [s₂, s₁, init]

theorem Full.sent {m : Outgoing} {s : Sender (capacity + 1)} (h : s.Full m) :
    s.enabled (.sent capacity) ∧ ∃ b, b.contents = [] ∧ s.onSendSomeDataCompleted capacity =
      .ok { s with outBuffer := b, send := none, sendSomeDataRunning := false } := by
  have ha := RingBuffer.firstReadArray_length_of_readIdx h.readIdx
  obtain ⟨b, hb⟩ : ∃ b, s.outBuffer.commitFirstReadArray capacity = some b := by
    simp [RingBuffer.commitFirstReadArray, ha, h.length]
  have hc : b.contents = [] := by
    rw [RingBuffer.commitFirstReadArray_eq hb, List.drop_eq_nil_of_le (Nat.le_of_eq h.length)]
  have he : b.isEmpty = true := RingBuffer.isEmpty_iff.mpr hc
  exact ⟨⟨capacity, h.send, Nat.le_refl _⟩, b, hc,
    by simp [onSendSomeDataCompleted, hb, he, done, h.running, assert]⟩

-- The socket sends everything that is in the buffer, and nobody tells it about the rest.
theorem exists_stranded {m : Outgoing} (hh : m.header.length ≤ capacity)
    (hn : capacity < m.header.length + m.msg.length)
    (hl : m.header.length + m.msg.length ≤ 2 * capacity) :
    ∃ s, (machine capacity).Reachable s ∧ s.alive = true ∧ s.waiting = [] ∧
      s.outBuffer.contents ≠ [] ∧ s.sendSomeDataRunning = false := by
  obtain ⟨s, hs, hf⟩ := sendMessage_full hh hn
  obtain ⟨he, b, hb, hd⟩ := hf.sent
  let s₁ : Sender (capacity + 1) := { s with outBuffer := b, send := none, sendSomeDataRunning := false }
  let rest := m.msg.drop (capacity - m.header.length)
  let s₂ := (({ s₁ with waiting := [] } : Sender (capacity + 1)).write rest).snd
  have hm : rest.length = m.header.length + m.msg.length - capacity := by
    simp only [rest, List.length_drop]
    omega
  have hfree : ({ s₁ with waiting := [] } : Sender (capacity + 1)).free = capacity := by
    simp [free_eq, s₁, hb]
  have he₁ : s₁.enabled (.wake 0) := by simp [enabled, s₁, hf.waiting]
  have hs₁ : s₁.step (.wake 0) = .ok s₂ := by
    have hr : rest.length ≤ capacity := by omega
    have hw := waitMessage_returns (s := { s₁ with waiting := [] }) (i := capacity - m.header.length)
      hf.alive (by rw [hfree]; simpa [s₁, hf.msg, rest] using hr)
    simpa [step, s₁, hf.waiting, resume, hf.version, hf.msg, s₂, rest] using hw
  refine ⟨s₂, ?_, by simpa [s₂, s₁] using hf.alive, by simp [s₂], ?_, by simp [s₂, s₁]⟩
  · have h₀ : (machine capacity).Reachable (init capacity) := .init rfl
    have h₁ : (machine capacity).Reachable s :=
      .step h₀ (show (machine capacity).enabled _ (.send m) from trivial) hs
    have h₂ : (machine capacity).Reachable s₁ :=
      .step h₁ (show (machine capacity).enabled _ (.sent capacity) from he) hd
    exact .step h₂ (show (machine capacity).enabled _ (.wake 0) from he₁) hs₁
  · intro hn
    have := congrArg List.length hn
    simp only [s₂, write_outBuffer, hfree, List.length_append, List.length_take, List.length_nil] at this
    omega

-- A message that is larger than the buffer by a few bytes.
def large : Outgoing where
  typeId := [42]
  msg    := .replicate 65536 0

theorem large_msg : large.msg.length = 65536 :=
  List.length_replicate

theorem large_header : large.header.length = 4 := by
  rw [Outgoing.header_length, large_msg]
  rfl

theorem large_message_stranded :
    ∃ s, (machine ringBufferSize).Reachable s ∧ s.waiting = [] ∧ s.outBuffer.contents ≠ [] ∧
      s.sendSomeDataRunning = false ∧ ¬ s.Sending := by
  have hh : large.header.length ≤ ringBufferSize := by simp [large_header, ringBufferSize]
  obtain ⟨s, hr, ha, hw, hc, hs⟩ := exists_stranded hh (by simp [large_header, large_msg, ringBufferSize])
    (by simp [large_header, large_msg, ringBufferSize])
  exact ⟨s, hr, hw, hc, hs, fun hn => by simp [hn ha (.inl hc)] at hs⟩

-- Bytes are left behind exactly when the socket empties the buffer while a call waits.
theorem no_stranded_bytes :
    (∀ s, ((machine capacity).restrict NotDrained).Reachable s → s.Sending) ∧
    (∀ s a s', (machine capacity).Reachable s → s.enabled a → s.step a = .ok s' → s'.alive = true →
      ¬ s.NotDrained a → ¬ s'.Sending) := by
  constructor
  case left  =>
    intro s h
    induction h
    case init hi => 
      cases hi
      intro _ hn
      simp [init] at hn
    case step he hs ih => exact ih.step he.right he.left hs
  case right =>
    intro s a s' _ _ hs ha hd hn
    cases a
    case sent n =>
      obtain ⟨hc, hw, _, hr⟩ := onSendSomeDataCompleted_eq hs
      simp only [NotDrained, Classical.not_imp, Nat.not_lt] at hd
      have he : s'.outBuffer.contents = [] := hc.trans (List.drop_eq_nil_of_le hd.right)
      exact hr.mp (hn ha (.inr (hw ▸ hd.left))) he
    all_goals exact hd trivial

instance {s : Sender maxSize} {a : Action} : Decidable (s.NotDrained a) :=
  match a with
  | .sent _                                            => inferInstanceAs (Decidable (_ ≠ _ → _ < _))
  | .send _ | .sendHeartbeat | .wake _ | .sendFailed | .die => inferInstanceAs (Decidable True)

instance : ∀ s a, Decidable (((machine capacity).restrict NotDrained).enabled s a) :=
  fun s a => inferInstanceAs (Decidable (s.enabled a ∧ s.NotDrained a))

-- The message is sent in two parts, the first of which makes room for all of it.
def partwise : List Action :=
  [.send ⟨[1], [2, 3, 4]⟩, .sent 2, .wake 0, .sent 1]

theorem no_stranded_bytes_partwise :
    ∃ s, ((machine 4).restrict NotDrained).run (init 4) partwise = some s ∧ s.Sending := by
  obtain ⟨s, hs⟩ := Option.isSome_iff_exists.mp
    (show (((machine 4).restrict NotDrained).run (init 4) partwise).isSome by decide +kernel)
  exact ⟨s, hs, no_stranded_bytes.left s (.of_run (.init rfl) hs)⟩

end Yogi.Tcp.Sender
