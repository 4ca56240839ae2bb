import Mathlib
import YogiModel.Tcp.Receiver

namespace Yogi.Tcp

open Wire

namespace Receiver

variable {maxSize : Nat}

-- How far the first of the frames `rest` has been read, `ahead` being the bytes that come next.
inductive Reading (ahead : List Byte) : Task → Nat → List Byte → List Frame → Prop
  | size {task tmp rest} (ht : task ≠ .payload ∧ task ≠ .forward)
      (hc : canDeserializeSize tmp = false) (h : tmp ++ ahead = Frame.encodeAll rest) :
      Reading ahead task 0 tmp rest
  | sized {f : Frame} {rest} (h : ahead = f.payload ++ Frame.encodeAll rest) :
      Reading ahead .loop 0 (serializeSize f.payload.length) (f :: rest)
  | payload {task n tmp p rest} (ht : task ≠ .forward) (h₀ : n ≠ 0) (hn : n ≤ p.length)
      (hl : tmp.length = p.length) (h : tmp.take (p.length - n) ++ ahead = p ++ Frame.encodeAll rest) :
      Reading ahead task n tmp (.message p :: rest)
  | whole {p rest} (h : ahead = Frame.encodeAll rest) :
      Reading ahead .forward 0 p (.message p :: rest)

theorem Reading.task {ahead task task' n tmp rest} (h : Reading ahead task n tmp rest)
    (ht : task ≠ .loop ∧ task ≠ .forward) (ht' : task' ≠ .payload ∧ task' ≠ .forward) :
    Reading ahead task' n tmp rest := by
  cases h
  case size hc h          => exact .size ht' hc h
  case sized              => exact absurd rfl ht.left
  case payload h₀ hn hl h => exact .payload ht'.right h₀ hn hl h
  case whole              => exact absurd rfl ht.right

-- The frames `done` have been read completely.
structure Stream (done rest : List Frame) (s : Receiver maxSize) : Prop where
  alive     : s.alive = true → s.forwarded = Frame.payloads done
  forwarded : s.forwarded <+: Frame.payloads done
  reading   : Reading (s.inBuffer.contents ++ s.unread) s.task s.remainingPayload s.tmpInBuffer rest

theorem Stream.pop {done rest} {s : Receiver maxSize} (h : s.Stream done rest)
    (ht : s.task = .loop) (hr : s.remainingPayload = 0)
    (hc : canDeserializeSize s.tmpInBuffer = false) {x xs} (hx : s.inBuffer.contents = x :: xs) :
    ∃ s', s.deserialize = .ok s' ∧ s'.Stream done rest := by
  obtain ⟨b, hb, hbc⟩ := RingBuffer.pop_eq hx
  have hf := RingBuffer.front_eq hx
  have he : s.inBuffer.isEmpty = false := by
    rw [← Bool.not_eq_true, RingBuffer.isEmpty_iff, hx]
    simp
  refine ⟨{ s with inBuffer := b, tmpInBuffer := s.tmpInBuffer ++ [x] }, ?_, h.alive, h.forwarded, ?_⟩
  · simp only [deserialize, ht, hr, hc, he, hb, hf, ofPop]
    rfl
  · have hg := h.reading
    rw [hx, ht, hr] at hg
    simp only [hbc, ht, hr]
    generalize s.tmpInBuffer = tmp at hg hc ⊢
    cases hg
    case sized => simp [canDeserializeSize_serializeSize] at hc
    case payload h₀ _ _ _ => exact absurd rfl h₀
    case size h' =>
      cases hn : canDeserializeSize (tmp ++ [x])
      case false => exact .size (by simp) hn (by simpa using h')
      case true  =>
        cases rest
        case nil => simp at h'
        case cons f rest =>
          rw [Frame.encodeAll_cons, Frame.encode, List.append_assoc] at h'
          obtain ⟨y, ys, hy, hd⟩ := next_of_not_canDeserializeSize h' hc
          cases hy
          obtain ⟨hs, ha⟩ := hd hn
          rw [hs]
          exact .sized ha

theorem resize_zero {xs : List Byte} : resize xs 0 = [] := by
  simp [resize]

theorem resize_length {xs : List Byte} {n} : (resize xs n).length = n := by
  simp [resize]
  omega

theorem Stream.parse {done rest} {s : Receiver maxSize} (h : s.Stream done rest)
    (hw : ∀ f ∈ rest, f.WellFormed) (ht : s.task = .loop) (hr : s.remainingPayload = 0)
    (hc : canDeserializeSize s.tmpInBuffer = true) : ∃ s' done' rest', s.deserialize = .ok s' ∧
    s'.Stream done' rest' ∧ done ++ rest = done' ++ rest' := by
  have hg := h.reading
  rw [ht, hr] at hg
  generalize htmp : s.tmpInBuffer = tmp at hg
  cases hg
  case size hc' _ => simp [← htmp, hc] at hc'
  case payload h₀ _ _ _ => exact absurd rfl h₀
  case sized f rest h' =>
    have hn := deserializeSize_size (Frame.payload_length_lt (hw f (by simp)))
    rw [htmp] at hc
    cases f
    case heartbeat =>
      refine ⟨{ s with tmpInBuffer := [] }, done ++ [.heartbeat], rest, ?_,
        ⟨by simpa using h.alive, by simpa using h.forwarded, ?_⟩, by simp⟩
      · simp only [Frame.payload, List.length_nil] at hc hn htmp
        simp only [deserialize, ht, hr, htmp, hc, hn, Option.getD_some, resize_zero]
        cases s
        simp_all
      · simp only [ht, hr]
        exact .size (by simp) (by simp [canDeserializeSize]) (by simpa using h')
    case message p =>
      have hp : p.length ≠ 0 := by
        obtain ⟨hp, _⟩ : Frame.WellFormed (.message p) := hw _ (by simp)
        simpa using hp
      refine ⟨{ s with remainingPayload := p.length, tmpInBuffer := resize s.tmpInBuffer p.length,
                       task := .payload }, done, _, ?_, ⟨h.alive, h.forwarded, ?_⟩, rfl⟩
      · simp only [Frame.payload] at hc hn htmp
        simp only [deserialize, ht, hr, htmp, hc, hn, Option.getD_some, hp]
        rfl
      · exact .payload (by simp) hp (Nat.le_refl _) resize_length (by simpa using h')

theorem Stream.readPayload {done rest} {s : Receiver maxSize} (h : s.Stream done rest)
    (ht : s.task = .payload) : ∃ s', s.deserialize = .ok s' ∧ s'.Stream done rest := by
  have hg := h.reading
  have hx := s.inBuffer.read_fst s.remainingPayload
  have hb := s.inBuffer.read_snd s.remainingPayload
  rw [ht] at hg
  refine ⟨_, by simp only [deserialize, ht]; rfl, ?_⟩
  generalize hr : s.inBuffer.read s.remainingPayload = r at hx hb
  obtain ⟨xs, b⟩ := r
  simp only at hx hb
  generalize hn : s.remainingPayload = n at hg hx hb
  generalize htmp : s.tmpInBuffer = tmp at hg
  cases hg
  case size ht _ _ => simp at ht
  case payload p rest _ h₀ hle hl h' =>
    have hlx : xs.length ≤ n := by simp [hx]
    have hto : (tmp.take (p.length - n)).length = p.length - n := by simp [hl]
    have hcat : tmp.take (p.length - n) ++ xs ++ (b.contents ++ s.unread) = p ++ Frame.encodeAll rest := by
      rw [← h', hx, hb, List.append_assoc, ← List.append_assoc (List.take n _), List.take_append_drop]
    cases Nat.eq_zero_or_pos (n - xs.length)
    case inl hz =>
      have hlen : (tmp.take (p.length - n) ++ xs).length = p.length := by
        rw [List.length_append, hto]
        omega
      obtain ⟨hp, ha⟩ := List.append_inj hcat hlen
      have hd : tmp.drop (p.length - n + xs.length) = [] := List.drop_eq_nil_of_le (by omega)
      refine ⟨h.alive, h.forwarded, ?_⟩
      simp only [hl, hp, hd, hz, List.append_nil]
      exact .whole ha
    case inr hz =>
      refine ⟨h.alive, h.forwarded, ?_⟩
      have hto' : (tmp.take (p.length - n) ++ xs).length = p.length - (n - xs.length) := by
        rw [List.length_append, hto]
        omega
      simp only [hl, hz, if_true]
      apply Reading.payload (by simp) (by omega) (by omega)
      case hl =>
        simp only [List.length_append, List.length_drop, hto]
        omega
      case h =>
        rw [← hto', List.take_left]
        exact hcat

theorem Stream.forward {done rest} {s : Receiver maxSize} (h : s.Stream done rest)
    (ht : s.task = .forward) : ∃ s' done' rest', s.deserialize = .ok s' ∧ s'.Stream done' rest' ∧
    done ++ rest = done' ++ rest' := by
  have hg := h.reading
  rw [ht] at hg
  generalize hn : s.remainingPayload = n at hg
  generalize htmp : s.tmpInBuffer = tmp at hg
  cases hg
  case size ht _ _        => simp at ht
  case payload ht _ _ _ _ => simp at ht
  case whole rest h' =>
    refine ⟨_, done ++ [.message tmp], rest, by simp only [deserialize, ht]; rfl, ?_, by simp⟩
    constructor
    case alive     => exact fun ha => by simp_all [h.alive]
    case reading   => exact hn ▸ .size (by simp) (by simp [canDeserializeSize]) (by simpa using h')
    case forwarded =>
      cases ha : s.alive
      case false => simpa [ha] using h.forwarded.trans (List.prefix_append ..)
      case true  => simp [h.alive ha, htmp]

@[simp] theorem startAsyncReceiveSomeData_inBuffer {s : Receiver maxSize} :
    s.startAsyncReceiveSomeData.inBuffer = s.inBuffer := by
  simp only [startAsyncReceiveSomeData]
  split <;> rfl

-- Whether a deserialization is posted is all that differs.
theorem startAsyncDeserialization_eq {s : Receiver maxSize} :
    s.startAsyncDeserialization =
      { s with task := if s.deserializeRunning || !s.alive then s.task else .posted,
               deserializeRunning := s.deserializeRunning || s.alive } := by
  obtain ⟨alive, _, _, _, _, running, _, _, _, _, _⟩ := s
  cases alive <;> cases running <;> rfl

-- Whether a receive is started is all that differs.
theorem startAsyncReceiveSomeData_eq {s : Receiver maxSize} :
    s.startAsyncReceiveSomeData =
      { s with receive := if s.recvSomeDataRunning then s.receive else some s.inBuffer.firstWriteArraySize,
               recvSomeDataRunning := true } := by
  simp only [startAsyncReceiveSomeData]
  split
  case isTrue h  => simp [← h]
  case isFalse h => rfl

theorem waitForMoreDataToDeserialize_eq {s : Receiver maxSize} :
    s.waitForMoreDataToDeserialize =
      { s with
        receive := if s.recvSomeDataRunning then s.receive else some s.inBuffer.firstWriteArraySize
        recvSomeDataRunning := true
        task := if !s.inBuffer.isEmpty && s.alive then .posted else .idle
        deserializeRunning := !s.inBuffer.isEmpty && s.alive } := by
  simp only [waitForMoreDataToDeserialize, startAsyncReceiveSomeData_eq, startAsyncDeserialization_eq]
  cases s.inBuffer.isEmpty <;> cases s.alive <;> rfl

theorem Stream.deserialize {done rest} {s : Receiver maxSize} (h : s.Stream done rest)
    (hw : ∀ f ∈ rest, f.WellFormed) (hi : s.task ≠ .idle) : ∃ s' done' rest',
    s.deserialize = .ok s' ∧ s'.Stream done' rest' ∧ done ++ rest = done' ++ rest' := by
  cases ht : s.task
  case idle => exact absurd ht hi
  case posted =>
    have hr := h.reading.task (by simp [ht]) (show Task.loop ≠ _ ∧ Task.loop ≠ _ by simp)
    exact ⟨{ s with task := .loop }, done, rest, by simp [Receiver.deserialize, ht],
      ⟨h.alive, h.forwarded, hr⟩, rfl⟩
  case loop =>
    cases Nat.decEq s.remainingPayload 0
    case isFalse hn =>
      have hr := h.reading
      refine ⟨{ s with task := .payload }, done, rest, by simp [Receiver.deserialize, ht, hn],
        ⟨h.alive, h.forwarded, ?_⟩, rfl⟩
      simp only
      generalize s.task = task at hr
      generalize s.remainingPayload = n at hr hn ⊢
      generalize s.tmpInBuffer = tmp at hr ⊢
      cases hr
      case size                => exact absurd rfl hn
      case sized               => exact absurd rfl hn
      case payload h₀ hn hl h' => exact .payload (by simp) h₀ hn hl h'
      case whole               => exact absurd rfl hn
    case isTrue hn =>
      cases hc : canDeserializeSize s.tmpInBuffer
      case true  => exact h.parse hw ht hn hc
      case false =>
        cases hx : s.inBuffer.contents
        case nil =>
          have he : s.inBuffer.isEmpty = true := RingBuffer.isEmpty_iff.mpr hx
          refine ⟨{ s with task := .wait }, done, rest, ?_, ⟨h.alive, h.forwarded, ?_⟩, rfl⟩
          · simp only [Receiver.deserialize, ht, hn, hc, he]
            rfl
          · have hr := h.reading
            rw [hn] at hr
            simp only [hn]
            generalize s.tmpInBuffer = tmp at hr hc ⊢
            generalize htask : s.task = task at hr
            cases hr
            case size hc' h'     => exact .size (by simp) hc' h'
            case sized           => simp [canDeserializeSize_serializeSize] at hc
            case payload h₀ _ _ _ => exact absurd rfl h₀
            case whole           => simp [ht] at htask
        case cons x xs =>
          obtain ⟨s', hs, h'⟩ := h.pop ht hn hc hx
          exact ⟨s', done, rest, hs, h', rfl⟩
  case payload =>
    obtain ⟨s', hs, h'⟩ := h.readPayload ht
    exact ⟨s', done, rest, hs, h', rfl⟩
  case wait =>
    refine ⟨_, done, rest, by simp only [Receiver.deserialize, ht]; rfl, ?_, rfl⟩
    rw [waitForMoreDataToDeserialize_eq]
    refine ⟨h.alive, h.forwarded, h.reading.task (by simp [ht]) ?_⟩
    cases !s.inBuffer.isEmpty && s.alive <;> simp
  case forward => exact h.forward ht

-- The flags agree with what is going on, and something is going on as long as the connection is alive.
structure Wakeup (s : Receiver maxSize) : Prop where
  task      : s.deserializeRunning = true ↔ s.task ≠ .idle
  receive   : s.recvSomeDataRunning = true ↔ s.receive.isSome ∨ s.handler ≠ .none
  exclusive : s.handler ≠ .none → s.receive = none
  size      : ∀ n ∈ s.receive, n ≤ s.inBuffer.firstWriteArraySize
  nonempty  : s.alive = true → s.inBuffer.contents ≠ [] → s.task = .idle → s.handler = .committed
  pending   : s.alive = true → s.task = .idle → s.recvSomeDataRunning = true
  scheduled : s.alive = true → s.handler = .scheduled → s.task ≠ .idle

-- A step that does not end the run keeps everything but the buffer.
theorem Wakeup.keep {s : Receiver maxSize} (h : s.Wakeup) (hi : s.task ≠ .idle)
    {b : RingBuffer Byte maxSize} {task n tmp out} (ht : task ≠ .idle)
    (hb : s.inBuffer.firstWriteArraySize ≤ b.firstWriteArraySize) :
    Wakeup { s with inBuffer := b, task := task, remainingPayload := n, tmpInBuffer := tmp,
                    forwarded := out } where
  task      := by simp [h.task, hi, ht]
  receive   := h.receive
  exclusive := h.exclusive
  size      := fun n hn => (h.size n hn).trans hb
  nonempty  := fun _ _ hi => absurd hi ht
  pending   := fun _ hi => absurd hi ht
  scheduled := fun _ _ => ht

theorem Wakeup.deserialize {s s' : Receiver maxSize} (h : s.Wakeup) (he : s.enabled .deserialize)
    (hs : s.deserialize = .ok s') : s'.Wakeup := by
  cases ht : s.task
  case idle   => exact absurd ht he.left
  case posted =>
    simp only [Receiver.deserialize, ht] at hs
    cases hs
    exact h.keep he.left (by simp) (Nat.le_refl _)
  case loop   =>
    simp only [Receiver.deserialize, ht] at hs
    split at hs
    case isFalse =>
      cases hs
      exact h.keep he.left (by simp) (Nat.le_refl _)
    case isTrue  =>
      split at hs
      case isTrue  =>
        cases hs
        exact h.keep he.left (by split <;> simp) (Nat.le_refl _)
      case isFalse =>
        split at hs
        case isTrue  =>
          cases hs
          exact h.keep he.left (by simp) (Nat.le_refl _)
        case isFalse hb =>
          cases hx : s.inBuffer.contents
          case nil        => exact absurd (RingBuffer.isEmpty_iff.mpr hx) hb
          case cons x xs  =>
            have hl : 1 ≤ s.inBuffer.readAvailable := by simp [← RingBuffer.contents_length, hx]
            simp only [RingBuffer.pop, hb, ofPop] at hs
            cases hs
            exact h.keep he.left (by simp) (RingBuffer.firstWriteArraySize_advance hl)
  case payload =>
    simp only [Receiver.deserialize, ht] at hs
    cases hs
    exact h.keep he.left (by split <;> simp) RingBuffer.firstWriteArraySize_read
  case wait    =>
    have hn := he.right (.inl ht)
    simp only [Receiver.deserialize, ht] at hs
    cases hs
    rw [waitForMoreDataToDeserialize_eq]
    constructor
    case task      => cases !s.inBuffer.isEmpty && s.alive <;> simp
    case receive   =>
      have := h.receive
      cases hc : s.recvSomeDataRunning <;> simp_all
    case exclusive => exact fun hh => absurd hn hh
    case size      =>
      have := h.size
      cases hc : s.recvSomeDataRunning <;> simp_all
    case nonempty  =>
      intro ha hc hi
      simp only at ha hc hi
      have hb : s.inBuffer.isEmpty = false := by
        rw [← Bool.not_eq_true, RingBuffer.isEmpty_iff]
        exact hc
      simp [ha, hb] at hi
    case pending   => exact fun _ _ => rfl
    case scheduled => exact fun _ hh => by simp [hn] at hh
  case forward =>
    simp only [Receiver.deserialize, ht] at hs
    cases hs
    exact h.keep he.left (by simp) (Nat.le_refl _)

theorem Wakeup.handle {s : Receiver maxSize} (h : s.Wakeup) (he : s.handler ≠ .none) :
    ∃ s', s.handle = .ok s' ∧ s'.Wakeup := by
  have hx := h.exclusive he
  have hr := h.receive.mpr (.inr he)
  cases hh : s.handler
  case none      => exact absurd hh he
  case committed =>
    refine ⟨_, by simp only [Receiver.handle, hh]; rfl, ?_⟩
    rw [startAsyncDeserialization_eq]
    have ht := h.task
    constructor
    case task      => cases hd : s.deserializeRunning <;> cases ha : s.alive <;> simp_all
    case receive   => simp [hr]
    case exclusive => exact fun _ => hx
    case size      => exact h.size
    case nonempty  =>
      intro ha _ hi
      cases hd : s.deserializeRunning <;> simp_all
    case pending   => exact fun _ _ => hr
    case scheduled =>
      intro ha _
      cases hd : s.deserializeRunning <;> simp_all
  case scheduled =>
    cases hf : s.inBuffer.isFull
    case true  =>
      refine ⟨_, by simp only [Receiver.handle, hh, hf, Receiver.done, hr]; rfl, ?_⟩
      constructor
      case task      => exact h.task
      case receive   => simp [hx]
      case exclusive => exact fun hn => absurd rfl hn
      case size      => exact h.size
      case nonempty  => exact fun ha _ hi => absurd hi (h.scheduled ha hh)
      case pending   => exact fun ha hi => absurd hi (h.scheduled ha hh)
      case scheduled => exact fun _ hn => by cases hn
    case false =>
      refine ⟨_, by simp only [Receiver.handle, hh, hf]; rfl, ?_⟩
      rw [startAsyncReceiveSomeData_eq]
      constructor
      case task      => exact h.task
      case receive   => simp
      case exclusive => exact fun hn => absurd rfl hn
      case size      => simp
      case nonempty  => exact fun ha _ hi => absurd hi (h.scheduled ha hh)
      case pending   => exact fun _ _ => rfl
      case scheduled => exact fun _ hn => by cases hn

theorem Wakeup.received {s : Receiver maxSize} {chunk} (h : s.Wakeup)
    (he : s.enabled (.received chunk)) : ∃ s', s.onReceiveSomeDataCompleted chunk = .ok s' ∧
    s'.Wakeup ∧ s'.inBuffer.contents = s.inBuffer.contents ++ chunk := by
  obtain ⟨hh, ⟨n, hn, hl⟩, _⟩ := he
  obtain ⟨b, hb, hc⟩ := RingBuffer.commitFirstWriteArray_eq (hl.trans (h.size n hn))
  have hn : s.receive.isSome = true := by simp [Option.mem_def.mp hn]
  refine ⟨{ s with inBuffer := b, unread := s.unread.drop chunk.length, receive := none,
                   handler := .committed }, by simp [onReceiveSomeDataCompleted, hb, ofPop], ?_, hc⟩
  constructor
  case task      => exact h.task
  case receive   => simp [h.receive, hn]
  case exclusive => exact fun _ => rfl
  case size      => simp
  case nonempty  => exact fun _ _ _ => rfl
  case pending   => exact fun _ _ => h.receive.mpr (.inl hn)
  case scheduled => exact fun _ hn => by cases hn

theorem Wakeup.die {s : Receiver maxSize} (h : s.Wakeup) : s.die.Wakeup where
  task      := h.task
  receive   := h.receive
  exclusive := h.exclusive
  size      := h.size
  nonempty  := fun ha => by cases ha
  pending   := fun ha => by cases ha
  scheduled := fun ha => by cases ha

theorem Wakeup.receiveFailed {s : Receiver maxSize} (h : s.Wakeup) (hh : s.handler = .none) :
    Wakeup { s.die with receive := none, recvSomeDataRunning := false } where
  task      := h.task
  receive   := by simp [Receiver.die, hh]
  exclusive := fun _ => rfl
  size      := by simp
  nonempty  := fun ha => by cases ha
  pending   := fun ha => by cases ha
  scheduled := fun ha => by cases ha

theorem Stream.die {done rest} {s : Receiver maxSize} (h : s.Stream done rest) :
    s.die.Stream done rest :=
  ⟨fun ha => (by cases ha), h.forwarded, h.reading⟩

theorem Stream.startAsyncDeserialization {done rest} {s : Receiver maxSize} (h : s.Stream done rest)
    (hw : s.Wakeup) : s.startAsyncDeserialization.Stream done rest := by
  rw [startAsyncDeserialization_eq]
  refine ⟨h.alive, h.forwarded, ?_⟩
  simp only
  split
  case isTrue  => exact h.reading
  case isFalse hd =>
    have hi : s.task = .idle := by
      have := hw.task
      simp_all
    exact h.reading.task (by simp [hi]) (by simp)

theorem Stream.handle {done rest} {s s' : Receiver maxSize} (h : s.Stream done rest) (hw : s.Wakeup)
    (hs : s.handle = .ok s') : s'.Stream done rest := by
  cases hh : s.handler
  case none      =>
    simp only [Receiver.handle, hh] at hs
    cases hs
    exact h
  case committed =>
    simp only [Receiver.handle, hh] at hs
    cases hs
    have := h.startAsyncDeserialization hw
    exact ⟨this.alive, this.forwarded, this.reading⟩
  case scheduled =>
    cases hf : s.inBuffer.isFull
    case true  =>
      cases hr : s.recvSomeDataRunning
      case false => cases hs.symm.trans (by simp [Receiver.handle, hh, hf, Receiver.done, hr, assert]; rfl)
      case true  =>
        simp only [Receiver.handle, hh, hf, Receiver.done, hr] at hs
        cases hs
        exact ⟨h.alive, h.forwarded, h.reading⟩
    case false =>
      simp only [Receiver.handle, hh, hf] at hs
      rw [startAsyncReceiveSomeData_eq] at hs
      cases hs
      exact ⟨h.alive, h.forwarded, h.reading⟩

theorem Stream.received {done rest} {s s' : Receiver maxSize} {chunk} (h : s.Stream done rest)
    (he : chunk <+: s.unread) (hs : s.onReceiveSomeDataCompleted chunk = .ok s')
    (hc : s'.inBuffer.contents = s.inBuffer.contents ++ chunk) : s'.Stream done rest := by
  obtain ⟨ys, hy⟩ := he
  have ha : s'.inBuffer.contents ++ s'.unread = s.inBuffer.contents ++ s.unread := by
    have hu : s'.unread = s.unread.drop chunk.length := by
      simp only [onReceiveSomeDataCompleted, ofPop] at hs
      split at hs <;> cases hs
      rfl
    rw [hc, hu, ← hy, List.drop_left, List.append_assoc]
  have hg := h.reading
  rw [← ha] at hg
  simp only [onReceiveSomeDataCompleted, ofPop] at hs
  split at hs <;> cases hs
  exact ⟨h.alive, h.forwarded, hg⟩

structure Inv (frames : List Frame) (s : Receiver maxSize) : Prop where
  stream : ∃ done rest, frames = done ++ rest ∧ s.Stream done rest
  wakeup : s.Wakeup

variable {capacity : Nat} {frames : List Frame}

theorem inv_init : (init capacity (Frame.encodeAll frames)).Inv frames where
  stream := by
    refine ⟨[], frames, rfl, fun _ => rfl, List.prefix_refl _, ?_⟩
    exact .size (by simp [init, startAsyncReceiveSomeData]) rfl
      (by simp [init, startAsyncReceiveSomeData])
  wakeup := by
    constructor <;> simp [init, startAsyncReceiveSomeData]

theorem Inv.step {s : Receiver maxSize} {a} (h : s.Inv frames) (hw : ∀ f ∈ frames, f.WellFormed)
    (he : s.enabled a) : ∃ s', s.step a = .ok s' ∧ s'.Inv frames := by
  obtain ⟨done, rest, hf, hst⟩ := h.stream
  cases a
  case received chunk =>
    obtain ⟨s', hs, hwk, hc⟩ := h.wakeup.received he
    exact ⟨s', hs, ⟨done, rest, hf, hst.received he.right.right hs hc⟩, hwk⟩
  case receiveFailed  =>
    have := hst.die
    exact ⟨_, rfl, ⟨done, rest, hf, this.alive, this.forwarded, this.reading⟩,
      h.wakeup.receiveFailed he.left⟩
  case handle         =>
    obtain ⟨s', hs, hwk⟩ := h.wakeup.handle he
    exact ⟨s', hs, ⟨done, rest, hf, hst.handle h.wakeup hs⟩, hwk⟩
  case deserialize    =>
    have hr : ∀ f ∈ rest, f.WellFormed := fun f hm => hw f (by simp [hf, hm])
    obtain ⟨s', done', rest', hs, hst', hd⟩ := hst.deserialize hr he.left
    exact ⟨s', hs, ⟨done', rest', hf.trans hd, hst'⟩, h.wakeup.deserialize he hs⟩
  case die            =>
    exact ⟨_, rfl, ⟨done, rest, hf, hst.die⟩, h.wakeup.die⟩

theorem invariant (hw : ∀ f ∈ frames, f.WellFormed) :
    (machine capacity frames).Invariant fun s => s.Inv frames where
  init := by
    rintro _ rfl
    exact inv_init
  step := fun h he => h.step hw he

theorem not_canDeserializeSize_length {n : Nat} {tmp ahead tail : List Byte}
    (h : tmp ++ ahead = serializeSize n ++ tail) (hc : canDeserializeSize tmp = false) :
    tmp.length < (serializeSize n).length := by
  by_contra hl
  have hp := List.prefix_of_prefix_length_le ⟨tail, rfl⟩ ⟨ahead, h⟩ (Nat.le_of_not_lt hl)
  obtain ⟨ys, hy⟩ := hp
  rw [← hy, canDeserializeSize_append, canDeserializeSize_serializeSize] at hc
  cases hc

-- At rest, no frame has been received completely without having been read.
theorem Reading.idle {ahead n tmp rest} (h : Reading ahead .idle n tmp rest) :
    ∃ part, part ++ ahead = Frame.encodeAll rest ∧ ∀ f ∈ rest.head?, part.length < f.encode.length := by
  cases h
  case size hc h =>
    refine ⟨tmp, h, fun f hf => ?_⟩
    cases rest
    case nil => cases hf
    case cons g rest =>
      cases hf
      rw [Frame.encodeAll_cons, Frame.encode, List.append_assoc] at h
      have := not_canDeserializeSize_length h hc
      rw [Frame.encode, List.length_append]
      omega
  case payload p rest _ h₀ hn hl h =>
    refine ⟨serializeSize p.length ++ tmp.take (p.length - n), ?_, fun f hf => ?_⟩
    · rw [List.append_assoc, h]
      simp [Frame.encode]
    · cases hf
      simp only [Frame.encode, Frame.payload_message, List.length_append, List.length_take, hl]
      omega

-- An upper bound for the number of steps that `deserialize` takes until it returns.
def remainingSteps (s : Receiver maxSize) : Nat :=
  8 * s.inBuffer.contents.length +
    match s.task with
    | .idle    => 0
    | .posted  => 5
    | .loop    => if s.remainingPayload = 0 ∧ canDeserializeSize s.tmpInBuffer = false then 1 else 4
    | .payload => 3
    | .wait    => if s.inBuffer.contents = [] then 0 else 6
    | .forward => 2

def Deserializes (s s' : Receiver maxSize) : Prop :=
  s.enabled .deserialize ∧ s.deserialize = .ok s'

theorem Deserializes.handler {s s' : Receiver maxSize} (h : s.Deserializes s') :
    s'.handler = s.handler := by
  obtain ⟨_, hs⟩ := h
  simp only [Receiver.deserialize] at hs
  split at hs
  case h_1 => cases hs; rfl
  case h_2 => cases hs; rfl
  case h_3 =>
    split at hs
    case isTrue  =>
      split at hs
      case isTrue  => cases hs; rfl
      case isFalse =>
        split at hs
        case isTrue  => cases hs; rfl
        case isFalse =>
          cases hp : s.inBuffer.pop <;> simp only [hp, ofPop] at hs <;> cases hs
          rfl
    case isFalse => cases hs; rfl
  case h_4 => cases hs; rfl
  case h_5 =>
    cases hs
    rw [waitForMoreDataToDeserialize_eq]
  case h_6 => cases hs; rfl

theorem Deserializes.remainingSteps_lt {s s' : Receiver maxSize} (h : s.Deserializes s')
    (hi : s'.task ≠ .idle) (hf : s.task = .forward → s.remainingPayload = 0) :
    s'.remainingSteps < s.remainingSteps := by
  obtain ⟨he, hs⟩ := h
  cases ht : s.task
  case idle   => exact absurd ht he.left
  case posted =>
    simp only [Receiver.deserialize, ht] at hs
    cases hs
    simp only [remainingSteps, ht]
    split <;> omega
  case loop =>
    simp only [Receiver.deserialize, ht] at hs
    split at hs
    case isFalse hn =>
      cases hs
      simp [remainingSteps, ht, hn]
    case isTrue hn  =>
      split at hs
      case isTrue hc  =>
        generalize (deserializeSize s.tmpInBuffer).fst.getD s.remainingPayload = n at hs
        have he : canDeserializeSize [] = false := rfl
        cases hs
        cases n
        case zero => simp [remainingSteps, ht, hn, hc, resize_zero, he]
        case succ => simp [remainingSteps, ht, hn, hc]
      case isFalse hc =>
        split at hs
        case isTrue hb  =>
          cases hs
          simp [remainingSteps, ht, hn, hc, RingBuffer.isEmpty_iff.mp hb]
        case isFalse hb =>
          cases hx : s.inBuffer.contents
          case nil       => exact absurd (RingBuffer.isEmpty_iff.mpr hx) hb
          case cons x xs =>
            obtain ⟨b, hp, hxs⟩ := RingBuffer.pop_eq hx
            simp only [hp, ofPop] at hs
            cases hs
            simp only [remainingSteps, ht, hn, hx, hxs, List.length_cons]
            split <;> omega
  case payload =>
    simp only [Receiver.deserialize, ht] at hs
    cases hs
    simp only [remainingSteps, ht, s.inBuffer.read_fst, s.inBuffer.read_snd, List.length_take,
      List.length_drop]
    cases Decidable.em (s.remainingPayload - min s.remainingPayload s.inBuffer.contents.length > 0)
    case inl hn =>
      have : s.inBuffer.contents.drop s.remainingPayload = [] := List.drop_eq_nil_of_le (by omega)
      simp only [hn, this, if_true]
      omega
    case inr hn =>
      simp only [hn, if_false]
      omega
  case wait =>
    simp only [Receiver.deserialize, ht] at hs
    cases hs
    rw [waitForMoreDataToDeserialize_eq] at hi ⊢
    cases hb : s.inBuffer.isEmpty
    case true  => simp [hb] at hi
    case false =>
      have hc : s.inBuffer.contents ≠ [] := fun hc => by
        simp [RingBuffer.isEmpty_iff.mpr hc] at hb
      cases ha : s.alive
      case false => simp [ha] at hi
      case true  => simp [remainingSteps, ht, hc]
  case forward =>
    simp only [Receiver.deserialize, ht] at hs
    cases hs
    simp [remainingSteps, ht, hf ht, canDeserializeSize]

-- A run of `deserialize` comes to an end unless more and more bytes arrive.
theorem Inv.rests {s : Receiver maxSize} (h : s.Inv frames) (hw : ∀ f ∈ frames, f.WellFormed)
    (hh : s.handler = .none) : ∃ s', Relation.ReflTransGen Deserializes s s' ∧ s'.task = .idle := by
  induction hn : s.remainingSteps using Nat.strongRecOn generalizing s
  case ind n ih =>
    cases Decidable.em (s.task = .idle)
    case inl hi => exact ⟨s, .refl, hi⟩
    case inr hi =>
      have he : s.enabled .deserialize := ⟨hi, fun _ => hh⟩
      obtain ⟨s', hs, h'⟩ := h.step hw he
      have hd : s.Deserializes s' := ⟨he, hs⟩
      cases Decidable.em (s'.task = .idle)
      case inl hi' => exact ⟨s', .single hd, hi'⟩
      case inr hi' =>
        obtain ⟨done, rest, _, hst⟩ := h.stream
        have hf (ht : s.task = .forward) : s.remainingPayload = 0 := by
          have hr := hst.reading
          rw [ht] at hr
          generalize s.remainingPayload = z at hr ⊢
          cases hr
          case whole => rfl
          all_goals simp_all
        obtain ⟨s'', hr, hi''⟩ := ih _ (hn ▸ hd.remainingSteps_lt hi' hf) h' (hd.handler.trans hh) rfl
        exact ⟨s'', .head hd hr, hi''⟩

-- Exactly the messages that have been sent arrive, and none of them is left lying in the buffer.
structure Reassembles (frames : List Frame) (s : Receiver maxSize) : Prop where
  safe     : ∀ {a}, s.enabled a → ∃ s', s.step a = .ok s'
  order    : s.forwarded <+: Frame.payloads frames
  nonempty : s.alive = true → s.handler = .none → s.inBuffer.contents ≠ [] → s.task ≠ .idle
  pending  : s.alive = true → s.task = .idle → s.receive.isSome ∨ s.handler ≠ .none
  complete : s.alive = true → s.task = .idle → s.handler = .none → ∃ done rest part,
    frames = done ++ rest ∧ s.forwarded = Frame.payloads done ∧
    part ++ s.unread = Frame.encodeAll rest ∧ ∀ f ∈ rest.head?, part.length < f.encode.length
  rests    : s.handler = .none → ∃ s', Relation.ReflTransGen Deserializes s s' ∧ s'.task = .idle

theorem receiver_reassembles (hw : ∀ f ∈ frames, f.WellFormed) {s}
    (h : (machine capacity frames).Reachable s) : s.Reassembles frames := by
  have hinv := (invariant hw).reachable h
  obtain ⟨done, rest, hf, hst⟩ := hinv.stream
  have hempty (ha : s.alive = true) (ht : s.task = .idle) (hh : s.handler = .none) :
      s.inBuffer.contents = [] := by
    by_contra hc
    have := hinv.wakeup.nonempty ha hc ht
    simp [hh] at this
  constructor
  case safe     =>
    intro a he
    obtain ⟨s', hs, _⟩ := hinv.step hw he
    exact ⟨s', hs⟩
  case order    =>
    rw [hf, Frame.payloads_append]
    exact hst.forwarded.trans (List.prefix_append ..)
  case nonempty => exact fun ha hh hc ht => hc (hempty ha ht hh)
  case pending  => exact fun ha ht => hinv.wakeup.receive.mp (hinv.wakeup.pending ha ht)
  case complete =>
    intro ha ht hh
    have hr := hst.reading
    rw [ht, hempty ha ht hh, List.nil_append] at hr
    obtain ⟨part, hp, hl⟩ := hr.idle
    exact ⟨done, rest, part, hf, hst.alive ha, hp, hl⟩
  case rests    => exact hinv.rests hw

-- What has been forwarded are the messages that have been sent.
theorem Reassembles.deserialize {s : Receiver maxSize} {ms} (h : s.Reassembles frames)
    (hm : List.Forall₂ (fun m w => m.Bounded ∧ Message.payload m = some w) ms (Frame.payloads frames)) :
    ∃ k, List.Forall₂ (fun m w => Message.deserialize w = some (m, [])) (ms.take k) s.forwarded := by
  refine ⟨s.forwarded.length, ?_⟩
  have ht := List.forall₂_take s.forwarded.length hm
  rw [← List.prefix_iff_eq_take.mp h.order] at ht
  refine ht.imp fun m w hw => ?_
  obtain ⟨w', hp, hr⟩ := Message.deserialize_reads hw.left
  cases hw.right.symm.trans hp
  simpa using hr []

-- A message that does not fit into the buffer follows a heartbeat.
def splitFrames : List Frame :=
  [.heartbeat, .message [7, 8, 9]]

def splitRun : List Action :=
  [.received [0, 3], .handle, .handle] ++ .replicate 7 .deserialize ++
  [.received [7], .handle, .deserialize, .handle] ++ .replicate 3 .deserialize ++
  [.received [8], .handle, .handle] ++ .replicate 4 .deserialize ++
  [.received [9], .handle, .handle] ++ .replicate 6 .deserialize

theorem receiver_reassembles_split : ∃ s : Receiver 3,
    (machine 2 splitFrames).run (init 2 (Frame.encodeAll splitFrames)) splitRun = some s ∧
    s.Reassembles splitFrames := by
  obtain ⟨s, hs⟩ := Option.isSome_iff_exists.mp (show
    ((machine 2 splitFrames).run (init 2 (Frame.encodeAll splitFrames)) splitRun).isSome by decide +kernel)
  exact ⟨s, hs, receiver_reassembles (by simp [splitFrames, Frame.WellFormed, sizeLimit])
    (.of_run (.init rfl) hs)⟩

end Receiver

end Yogi.Tcp
