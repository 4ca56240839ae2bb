import YogiModel.Base.RingBufferFifo

namespace Yogi.LockFreeRingBuffer

variable {α : Type} {c : RingBufferConfig} {r r' : RingBuffer α c.maxSize.toNat}

-- The array that the producer holds is where the buffer will continue.
structure Draft (r : RingBuffer α c.maxSize.toNat) (span : BufferSpan) (xs : List α) : Prop where
  first : span.first.toNat = r.writeIdx
  size  : span.size.toNat = xs.length
  fits  : xs.length ≤ r.firstWriteArraySize
  cells : ∀ i, (_ : i < xs.length) → r.data (r.writeIdx + i) = xs[i]

-- The array that the consumer holds is where the contents begin.
structure Lent (r : RingBuffer α c.maxSize.toNat) (span : BufferSpan) : Prop where
  first : span.first.toNat = r.readIdx
  fits  : span.size.toNat ≤ r.firstReadArray.length

theorem Draft.of_get {span xs} (h : Draft r span xs) (hw : r'.writeIdx = r.writeIdx)
    (hd : r'.data = r.data) (hf : r.firstWriteArraySize ≤ r'.firstWriteArraySize) :
    Draft r' span xs where
  first := hw ▸ h.first
  size  := h.size
  fits  := h.fits.trans hf
  cells := by
    rw [hw, hd]
    exact h.cells

theorem Lent.of_put {span} (h : Lent r span) (hr : r'.readIdx = r.readIdx)
    (hf : r.firstReadArray.length ≤ r'.firstReadArray.length) : Lent r' span where
  first := hr ▸ h.first
  fits  := h.fits.trans hf

theorem Lent.through {b : LockFreeRingBuffer α} {span} (h : Models c b r) (hl : Lent r span) :
    Sides.through b span = .ok (r.contents.take span.size.toNat) := by
  have := RingBuffer.readIdx_add_firstReadArray (b := r)
  have hf := hl.fits
  rw [← RingBuffer.firstReadArray_take hf, ← hl.first]
  exact h.cells.copyFrom (by
    rw [hl.first]
    omega)

theorem Draft.through {b : LockFreeRingBuffer α} {span xs} (h : Models c b r)
    (hd : Draft r span xs) : Sides.through b span = .ok xs := by
  have := RingBuffer.writeIdx_add_firstWriteArraySize (b := r)
  have hf := hd.fits
  have hs := hd.size
  have hc := h.cells.copyFrom (show span.first.toNat + span.size.toNat ≤ _ by
    rw [hd.first]
    omega)
  rw [Sides.through, hc, hd.first, hs]
  congr 1
  apply List.ext_getElem
  · simp
  · intro i h₁ h₂
    simp [hd.cells i h₂]

-- What the two sides know about the buffer and each other.
structure Agree (c : RingBufferConfig) (s : Sides α × Fifo α)
    (r : RingBuffer α c.maxSize.toNat) : Prop where
  models     : Models c s.fst.buffer r
  queue      : r.contents = s.snd.queue
  writeArray : ∀ span ∈ s.fst.writeArray, ∃ xs, s.snd.draft = some xs ∧ Draft r span xs
  readArray  : ∀ span ∈ s.fst.readArray, s.snd.lent = some span.size.toNat ∧ Lent r span
  history    : s.snd.delivered ++ s.snd.queue = s.snd.accepted

namespace Agree

variable {s : Sides α × Fifo α} {b : LockFreeRingBuffer α}

theorem length_queue (h : Agree c s r) : s.snd.queue.length = r.readAvailable := by
  rw [← h.queue, RingBuffer.contents_length]

theorem queue_le (h : Agree c s r) : s.snd.queue.length ≤ c.ringBufferSize := by
  have := RingBuffer.readAvailable_lt (b := r)
  have := c.maxSize_toNat
  have := h.length_queue
  omega

theorem space (h : Agree c s r) :
    c.ringBufferSize - s.snd.queue.length = r.writeAvailable := by
  have := RingBuffer.writeAvailable_eq (b := r)
  have := c.maxSize_toNat
  have := h.length_queue
  omega

theorem put {xs : List α} (h : Agree c s r) (hm : Models c b r')
    (hc : r'.contents = r.contents ++ xs) (hr : r'.readIdx = r.readIdx)
    (hf : r.firstReadArray.length ≤ r'.firstReadArray.length) :
    Agree c ({ s.fst with buffer := b, writeArray := none }, s.snd.put xs) r' where
  models     := hm
  queue      := by rw [hc, h.queue, Fifo.put]
  writeArray := by simp
  readArray  := by
    intro span hs
    obtain ⟨hl, ha⟩ := h.readArray span hs
    exact ⟨hl, ha.of_put hr hf⟩
  history    := by simp [Fifo.put, ← h.history]

theorem get {n : Nat} (h : Agree c s r) (hm : Models c b r')
    (hc : r'.contents = r.contents.drop n) (hw : r'.writeIdx = r.writeIdx) (hd : r'.data = r.data)
    (hf : r.firstWriteArraySize ≤ r'.firstWriteArraySize) :
    Agree c ({ s.fst with buffer := b, readArray := none }, s.snd.get n) r' where
  models     := hm
  queue      := by rw [hc, h.queue, Fifo.get]
  writeArray := by
    intro span hs
    obtain ⟨xs, hx, ha⟩ := h.writeArray span hs
    exact ⟨xs, hx, ha.of_get hw hd hf⟩
  readArray  := by simp
  history    := by simp [Fifo.get, ← h.history]

theorem advance {n : Nat} {hn} (h : Agree c s r) (hm : Models c b (r.advance n hn))
    (ha : n ≤ r.readAvailable) :
    Agree c ({ s.fst with buffer := b, readArray := none }, s.snd.get n) (r.advance n hn) :=
  h.get hm (RingBuffer.contents_advance ha) rfl rfl (RingBuffer.firstWriteArraySize_advance ha)

theorem init (hi : (s.fst.buffer.writeIdx = 0 ∧ s.fst.buffer.readIdx = 0 ∧
    s.fst.buffer.data.size = c.maxSize.toNat ∧ s.fst.writeArray = none ∧
    s.fst.readArray = none ∧ s.snd = Fifo.new)) : ∃ r, Agree c s r := by
  obtain ⟨hw, hr, hs, hwa, hra, hf⟩ := hi
  have hpos : 0 < c.maxSize.toNat := by simp
  have hsize : 0 < s.fst.buffer.data.size := hs ▸ hpos
  let r : RingBuffer α c.maxSize.toNat := {
    writeIdx := 0
    readIdx  := 0
    data     := fun i => s.fst.buffer.data.getD i (s.fst.buffer.data[0])
    write_lt := hpos
    read_lt  := hpos }
  refine ⟨r, ?models, ?queue, ?writeArray, ?readArray, ?history⟩
  case models =>
    refine ⟨by simp [hw, r], by simp [hr, r], hs, ?_⟩
    intro i hi
    have hi : i < s.fst.buffer.data.size := hs ▸ hi
    simp [r, hi]
  case queue      => simp [RingBuffer.contents, RingBuffer.readAvailable, r, hf, Fifo.new]
  case writeArray => simp [hwa]
  case readArray  => simp [hra]
  case history    => simp [hf, Fifo.new]

-- Both take the step, the queue with the answer of the buffer.
theorem lockstep_step [DecidableEq α] {a : Action α} {s' : Sides α} {f : Fifo α} (ans : Answer α)
    (hs : s.fst.step c a = .ok (ans, s')) (hf : s.snd.step c.ringBufferSize a ans = some f) :
    (lockstep c).step s a = .ok (s', f) := by
  simp only [lockstep, hs, hf]

theorem write [DecidableEq α] (h : Agree c s r) (input : List α) :
    ∃ s', (lockstep c).step s (.write input) = .ok s' ∧ ∃ r', Agree c s' r' := by
  obtain ⟨b, hb, hm⟩ := h.models.write input
  have hn : min input.length (c.ringBufferSize - s.snd.queue.length) =
      min input.length r.writeAvailable := by rw [h.space]
  have ht : input.take r.writeAvailable = input.take (min input.length r.writeAvailable) := by
    by_cases hl : input.length ≤ r.writeAvailable
    · rw [Nat.min_eq_left hl, List.take_length, List.take_of_length_le hl]
    · rw [Nat.min_eq_right (by omega)]
  have hc : (r.write input).snd.contents = r.contents ++ input.take r.writeAvailable :=
    RingBuffer.write_snd
  rw [ht] at hc
  refine ⟨_, lockstep_step (.accepted _) ?_ (if_pos hn.symm), _, h.put hm hc rfl ?_⟩
  · simp only [Sides.step.eq_def, hb, Except.ok_bind, pure, Except.pure]
  · exact RingBuffer.firstReadArray_of_write (Nat.min_le_right ..) rfl rfl

theorem commitFirstWriteArray [DecidableEq α] {n : SizeT} (h : Agree c s r)
    (he : s.fst.enabled (.commitFirstWriteArray n)) :
    ∃ s', (lockstep c).step s (.commitFirstWriteArray n) = .ok s' ∧ ∃ r', Agree c s' r' := by
  obtain ⟨span, hs, hn⟩ := he
  obtain ⟨xs, hx, hd⟩ := h.writeArray span hs
  have hl : n.toNat ≤ xs.length := hd.size ▸ BitVec.le_def.mp hn
  have hlen : (xs.take n.toNat).length = n.toNat := by simp [hl]
  have hf : n.toNat ≤ r.firstWriteArraySize := hl.trans hd.fits
  have hav := hf.trans RingBuffer.firstWriteArraySize_le
  have hmax : n.toNat ≤ c.maxSize.toNat := hav.trans RingBuffer.writeAvailable_le
  obtain ⟨b, hb, hm⟩ := h.models.commitFirstWriteArray hf hmax
  have hc : (r.extend n.toNat hmax).contents = r.contents ++ xs.take n.toNat := by
    apply RingBuffer.contents_extend hlen hf
    intro i hi
    rw [List.getElem_take]
    exact hd.cells i (by omega)
  refine ⟨_, lockstep_step .done ?_ (Option.bind_eq_some_iff.mpr ⟨xs, hx, if_pos hl⟩), _,
    h.put hm hc rfl (RingBuffer.firstReadArray_of_write hav rfl rfl)⟩
  simp only [Sides.step.eq_def, hb, Except.ok_bind, pure, Except.pure]

theorem read [DecidableEq α] (h : Agree c s r) (maxSize : SizeT) :
    ∃ s', (lockstep c).step s (.read maxSize) = .ok s' ∧ ∃ r', Agree c s' r' := by
  obtain ⟨b, hb, hm⟩ := h.models.read maxSize
  have hx : (r.read maxSize.toNat).fst = s.snd.queue.take maxSize.toNat := by
    rw [RingBuffer.read_fst, h.queue]
  refine ⟨_, lockstep_step (.bytes _) ?_ (if_pos hx), _,
    h.get hm (RingBuffer.read_snd ..) rfl rfl RingBuffer.firstWriteArraySize_read⟩
  simp only [Sides.step.eq_def, hb, Except.ok_bind, pure, Except.pure]

theorem frontPop [DecidableEq α] (h : Agree c s r) (he : s.fst.enabled .frontPop) :
    ∃ s', (lockstep c).step s .frontPop = .ok s' ∧ ∃ r', Agree c s' r' := by
  have hn : r.contents ≠ [] := by
    intro hn
    have := h.models.empty.trans (RingBuffer.isEmpty_iff.mpr hn)
    simp [Sides.enabled, this] at he
  obtain ⟨b, hb, hm⟩ := h.models.pop hn
  obtain ⟨x, xs, hx⟩ := List.exists_cons_of_ne_nil hn
  have hq : s.snd.queue = x :: xs := h.queue ▸ hx
  have ha : 1 ≤ r.readAvailable := by simp [← RingBuffer.contents_length, hx]
  have ht : [x] = s.snd.queue.take 1 := by simp [hq]
  refine ⟨_, lockstep_step (.bytes [x]) ?_ (if_pos ⟨List.cons_ne_nil x [], ht⟩), _, h.advance hm ha⟩
  simp only [Sides.step.eq_def, h.models.front, RingBuffer.front_eq hx, hb, Except.ok_bind, pure,
    Except.pure]

theorem commitFirstReadArray [DecidableEq α] {n : SizeT} (h : Agree c s r)
    (he : s.fst.enabled (.commitFirstReadArray n)) :
    ∃ s', (lockstep c).step s (.commitFirstReadArray n) = .ok s' ∧ ∃ r', Agree c s' r' := by
  obtain ⟨span, hs, hn⟩ := he
  obtain ⟨hl, ha⟩ := h.readArray span hs
  have hn : n.toNat ≤ span.size.toNat := BitVec.le_def.mp hn
  have hf := hn.trans ha.fits
  have hav := hf.trans RingBuffer.firstReadArray_length
  have hmax : n.toNat ≤ c.maxSize.toNat := hav.trans (Nat.le_of_lt RingBuffer.readAvailable_lt)
  obtain ⟨b, hb, hm⟩ := h.models.commitFirstReadArray hf hmax
  have ht := Lent.through h.models (show Lent r { span with size := n } from ⟨ha.first, hf⟩)
  have hlen : (s.snd.queue.take n.toNat).length = n.toNat := by
    rw [List.length_take, h.length_queue, Nat.min_eq_left hav]
  refine ⟨_, lockstep_step (.bytes (s.snd.queue.take n.toNat)) ?_
    (Option.bind_eq_some_iff.mpr ⟨_, hl, if_pos ⟨hn, hlen, rfl⟩⟩), _, h.advance hm hav⟩
  simp only [Sides.step.eq_def, Option.mem_def.mp hs, Option.elim_some, ht, hb, h.queue,
    Except.ok_bind, pure, Except.pure]

theorem look [DecidableEq α] (h : Agree c s r) (he : s.fst.enabled .look) :
    ∃ s', (lockstep c).step s .look = .ok s' ∧ ∃ r', Agree c s' r' := by
  obtain ⟨span, hs⟩ := Option.isSome_iff_exists.mp he
  obtain ⟨hl, ha⟩ := h.readArray span hs
  have hlen : (s.snd.queue.take span.size.toNat).length = span.size.toNat := by
    rw [List.length_take, h.length_queue,
      Nat.min_eq_left (ha.fits.trans RingBuffer.firstReadArray_length)]
  refine ⟨s, lockstep_step (.bytes (s.snd.queue.take span.size.toNat)) ?_
    (Option.bind_eq_some_iff.mpr ⟨_, hl, if_pos ⟨hlen, rfl⟩⟩), r, h⟩
  simp only [Sides.step.eq_def, hs, Option.elim_some, ha.through h.models, h.queue, Except.ok_bind,
    pure, Except.pure]

theorem firstReadArray [DecidableEq α] (h : Agree c s r) :
    ∃ s', (lockstep c).step s .firstReadArray = .ok s' ∧ ∃ r', Agree c s' r' := by
  have hs := h.models.firstReadArray
  have ha : Lent r (s.fst.buffer.firstReadArray c) := ⟨h.models.readIdx, Nat.le_of_eq hs⟩
  have hlen : (s.snd.queue.take (s.fst.buffer.firstReadArray c).size.toNat).length =
      (s.fst.buffer.firstReadArray c).size.toNat := by
    rw [List.length_take, h.length_queue,
      Nat.min_eq_left (ha.fits.trans RingBuffer.firstReadArray_length)]
  have hnil : s.snd.queue.take (s.fst.buffer.firstReadArray c).size.toNat = [] ↔
      s.snd.queue = [] := by
    rw [← List.length_eq_zero_iff, hlen, hs, ← List.length_eq_zero_iff, h.length_queue]
    exact RingBuffer.firstReadArray_eq_zero
  refine ⟨({ s.fst with readArray := some (s.fst.buffer.firstReadArray c) },
    { s.snd with lent := some (s.fst.buffer.firstReadArray c).size.toNat }),
    lockstep_step (.bytes (s.snd.queue.take (s.fst.buffer.firstReadArray c).size.toNat)) ?_ ?_, r, ?_⟩
  · simp only [Sides.step.eq_def, ha.through h.models, h.queue, Except.ok_bind, pure, Except.pure]
  · exact (if_pos ⟨by rw [hlen], hnil⟩).trans (by rw [hlen])
  · exact { h with
      readArray := by
        intro span he
        cases he
        exact ⟨rfl, ha⟩ }

theorem fill [DecidableEq α] {i : Nat} {x : α} (h : Agree c s r)
    (he : s.fst.enabled (.fill i x)) :
    ∃ s', (lockstep c).step s (.fill i x) = .ok s' ∧ ∃ r', Agree c s' r' := by
  obtain ⟨span, hs, hi⟩ := he
  obtain ⟨xs, hx, hd⟩ := h.writeArray span hs
  have hl : i < xs.length := hd.size ▸ hi
  have hf := Nat.lt_of_lt_of_le hl hd.fits
  have := RingBuffer.writeIdx_add_firstWriteArraySize (b := r)
  obtain ⟨data, hst, hc⟩ := h.models.cells.store (x := x) (show r.writeIdx + i < _ by omega)
  refine ⟨({ s.fst with buffer := { s.fst.buffer with data := data } },
    { s.snd with draft := some (xs.set i x) }),
    lockstep_step .done ?step (Option.bind_eq_some_iff.mpr ⟨xs, hx, if_pos hl⟩), r.fill i x, ?models,
    ?queue, ?writeArray, ?readArray, h.history⟩
  case step =>
    simp only [Sides.step.eq_def, Option.mem_def.mp hs, Option.elim_some, hd.first, hst,
      Except.ok_bind, pure, Except.pure]
  case models => exact ⟨h.models.writeIdx, h.models.readIdx, hc⟩
  case queue  => exact (RingBuffer.contents_fill_cell hf).trans h.queue
  case writeArray =>
    intro span' hs'
    cases (Option.mem_def.mp hs).symm.trans hs'
    refine ⟨_, rfl, hd.first, by simp [hd.size], by simp only [List.length_set]; exact hd.fits, ?_⟩
    intro j hj
    simp only [List.length_set] at hj
    by_cases he : j = i
    · subst he
      simp [RingBuffer.fill, RingBuffer.copy]
    · have hne : r.writeIdx + j < r.writeIdx + i ∨
          r.writeIdx + i + [x].length ≤ r.writeIdx + j := by
        simp only [List.length_singleton]
        omega
      have hn : i ≠ j := fun e => he e.symm
      simp only [RingBuffer.fill, RingBuffer.copy_of_lt hne, List.getElem_set, hn, if_false]
      exact hd.cells j hj
  case readArray =>
    intro span' hs'
    obtain ⟨hl, ha⟩ := h.readArray span' hs'
    exact ⟨hl, ha.of_put rfl (by simp [RingBuffer.firstReadArray, RingBuffer.fill])⟩

theorem firstWriteArray [DecidableEq α] (h : Agree c s r) :
    ∃ s', (lockstep c).step s .firstWriteArray = .ok s' ∧ ∃ r', Agree c s' r' := by
  have hs := h.models.firstWriteArray
  let xs := (List.range r.firstWriteArraySize).map fun i => r.data (r.writeIdx + i)
  have hlen : xs.length = r.firstWriteArraySize := by simp [xs]
  have hd : Draft r (s.fst.buffer.firstWriteArray c) xs := by
    refine ⟨h.models.writeIdx, hs.trans hlen.symm, Nat.le_of_eq hlen, ?_⟩
    intro i hi
    simp [xs]
  have hle : xs.length ≤ c.ringBufferSize - s.snd.queue.length := by
    rw [hlen, h.space]
    exact RingBuffer.firstWriteArraySize_le
  have hnil : xs = [] ↔ s.snd.queue.length = c.ringBufferSize := by
    have := h.space
    have := h.queue_le
    rw [← List.length_eq_zero_iff, hlen, RingBuffer.firstWriteArraySize_eq_zero]
    omega
  refine ⟨({ s.fst with writeArray := some (s.fst.buffer.firstWriteArray c) },
    { s.snd with draft := some xs }), lockstep_step (.bytes xs) ?_ (if_pos ⟨hle, hnil⟩), r, ?_⟩
  · simp only [Sides.step.eq_def, hd.through h.models, Except.ok_bind, pure, Except.pure]
  · exact { h with
      writeArray := by
        intro span he
        cases he
        exact ⟨xs, rfl, hd⟩ }

end Agree

theorem lockstep_agree [DecidableEq α] :
    (lockstep (α := α) c).Invariant fun s => ∃ r, Agree c s r where
  init := Agree.init
  step := by
    rintro s a ⟨r, h⟩ he
    cases a with
    | write input             => exact h.write input
    | firstWriteArray         => exact h.firstWriteArray
    | fill i x                => exact h.fill he
    | commitFirstWriteArray n => exact h.commitFirstWriteArray he
    | read maxSize            => exact h.read maxSize
    | frontPop                => exact h.frontPop he
    | firstReadArray          => exact h.firstReadArray
    | look                    => exact h.look he
    | commitFirstReadArray n  => exact h.commitFirstReadArray he

-- The arrays handed out are valid however far the other side has gone since.
theorem ring_buffer_refines_fifo [DecidableEq α] {s : Sides α × Fifo α}
    (h : (lockstep c).Reachable s) :
    (∀ a, s.fst.enabled a → ∃ s', (lockstep c).step s a = .ok s') ∧
    s.fst.buffer.writeIdx < c.maxSize ∧ s.fst.buffer.readIdx < c.maxSize ∧
    s.fst.buffer.data.size = c.maxSize.toNat ∧
    s.snd.delivered ++ s.snd.queue = s.snd.accepted ∧
    s.snd.queue.length ≤ c.ringBufferSize ∧
    (s.fst.buffer.empty = true ↔ s.snd.queue = []) ∧
    (s.fst.buffer.full c = true ↔ s.snd.queue.length = c.ringBufferSize) ∧
    (∀ span ∈ s.fst.writeArray, ∃ xs ∈ s.snd.draft, Sides.through s.fst.buffer span = .ok xs ∧
      span.first = (s.fst.buffer.firstWriteArray c).first ∧
      span.size ≤ (s.fst.buffer.firstWriteArray c).size) ∧
    (∀ span ∈ s.fst.readArray,
      Sides.through s.fst.buffer span = .ok (s.snd.queue.take span.size.toNat) ∧
      span.first = (s.fst.buffer.firstReadArray c).first ∧
      span.size ≤ (s.fst.buffer.firstReadArray c).size) := by
  obtain ⟨r, ha⟩ := lockstep_agree.reachable h
  have hm := ha.models
  have hc := c.maxSize_toNat
  have hle := ha.queue_le
  refine ⟨?safe, ?writeIdx, ?readIdx, hm.cells.size, ha.history, hle, ?empty, ?full, ?write, ?read⟩
  case safe     => exact fun a he => lockstep_agree.safe h he
  case writeIdx => exact BitVec.lt_def.mpr (hm.writeIdx ▸ r.write_lt)
  case readIdx  => exact BitVec.lt_def.mpr (hm.readIdx ▸ r.read_lt)
  case empty    => rw [hm.empty, RingBuffer.isEmpty_iff, ha.queue]
  case full     => rw [hm.full, RingBuffer.isFull_iff, ha.queue, hc, Nat.add_sub_cancel]
  case write =>
    intro span hs
    obtain ⟨xs, hx, hd⟩ := ha.writeArray span hs
    refine ⟨xs, hx, hd.through hm, ?_, ?_⟩
    · exact BitVec.eq_of_toNat_eq (hd.first.trans hm.writeIdx.symm)
    · rw [BitVec.le_def, hd.size, hm.firstWriteArray]
      exact hd.fits
  case read =>
    intro span hs
    obtain ⟨_, hl⟩ := ha.readArray span hs
    refine ⟨ha.queue ▸ hl.through hm, ?_, ?_⟩
    · exact BitVec.eq_of_toNat_eq (hl.first.trans hm.readIdx.symm)
    · rw [BitVec.le_def, hm.firstReadArray]
      exact hl.fits

-- A buffer for three bytes whose indexes both run past the end.
theorem ring_buffer_refines_fifo_wrap_around :
    ∃ s, (lockstep ⟨3, by decide⟩).run
        (({ buffer := ⟨0, 0, #[0, 0, 0, 0]⟩, writeArray := none, readArray := none } : Sides Nat),
          Fifo.new)
        [.write [1, 2], .firstReadArray, .firstWriteArray, .fill 0 3, .commitFirstWriteArray 1,
          .look, .commitFirstReadArray 2, .write [4, 5, 6], .firstReadArray] = some s ∧
      s.snd.delivered = [1, 2] ∧ s.snd.queue = [3, 4, 5] ∧ s.fst.buffer.full ⟨3, by decide⟩ := by
  have hr : ((lockstep ⟨3, by decide⟩).run
      (({ buffer := ⟨0, 0, #[0, 0, 0, 0]⟩, writeArray := none, readArray := none } : Sides Nat),
        Fifo.new)
      [.write [1, 2], .firstReadArray, .firstWriteArray, .fill 0 3, .commitFirstWriteArray 1,
        .look, .commitFirstReadArray 2, .write [4, 5, 6], .firstReadArray]).map
        (fun s => (s.snd.delivered, s.snd.queue)) = some ([1, 2], [3, 4, 5]) := by
    decide +kernel
  obtain ⟨s, hs, hp⟩ := Option.map_eq_some_iff.mp hr
  have hq : s.snd.queue = [3, 4, 5] := congrArg Prod.snd hp
  have h := ring_buffer_refines_fifo (Machine.Reachable.of_run (.init (by simp [lockstep, RingBufferConfig.maxSize_toNat])) hs)
  exact ⟨s, hs, congrArg Prod.fst hp, hq, h.2.2.2.2.2.2.2.1.mpr (by simp [hq])⟩

end Yogi.LockFreeRingBuffer
