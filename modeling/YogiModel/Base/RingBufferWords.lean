import YogiModel.Base.LockFreeRingBuffer

namespace Yogi.LockFreeRingBuffer

variable {α : Type} {c : RingBufferConfig}

theorem load_eq_ok {data : Array α} {idx x} : load data idx = .ok x ↔ data[idx]? = some x := by
  simp only [load]
  split <;> simp_all

theorem store_eq {data : Array α} {idx x} (h : idx < data.size) :
    store data idx x = .ok (data.set idx x) :=
  dif_pos h

theorem copyFrom_eq {data : Array α} {f : Nat → α} {first n}
    (h : ∀ i < n, data[first + i]? = some (f (first + i))) :
    copyFrom data first n = .ok ((List.range n).map fun i => f (first + i)) := by
  induction n generalizing first
  case zero => rfl
  case succ n ih =>
    have h₀ := load_eq_ok.mpr (h 0 (by omega))
    have hs : ∀ i < n, data[first + 1 + i]? = some (f (first + 1 + i)) := by
      intro i hi
      have := h (i + 1) (by omega)
      rwa [← Nat.add_assoc, Nat.add_right_comm] at this
    simp only [copyFrom, Nat.add_zero] at h₀ ⊢
    simp only [h₀, ih hs, Except.ok_bind, List.range_succ_eq_map, List.map_cons, List.map_map]
    simp [pure, Except.pure, Function.comp_def, Nat.add_assoc, Nat.add_comm 1]

-- The cells as the function that the model with natural numbers uses.
structure Cells (c : RingBufferConfig) (data : Array α) (f : Nat → α) : Prop where
  size : data.size = c.maxSize.toNat
  data : ∀ i < c.maxSize.toNat, data[i]? = some (f i)

theorem Cells.store {data : Array α} {f idx x} (h : Cells c data f) (hi : idx < c.maxSize.toNat) :
    ∃ data', store data idx x = .ok data' ∧ Cells c data' (RingBuffer.copy f idx [x]) := by
  have hd : idx < data.size := by
    rw [h.size]
    exact hi
  refine ⟨data.set idx x, store_eq hd, ?size, ?data⟩
  case size => simp [h.size]
  case data =>
    intro i hm
    rw [Array.getElem?_set hd]
    by_cases he : idx = i
    · subst he
      simp [RingBuffer.copy]
    · rw [RingBuffer.copy_of_lt (by simp; omega)]
      simp [he, h.data i hm]

theorem copy_cons {f : Nat → α} {idx x xs} :
    RingBuffer.copy (RingBuffer.copy f idx [x]) (idx + 1) xs = RingBuffer.copy f idx (x :: xs) := by
  funext i
  by_cases h₀ : i < idx
  · rw [RingBuffer.copy_of_lt (.inl (by omega)), RingBuffer.copy_of_lt (.inl h₀),
      RingBuffer.copy_of_lt (.inl h₀)]
  · obtain ⟨j, rfl⟩ := Nat.exists_eq_add_of_le (Nat.le_of_not_lt h₀)
    cases j
    case zero => simp [RingBuffer.copy]
    case succ j =>
      have : idx + (j + 1) - (idx + 1) = j := by omega
      simp [RingBuffer.copy, this]

theorem Cells.copyTo {data : Array α} {f idx xs} (h : Cells c data f)
    (hi : idx + xs.length ≤ c.maxSize.toNat) :
    ∃ data', copyTo data idx xs = .ok data' ∧ Cells c data' (RingBuffer.copy f idx xs) := by
  induction xs generalizing data f idx
  case nil =>
    refine ⟨data, rfl, h.size, ?_⟩
    intro i hm
    rw [RingBuffer.copy_of_lt (by simp; omega), h.data i hm]
  case cons x xs ih =>
    simp only [List.length_cons] at hi
    obtain ⟨data₁, hs, h₁⟩ := h.store (x := x) (show idx < c.maxSize.toNat by omega)
    obtain ⟨data₂, hc, h₂⟩ := ih h₁ (show idx + 1 + xs.length ≤ _ by omega)
    refine ⟨data₂, ?_, copy_cons ▸ h₂⟩
    rw [LockFreeRingBuffer.copyTo, hs, Except.ok_bind, hc]

theorem Cells.copyFrom {data : Array α} {f first n} (h : Cells c data f)
    (hn : first + n ≤ c.maxSize.toNat) :
    copyFrom data first n = .ok ((List.range n).map fun i => f (first + i)) :=
  copyFrom_eq fun _ hi => h.data _ (by omega)

-- The words of `b` stand for the numbers of `r`.
structure Models (c : RingBufferConfig) (b : LockFreeRingBuffer α)
    (r : RingBuffer α c.maxSize.toNat) : Prop where
  writeIdx : b.writeIdx.toNat = r.writeIdx
  readIdx  : b.readIdx.toNat = r.readIdx
  cells    : Cells c b.data r.data

namespace Models

variable {b : LockFreeRingBuffer α} {r : RingBuffer α c.maxSize.toNat}

theorem readAvailable (h : Models c b r) :
    (readAvailable c b.writeIdx b.readIdx).toNat = r.readAvailable := by
  have := c.fits
  have := h.writeIdx
  have := h.readIdx
  have := r.write_lt
  have := r.read_lt
  have := c.maxSize_toNat
  simp only [LockFreeRingBuffer.readAvailable, RingBuffer.readAvailable, ge_iff_le, BitVec.le_def]
  split <;> split <;> bv_omega

-- The subtraction underflows if and only if the array's size is added afterwards.
theorem writeAvailable (h : Models c b r) :
    (writeAvailable c b.writeIdx b.readIdx).toNat = r.writeAvailable := by
  have := c.fits
  have := h.writeIdx
  have := h.readIdx
  have := r.write_lt
  have := r.read_lt
  have := c.maxSize_toNat
  simp only [LockFreeRingBuffer.writeAvailable, RingBuffer.writeAvailable, ge_iff_le, BitVec.le_def]
  split <;> split <;> bv_omega

theorem read (h : Models c b r) (maxSize : SizeT) :
    ∃ b', b.read c maxSize = .ok ((r.read maxSize.toNat).fst, b') ∧
      Models c b' (r.read maxSize.toNat).snd := by
  have := c.fits
  have hw := h.writeIdx
  have hr := h.readIdx
  have := r.write_lt
  have := r.read_lt
  have := c.maxSize_toNat
  have ha := h.readAvailable
  have hlt := r.readAvailable_lt
  have hm : (maxSize.min (LockFreeRingBuffer.readAvailable c b.writeIdx b.readIdx)).toNat =
      min maxSize.toNat r.readAvailable := by
    simp only [SizeT.min, BitVec.lt_def, ha]
    split <;> omega
  simp only [LockFreeRingBuffer.read]
  split
  case isTrue h₀ =>
    have hz : r.readAvailable = 0 := by simp [← ha, h₀]
    refine ⟨b, ?_, ?_⟩
    · simp [RingBuffer.read_fst, List.length_eq_zero_iff.mp (r.contents_length.trans hz)]
    · refine ⟨hw, ?_, h.cells⟩
      simp [RingBuffer.read, hz, RingBuffer.advance, RingBuffer.wrap, hr]
      omega
  case isFalse h₀ =>
    generalize maxSize.min (LockFreeRingBuffer.readAvailable c b.writeIdx b.readIdx) = k at hm
    have hk : k.toNat ≤ r.readAvailable := by omega
    simp only [RingBuffer.read, ← hm]
    split
    case isTrue hgt =>
      have hgt' : r.readIdx + k.toNat > c.maxSize.toNat := by bv_omega
      have h₁ := h.cells.copyFrom
        (show b.readIdx.toNat + (c.maxSize.toNat - b.readIdx.toNat) ≤ _ by omega)
      have hc : (k - (c.maxSize - b.readIdx)).toNat = k.toNat - (c.maxSize.toNat - r.readIdx) := by
        bv_omega
      have h₂ := h.cells.copyFrom
        (show 0 + (k - (c.maxSize - b.readIdx)).toNat ≤ _ by omega)
      refine ⟨{ b with readIdx := b.readIdx + k - c.maxSize }, ?_, hw, ?_, h.cells⟩
      · simp only [hr, hc] at h₁ h₂
        simp only [hr, hc, h₁, h₂, Except.ok_bind, pure, Except.pure, hgt', if_true, Nat.zero_add]
      · simp only [RingBuffer.advance, RingBuffer.wrap, Nat.le_of_lt hgt', if_true]
        bv_omega
    case isFalse hgt =>
      have hgt' : ¬ r.readIdx + k.toNat > c.maxSize.toNat := by bv_omega
      have h₁ := h.cells.copyFrom (show b.readIdx.toNat + k.toNat ≤ _ by omega)
      refine ⟨{ b with readIdx := if b.readIdx + k = c.maxSize then 0 else b.readIdx + k },
        ?_, hw, ?_, h.cells⟩
      · simp only [hr] at h₁
        simp only [hr, h₁, Except.ok_bind, pure, Except.pure, hgt', if_false]
      · simp only [RingBuffer.advance, RingBuffer.wrap]
        split <;> split <;> bv_omega

theorem write (h : Models c b r) (input : List α) :
    ∃ b', b.write c input = .ok (min input.length r.writeAvailable, b') ∧
      Models c b' (r.write input).snd := by
  have := c.fits
  have hw := h.writeIdx
  have hr := h.readIdx
  have := r.write_lt
  have := r.read_lt
  have := c.maxSize_toNat
  have ha := h.writeAvailable
  have hlt := r.writeAvailable_eq
  simp only [LockFreeRingBuffer.write]
  split
  case isTrue h₀ =>
    have hz : r.writeAvailable = 0 := by simp [← ha, h₀]
    refine ⟨b, by simp [hz], ?_, hr, ?_⟩
    · simp [RingBuffer.write, hz, RingBuffer.wrap, hw]
      omega
    · have hc : (r.write input).snd.data = r.data := by
        funext i
        simp only [RingBuffer.write, hz, Nat.min_zero, List.take_zero, Nat.add_zero]
        split
        case isTrue  => omega
        case isFalse => exact RingBuffer.copy_of_lt (by simp; omega)
      exact hc ▸ h.cells
  case isFalse h₀ =>
    rw [ha]
    have hm : (BitVec.ofNat 64 (min input.length r.writeAvailable)).toNat =
        min input.length r.writeAvailable := by
      rw [BitVec.toNat_ofNat]
      exact Nat.mod_eq_of_lt (by omega)
    generalize BitVec.ofNat 64 (min input.length r.writeAvailable) = k at hm
    have hk : k.toNat ≤ r.writeAvailable := by omega
    simp only [RingBuffer.write, ← hm]
    split
    case isTrue hgt =>
      have hgt' : r.writeIdx + k.toNat > c.maxSize.toNat := by bv_omega
      have hc : (c.maxSize - b.writeIdx).toNat = c.maxSize.toNat - r.writeIdx := by bv_omega
      have hl₁ : b.writeIdx.toNat + (input.take (c.maxSize - b.writeIdx).toNat).length ≤
          c.maxSize.toNat := by
        simp only [List.length_take]
        omega
      have hl₂ : 0 + ((input.take k.toNat).drop (c.maxSize - b.writeIdx).toNat).length ≤
          c.maxSize.toNat := by
        simp only [List.length_take, List.length_drop]
        omega
      obtain ⟨data₁, h₁, hc₁⟩ := h.cells.copyTo hl₁
      obtain ⟨data₂, h₂, hc₂⟩ := hc₁.copyTo hl₂
      refine ⟨{ b with writeIdx := b.writeIdx + k - c.maxSize, data := data₂ }, ?_, ?_, hr, ?_⟩
      · simp only [h₁, h₂, Except.ok_bind, pure, Except.pure]
      · simp only [RingBuffer.wrap, Nat.le_of_lt hgt', if_true]
        bv_omega
      · simp only [hgt', if_true]
        rwa [hc, hw] at hc₂
    case isFalse hgt =>
      have hgt' : ¬ r.writeIdx + k.toNat > c.maxSize.toNat := by bv_omega
      have hl : b.writeIdx.toNat + (input.take k.toNat).length ≤ c.maxSize.toNat := by
        simp only [List.length_take]
        omega
      obtain ⟨data₁, h₁, hc₁⟩ := h.cells.copyTo hl
      refine ⟨{ b with
        writeIdx := if b.writeIdx + k = c.maxSize then 0 else b.writeIdx + k,
        data := data₁ }, ?_, ?_, hr, ?_⟩
      · simp only [h₁, Except.ok_bind, pure, Except.pure]
      · simp only [RingBuffer.wrap]
        split <;> split <;> bv_omega
      · simp only [hgt', if_false]
        rwa [hw] at hc₁

theorem empty (h : Models c b r) : b.empty = r.isEmpty := by
  have := h.writeIdx
  have := h.readIdx
  rw [Bool.eq_iff_iff]
  simp only [LockFreeRingBuffer.empty, RingBuffer.isEmpty, beq_iff_eq]
  constructor <;> intro he <;> bv_omega

theorem full (h : Models c b r) : b.full c = r.isFull := by
  have := h.writeAvailable
  rw [Bool.eq_iff_iff]
  simp only [LockFreeRingBuffer.full, RingBuffer.isFull, beq_iff_eq]
  constructor <;> intro he <;> bv_omega

theorem front (h : Models c b r) : b.front = .ok r.front := by
  have := h.cells.data r.readIdx r.read_lt
  exact load_eq_ok.mpr (h.readIdx ▸ this)

theorem pop (h : Models c b r) (hn : r.contents ≠ []) :
    ∃ b', b.pop c = .ok b' ∧ Models c b' (r.advance 1 (Nat.one_le_of_lt r.read_lt)) := by
  have := c.fits
  have := h.readIdx
  have := r.read_lt
  have := c.maxSize_toNat
  have he : r.isEmpty = false := by
    rw [← Bool.not_eq_true, RingBuffer.isEmpty_iff]
    exact hn
  refine ⟨{ b with readIdx := nextIndex c b.readIdx }, ?_, h.writeIdx, ?_, h.cells⟩
  · simp [LockFreeRingBuffer.pop, h.empty, he]
  · simp only [nextIndex, RingBuffer.advance, RingBuffer.wrap]
    split <;> split <;> bv_omega

theorem firstReadArray (h : Models c b r) :
    (b.firstReadArray c).size.toNat = r.firstReadArray.length := by
  have := c.fits
  have := h.writeIdx
  have := h.readIdx
  have := r.write_lt
  have := r.read_lt
  have := c.maxSize_toNat
  simp only [LockFreeRingBuffer.firstReadArray, RingBuffer.firstReadArray, List.length_map,
    List.length_range]
  split <;> split <;> bv_omega

theorem commitFirstReadArray (h : Models c b r) {n : SizeT}
    (hn : n.toNat ≤ r.firstReadArray.length) (hm : n.toNat ≤ c.maxSize.toNat) :
    ∃ b', b.commitFirstReadArray c n = .ok b' ∧ Models c b' (r.advance n.toNat hm) := by
  have := c.fits
  have := h.writeIdx
  have := h.readIdx
  have := r.write_lt
  have := r.read_lt
  have := c.maxSize_toNat
  have hf := h.firstReadArray
  refine ⟨_, if_pos (by bv_omega), h.writeIdx, ?_, h.cells⟩
  simp only [RingBuffer.firstReadArray, List.length_map, List.length_range] at hn
  simp only [RingBuffer.advance, RingBuffer.wrap]
  split at hn <;> split <;> split <;> bv_omega

theorem firstWriteArray (h : Models c b r) :
    (b.firstWriteArray c).size.toNat = r.firstWriteArraySize := by
  have := c.fits
  have := h.writeIdx
  have := h.readIdx
  have := r.write_lt
  have := r.read_lt
  have := c.maxSize_toNat
  simp only [LockFreeRingBuffer.firstWriteArray, RingBuffer.firstWriteArraySize]
  split <;> split <;> (try split) <;> (try split) <;> bv_omega

theorem commitFirstWriteArray (h : Models c b r) {n : SizeT}
    (hn : n.toNat ≤ r.firstWriteArraySize) (hm : n.toNat ≤ c.maxSize.toNat) :
    ∃ b', b.commitFirstWriteArray c n = .ok b' ∧ Models c b' (r.extend n.toNat hm) := by
  have := c.fits
  have := h.writeIdx
  have := r.write_lt
  have := c.maxSize_toNat
  have hf := h.firstWriteArray
  refine ⟨_, if_pos (by bv_omega), ?_, h.readIdx, h.cells⟩
  simp only [RingBuffer.extend, RingBuffer.wrap]
  split <;> split <;> bv_omega

end Models

end Yogi.LockFreeRingBuffer
