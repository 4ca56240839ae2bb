import Mathlib

-- The class `LockFreeRingBuffer`: one of the `maxSize` cells always stays empty.
structure RingBuffer (α : Type) (maxSize : Nat) where
  writeIdx : Nat
  readIdx  : Nat
  data     : Nat → α
  write_lt : writeIdx < maxSize
  read_lt  : readIdx < maxSize

namespace RingBuffer

variable {α : Type} {maxSize : Nat}

def new [Inhabited α] (h : 0 < maxSize) : RingBuffer α maxSize where
  writeIdx := 0
  readIdx  := 0
  data     := fun _ => default
  write_lt := h
  read_lt  := h

def readAvailable (b : RingBuffer α maxSize) : Nat :=
  if b.writeIdx ≥ b.readIdx then b.writeIdx - b.readIdx else b.writeIdx + maxSize - b.readIdx

-- The source subtracts first; the unsigned wrap-around cancels out.
def writeAvailable (b : RingBuffer α maxSize) : Nat :=
  if b.writeIdx ≥ b.readIdx then
    b.readIdx + maxSize - b.writeIdx - 1
  else
    b.readIdx - b.writeIdx - 1

def isEmpty (b : RingBuffer α maxSize) : Bool :=
  b.writeIdx == b.readIdx

def isFull (b : RingBuffer α maxSize) : Bool :=
  b.writeAvailable == 0

-- What the buffer holds, oldest first.
def contents (b : RingBuffer α maxSize) : List α :=
  (List.range b.readAvailable).map fun i => b.data ((b.readIdx + i) % maxSize)

-- Copies a sequence to consecutive cells.
def copy (data : Nat → α) (idx : Nat) (xs : List α) : Nat → α :=
  fun i => if idx ≤ i then xs.getD (i - idx) (data i) else data i

-- Index arithmetic of all operations: an index that runs past the end continues at the beginning.
def wrap (maxSize idx : Nat) : Nat :=
  if idx ≥ maxSize then idx - maxSize else idx

theorem wrap_lt {idx n} (h : idx < maxSize) (hn : n ≤ maxSize) : wrap maxSize (idx + n) < maxSize := by
  simp only [wrap]
  split <;> omega

def front (b : RingBuffer α maxSize) : α :=
  b.data b.readIdx

def advance (b : RingBuffer α maxSize) (n : Nat) (h : n ≤ maxSize) : RingBuffer α maxSize :=
  { b with readIdx := wrap maxSize (b.readIdx + n), read_lt := wrap_lt b.read_lt h }

theorem readAvailable_lt {b : RingBuffer α maxSize} : b.readAvailable < maxSize := by
  have := b.write_lt
  have := b.read_lt
  simp only [readAvailable]
  split <;> omega

theorem writeAvailable_eq {b : RingBuffer α maxSize} :
    b.writeAvailable = maxSize - 1 - b.readAvailable := by
  have := b.write_lt
  have := b.read_lt
  simp only [writeAvailable, readAvailable]
  split <;> omega

-- `none` where the assertion fails.
def pop (b : RingBuffer α maxSize) : Option (RingBuffer α maxSize) :=
  if b.isEmpty then none else some (b.advance 1 (Nat.one_le_of_lt b.read_lt))

def read (b : RingBuffer α maxSize) (count : Nat) : List α × RingBuffer α maxSize :=
  let n := min count b.readAvailable
  let xs :=
    if b.readIdx + n > maxSize then
      let count0 := maxSize - b.readIdx
      (List.range count0).map (fun i => b.data (b.readIdx + i))
        ++ (List.range (n - count0)).map b.data
    else
      (List.range n).map (fun i => b.data (b.readIdx + i))
  (xs, b.advance n (Nat.le_trans (Nat.min_le_right ..) (Nat.le_of_lt readAvailable_lt)))

def firstReadArray (b : RingBuffer α maxSize) : List α :=
  let n := if b.writeIdx < b.readIdx then maxSize - b.readIdx else b.writeIdx - b.readIdx
  (List.range n).map fun i => b.data (b.readIdx + i)

def firstWriteArraySize (b : RingBuffer α maxSize) : Nat :=
  if b.writeIdx < b.readIdx then
    b.readIdx - b.writeIdx - 1
  else
    maxSize - b.writeIdx - (if b.readIdx = 0 then 1 else 0)

theorem firstReadArray_length {b : RingBuffer α maxSize} :
    b.firstReadArray.length ≤ b.readAvailable := by
  have := b.write_lt
  have := b.read_lt
  simp only [firstReadArray, readAvailable, List.length_map, List.length_range]
  split <;> split <;> omega

def commitFirstReadArray (b : RingBuffer α maxSize) (n : Nat) : Option (RingBuffer α maxSize) :=
  if h : n ≤ b.firstReadArray.length then
    some (b.advance n (Nat.le_trans h (Nat.le_trans firstReadArray_length (Nat.le_of_lt readAvailable_lt))))
  else
    none

theorem firstWriteArraySize_le {b : RingBuffer α maxSize} :
    b.firstWriteArraySize ≤ b.writeAvailable := by
  have := b.write_lt
  have := b.read_lt
  simp only [firstWriteArraySize, writeAvailable]
  split <;> split <;> try split
  all_goals omega

theorem writeAvailable_le {b : RingBuffer α maxSize} : b.writeAvailable ≤ maxSize := by
  have := writeAvailable_eq (b := b)
  omega

-- The operating system has put `xs` into the first write array.
def commitFirstWriteArray (b : RingBuffer α maxSize) (xs : List α) : Option (RingBuffer α maxSize) :=
  if h : xs.length ≤ b.firstWriteArraySize then
    some { b with
      writeIdx := wrap maxSize (b.writeIdx + xs.length)
      data     := copy b.data b.writeIdx xs
      write_lt := wrap_lt b.write_lt (h.trans (firstWriteArraySize_le.trans writeAvailable_le)) }
  else
    none

-- Writes as much of the input as fits and returns the rest of it.
def write (b : RingBuffer α maxSize) (input : List α) : List α × RingBuffer α maxSize :=
  let n := min input.length b.writeAvailable
  let data :=
    if b.writeIdx + n > maxSize then
      let count0 := maxSize - b.writeIdx
      copy (copy b.data b.writeIdx (input.take count0)) 0 ((input.take n).drop count0)
    else
      copy b.data b.writeIdx (input.take n)
  (input.drop n, { b with
    writeIdx := wrap maxSize (b.writeIdx + n)
    data     := data
    write_lt := wrap_lt b.write_lt (Nat.le_trans (Nat.min_le_right ..) writeAvailable_le) })

theorem wrap_eq_mod {idx n} (h : idx < maxSize) (hn : n ≤ maxSize) :
    wrap maxSize (idx + n) = (idx + n) % maxSize := by
  simp only [wrap]
  split
  case isTrue h' =>
    rw [Nat.mod_eq_sub_mod h', Nat.mod_eq_of_lt (by omega)]
  case isFalse h' =>
    exact (Nat.mod_eq_of_lt (by omega)).symm

-- The write index is that of the cell behind the last one in use.
theorem readIdx_add_readAvailable {b : RingBuffer α maxSize} (j : Nat) :
    (b.readIdx + (b.readAvailable + j)) % maxSize = (b.writeIdx + j) % maxSize := by
  have := b.write_lt
  have := b.read_lt
  simp only [readAvailable]
  split
  case isTrue h =>
    congr 1
    omega
  case isFalse h =>
    have h : b.readIdx + (b.writeIdx + maxSize - b.readIdx + j) = b.writeIdx + j + maxSize := by omega
    rw [h, Nat.add_mod_right]

theorem contents_getElem? {b : RingBuffer α maxSize} {i : Nat} :
    b.contents[i]? =
      if i < b.readAvailable then some (b.data ((b.readIdx + i) % maxSize)) else none := by
  simp only [contents, List.getElem?_map]
  split
  case isTrue h  => simp [List.getElem?_range h]
  case isFalse h => simp [Nat.le_of_not_lt h]

@[simp] theorem contents_length {b : RingBuffer α maxSize} :
    b.contents.length = b.readAvailable := by
  simp [contents]

@[simp] theorem isEmpty_iff {b : RingBuffer α maxSize} : b.isEmpty = true ↔ b.contents = [] := by
  have := b.write_lt
  have := b.read_lt
  rw [← List.length_eq_zero_iff, contents_length]
  simp only [isEmpty, readAvailable, beq_iff_eq]
  split <;> omega

@[simp] theorem isFull_iff {b : RingBuffer α maxSize} :
    b.isFull = true ↔ b.contents.length = maxSize - 1 := by
  have := readAvailable_lt (b := b)
  have := b.read_lt
  simp only [isFull, writeAvailable_eq, beq_iff_eq, contents_length]
  omega

@[simp] theorem contents_new [Inhabited α] {h : 0 < maxSize} :
    (new h : RingBuffer α maxSize).contents = [] := by
  simp [contents, readAvailable, new]

theorem contents_advance {b : RingBuffer α maxSize} {n h} (hn : n ≤ b.readAvailable) :
    (b.advance n h).contents = b.contents.drop n := by
  have := b.write_lt
  have := b.read_lt
  have ha : (b.advance n h).readAvailable = b.readAvailable - n := by
    simp only [readAvailable, advance, wrap] at hn ⊢
    split <;> split at hn <;> split <;> omega
  apply List.ext_getElem?
  intro i
  rw [contents_getElem?, ha, List.getElem?_drop, contents_getElem?]
  have hi : i < b.readAvailable - n ↔ n + i < b.readAvailable := by omega
  simp only [hi, advance, wrap_eq_mod b.read_lt h, Nat.mod_add_mod, Nat.add_assoc]

-- The cells from the write index on are filled with `xs`.
theorem contents_fill {b b' : RingBuffer α maxSize} {xs : List α}
    (hr : b'.readIdx = b.readIdx) (hw : b'.writeIdx = wrap maxSize (b.writeIdx + xs.length))
    (hl : xs.length ≤ b.writeAvailable)
    (hd : ∀ i < b.readAvailable,
      b'.data ((b.readIdx + i) % maxSize) = b.data ((b.readIdx + i) % maxSize))
    (hx : ∀ j, (_ : j < xs.length) → b'.data ((b.writeIdx + j) % maxSize) = xs[j]) :
    b'.contents = b.contents ++ xs := by
  have := b.write_lt
  have := b.read_lt
  have hl' := hl
  rw [writeAvailable_eq] at hl'
  have ha : b'.readAvailable = b.readAvailable + xs.length := by
    simp only [writeAvailable] at hl
    simp only [readAvailable, hr, hw, wrap]
    split at hl <;> (repeat' split) <;> omega
  apply List.ext_getElem?
  intro i
  rw [contents_getElem?, ha, List.getElem?_append, contents_length, contents_getElem?, hr]
  by_cases hi : i < b.readAvailable
  · have : i < b.readAvailable + xs.length := by omega
    simp only [hi, this, if_true, hd i hi]
  · by_cases hj : i < b.readAvailable + xs.length
    · have he : i = b.readAvailable + (i - b.readAvailable) := by omega
      have hlt : i - b.readAvailable < xs.length := by omega
      have hm : (b.readIdx + i) % maxSize = (b.writeIdx + (i - b.readAvailable)) % maxSize := by
        rw [← readIdx_add_readAvailable, ← he]
      simp only [hj, hi, if_true, if_false, hm, hx _ hlt, List.getElem?_eq_getElem hlt]
    · have hge : xs.length ≤ i - b.readAvailable := by omega
      simp only [hj, hi, if_false, List.getElem?_eq_none hge]

theorem copy_of_lt {data : Nat → α} {idx xs i} (h : i < idx ∨ idx + xs.length ≤ i) :
    copy data idx xs i = data i := by
  simp only [copy]
  split
  case isTrue h'  =>
    have : xs.length ≤ i - idx := by omega
    simp [List.getD_eq_getElem?_getD, List.getElem?_eq_none this]
  case isFalse h' => rfl

theorem copy_add {data : Nat → α} {idx xs j} (h : j < xs.length) :
    copy data idx xs (idx + j) = xs[j] := by
  simp [copy, List.getD_eq_getElem?_getD, List.getElem?_eq_getElem h]

theorem front_eq {b : RingBuffer α maxSize} {x xs} (h : b.contents = x :: xs) : b.front = x := by
  have h₀ : b.contents[0]? = some x := by simp [h]
  rw [contents_getElem?] at h₀
  split at h₀
  case isTrue  => simpa [Nat.mod_eq_of_lt b.read_lt, front] using h₀
  case isFalse => cases h₀

theorem pop_eq {b : RingBuffer α maxSize} {x xs} (h : b.contents = x :: xs) :
    ∃ b', b.pop = some b' ∧ b'.contents = xs := by
  have he : b.isEmpty = false := by
    rw [← Bool.not_eq_true, isEmpty_iff, h]
    simp
  have hl : 1 ≤ b.readAvailable := by
    rw [← contents_length, h]
    simp
  have hp : b.pop = some (b.advance 1 (Nat.one_le_of_lt b.read_lt)) := by simp [pop, he]
  exact ⟨_, hp, by simp [contents_advance hl, h]⟩

theorem read_fst (b : RingBuffer α maxSize) (count : Nat) :
    (b.read count).fst = b.contents.take count := by
  have := b.read_lt
  have ha := readAvailable_lt (b := b)
  apply List.ext_getElem?
  intro i
  rw [List.getElem?_take, contents_getElem?]
  simp only [read]
  split
  case isTrue h =>
    rw [List.getElem?_append]
    simp only [List.length_map, List.length_range, List.getElem?_map]
    by_cases h₀ : i < maxSize - b.readIdx
    · have h₁ : i < count := by omega
      have h₂ : i < b.readAvailable := by omega
      have h₃ : (b.readIdx + i) % maxSize = b.readIdx + i := Nat.mod_eq_of_lt (by omega)
      simp [h₀, h₁, h₂, h₃]
    · by_cases h₁ : i < min count b.readAvailable
      · have h₂ : i < count ∧ i < b.readAvailable := by omega
        have h₃ : (b.readIdx + i) % maxSize = i - (maxSize - b.readIdx) := by
          rw [Nat.mod_eq_sub_mod (by omega), Nat.mod_eq_of_lt (by omega)]
          omega
        have h₄ : i - (maxSize - b.readIdx) < min count b.readAvailable - (maxSize - b.readIdx) := by
          omega
        simp [h₀, h₂, h₃, List.getElem?_range h₄]
      · have h₂ : min count b.readAvailable - (maxSize - b.readIdx) ≤ i - (maxSize - b.readIdx) := by
          omega
        by_cases h₃ : i < count
        · have h₄ : ¬ i < b.readAvailable := by omega
          simp [h₀, h₃, h₄, h₂]
        · simp [h₀, h₃, h₂]
  case isFalse h =>
    simp only [List.getElem?_map]
    by_cases h₁ : i < min count b.readAvailable
    · have h₂ : i < count ∧ i < b.readAvailable := by omega
      have h₃ : (b.readIdx + i) % maxSize = b.readIdx + i := Nat.mod_eq_of_lt (by omega)
      simp [h₂, h₃]
    · by_cases h₂ : i < count
      · have h₃ : ¬ i < b.readAvailable := by omega
        simp [h₂, h₃]
      · simp [h₂]

theorem read_snd (b : RingBuffer α maxSize) (count : Nat) :
    (b.read count).snd.contents = b.contents.drop count := by
  simp only [read]
  rw [contents_advance (Nat.min_le_right ..)]
  by_cases h : count ≤ b.readAvailable
  · rw [Nat.min_eq_left h]
  · rw [Nat.min_eq_right (by omega), List.drop_eq_nil_of_le (by simp),
      List.drop_eq_nil_of_le (by simp; omega)]

theorem commitFirstReadArray_eq {b b' : RingBuffer α maxSize} {n}
    (h : b.commitFirstReadArray n = some b') : b'.contents = b.contents.drop n := by
  simp only [commitFirstReadArray] at h
  split at h
  case isTrue hn  =>
    cases h
    exact contents_advance (hn.trans firstReadArray_length)
  case isFalse hn => cases h

-- The first read array is where the contents begin.
theorem firstReadArray_prefix {b : RingBuffer α maxSize} : b.firstReadArray <+: b.contents := by
  have := b.write_lt
  have := b.read_lt
  have hl := firstReadArray_length (b := b)
  rw [List.prefix_iff_eq_take]
  apply List.ext_getElem?
  intro i
  rw [List.getElem?_take, contents_getElem?]
  by_cases h : i < b.firstReadArray.length
  · have h₁ : i < b.readAvailable := by omega
    have h₂ : (b.readIdx + i) % maxSize = b.readIdx + i := by
      apply Nat.mod_eq_of_lt
      simp only [firstReadArray, List.length_map, List.length_range] at h
      split at h <;> omega
    rw [List.getElem?_eq_getElem h, if_pos h, if_pos h₁, h₂]
    simp [firstReadArray]
  · rw [if_neg h, List.getElem?_eq_none (Nat.le_of_not_lt h)]

theorem commitFirstWriteArray_eq {b : RingBuffer α maxSize} {xs}
    (h : xs.length ≤ b.firstWriteArraySize) :
    ∃ b', b.commitFirstWriteArray xs = some b' ∧ b'.contents = b.contents ++ xs := by
  have := b.write_lt
  have := b.read_lt
  have hl := h.trans firstWriteArraySize_le
  refine ⟨_, dif_pos h, ?_⟩
  have hf : b.writeIdx + xs.length ≤ maxSize := by
    simp only [firstWriteArraySize] at h
    split at h <;> omega
  apply contents_fill
  case hr => rfl
  case hw => rfl
  case hl => exact hl
  case hd =>
    intro i hi
    apply copy_of_lt
    have ha := hi
    have := readAvailable_lt (b := b)
    simp only [readAvailable] at ha
    simp only [writeAvailable] at hl
    by_cases hm : b.readIdx + i < maxSize
    · rw [Nat.mod_eq_of_lt hm]
      split at ha <;> split at hl <;> omega
    · rw [Nat.mod_eq_sub_mod (by omega), Nat.mod_eq_of_lt (by omega)]
      split at ha <;> split at hl <;> omega
  case hx =>
    intro j hj
    rw [Nat.mod_eq_of_lt (by omega)]
    exact copy_add hj

@[simp] theorem write_fst {b : RingBuffer α maxSize} {input} :
    (b.write input).fst = input.drop b.writeAvailable := by
  simp only [write]
  by_cases h : input.length ≤ b.writeAvailable
  · rw [Nat.min_eq_left h, List.drop_length, List.drop_eq_nil_of_le h]
  · rw [Nat.min_eq_right (by omega)]

theorem write_snd {b : RingBuffer α maxSize} {input} :
    (b.write input).snd.contents = b.contents ++ input.take b.writeAvailable := by
  have := b.write_lt
  have := b.read_lt
  have hn : input.take b.writeAvailable = input.take (min input.length b.writeAvailable) := by
    by_cases h : input.length ≤ b.writeAvailable
    · rw [Nat.min_eq_left h, List.take_length, List.take_of_length_le h]
    · rw [Nat.min_eq_right (by omega)]
  have hlen : (input.take (min input.length b.writeAvailable)).length =
      min input.length b.writeAvailable := by
    simp
  have hle : min input.length b.writeAvailable ≤ b.writeAvailable := Nat.min_le_right ..
  rw [hn]
  generalize hk : min input.length b.writeAvailable = k at hlen hle
  apply contents_fill
  case hr => rfl
  case hw => simp only [write, hlen, hk]
  case hl => omega
  case hd =>
    intro i hi
    have ha := hi
    have := readAvailable_lt (b := b)
    simp only [readAvailable] at ha
    simp only [writeAvailable] at hle
    have hm : (b.readIdx + i) % maxSize =
        if b.readIdx + i < maxSize then b.readIdx + i else b.readIdx + i - maxSize := by
      split
      case isTrue h  => exact Nat.mod_eq_of_lt h
      case isFalse h => rw [Nat.mod_eq_sub_mod (by omega), Nat.mod_eq_of_lt (by omega)]
    simp only [write, hk, hm]
    split
    case isTrue h =>
      rw [copy_of_lt, copy_of_lt]
      all_goals
        simp only [List.length_take, List.length_drop]
        split at ha <;> split at hle <;> split <;> omega
    case isFalse h =>
      rw [copy_of_lt]
      simp only [List.length_take]
      split at ha <;> split at hle <;> split <;> omega
  case hx =>
    intro j hj
    have hj' : j < k := by omega
    have := writeAvailable_le (b := b)
    have hj'' : j < input.length := by omega
    have hg : (input.take k)[j] = input[j] := List.getElem_take
    rw [hg]
    simp only [write, hk]
    split
    case isTrue h =>
      by_cases hw : b.writeIdx + j < maxSize
      · rw [Nat.mod_eq_of_lt hw, copy_of_lt]
        · rw [copy_add (by simp; omega)]
          exact List.getElem_take
        · simp only [writeAvailable] at hle
          simp only [List.length_take, List.length_drop]
          right
          split at hle <;> omega
      · rw [Nat.mod_eq_sub_mod (by omega), Nat.mod_eq_of_lt (by omega)]
        have he : b.writeIdx + j - maxSize = 0 + (b.writeIdx + j - maxSize) := by omega
        rw [he, copy_add (by simp; omega)]
        simp only [List.getElem_drop, List.getElem_take]
        congr 1
        omega
    case isFalse h =>
      rw [Nat.mod_eq_of_lt (by omega), copy_add (by simp; omega)]
      exact List.getElem_take

@[simp] theorem write_readIdx {b : RingBuffer α maxSize} {input} :
    (b.write input).snd.readIdx = b.readIdx := rfl

theorem firstReadArray_length_of_readIdx {b : RingBuffer α maxSize} (h : b.readIdx = 0) :
    b.firstReadArray.length = b.contents.length := by
  simp [firstReadArray, readAvailable, h]

-- Reading only makes the first write array larger.
theorem firstWriteArraySize_advance {b : RingBuffer α maxSize} {n h} (hn : n ≤ b.readAvailable) :
    b.firstWriteArraySize ≤ (b.advance n h).firstWriteArraySize := by
  have := b.write_lt
  have := b.read_lt
  simp only [readAvailable] at hn
  simp only [firstWriteArraySize, advance, wrap]
  split at hn <;> (repeat' split) <;> omega

theorem firstWriteArraySize_read {b : RingBuffer α maxSize} {count} :
    b.firstWriteArraySize ≤ (b.read count).snd.firstWriteArraySize :=
  have h := Nat.min_le_right count b.readAvailable
  firstWriteArraySize_advance (h := h.trans (Nat.le_of_lt readAvailable_lt)) h

section Arrays

variable {b : RingBuffer α maxSize}

-- What the producer does to a cell that it may fill.
def fill (b : RingBuffer α maxSize) (i : Nat) (x : α) : RingBuffer α maxSize :=
  { b with data := copy b.data (b.writeIdx + i) [x] }

def extend (b : RingBuffer α maxSize) (n : Nat) (h : n ≤ maxSize) : RingBuffer α maxSize :=
  { b with writeIdx := wrap maxSize (b.writeIdx + n), write_lt := wrap_lt b.write_lt h }

theorem writeIdx_add_firstWriteArraySize : b.writeIdx + b.firstWriteArraySize ≤ maxSize := by
  have := b.write_lt
  have := b.read_lt
  simp only [firstWriteArraySize]
  split <;> omega

theorem readIdx_add_firstReadArray : b.readIdx + b.firstReadArray.length ≤ maxSize := by
  have := b.write_lt
  have := b.read_lt
  simp only [firstReadArray, List.length_map, List.length_range]
  split <;> omega

-- The cells in use are not among those that may be filled.
theorem ne_of_lt_readAvailable {i j} (hi : i < b.readAvailable) (hj : j < b.firstWriteArraySize) :
    (b.readIdx + i) % maxSize ≠ b.writeIdx + j := by
  have := b.write_lt
  have := b.read_lt
  have := hi.trans readAvailable_lt
  have hw := Nat.lt_of_lt_of_le hj firstWriteArraySize_le
  simp only [readAvailable] at hi
  simp only [writeAvailable] at hw
  simp only [firstWriteArraySize] at hj
  have hm : (b.readIdx + i) % maxSize =
      if b.readIdx + i < maxSize then b.readIdx + i else b.readIdx + i - maxSize := by
    split
    case isTrue h  => exact Nat.mod_eq_of_lt h
    case isFalse h => rw [Nat.mod_eq_sub_mod (by omega), Nat.mod_eq_of_lt (by omega)]
  rw [hm]
  split at hi <;> split at hw <;> split at hj <;> split <;> omega

theorem contents_fill_cell {i x} (h : i < b.firstWriteArraySize) :
    (b.fill i x).contents = b.contents := by
  apply List.ext_getElem?
  intro j
  simp only [contents_getElem?]
  have ha : (b.fill i x).readAvailable = b.readAvailable := rfl
  have hr : (b.fill i x).readIdx = b.readIdx := rfl
  rw [ha, hr]
  split
  case isTrue hj =>
    have := ne_of_lt_readAvailable hj h
    have hc : copy b.data (b.writeIdx + i) [x] ((b.readIdx + j) % maxSize) =
        b.data ((b.readIdx + j) % maxSize) :=
      copy_of_lt (by
        simp only [List.length_singleton]
        omega)
    exact congrArg some hc
  case isFalse => rfl

theorem contents_extend {xs : List α} {n h} (hl : xs.length = n) (hn : n ≤ b.firstWriteArraySize)
    (hx : ∀ i, (_ : i < xs.length) → b.data (b.writeIdx + i) = xs[i]) :
    (b.extend n h).contents = b.contents ++ xs := by
  have := writeIdx_add_firstWriteArraySize (b := b)
  have := b.write_lt
  subst hl
  apply contents_fill
  case hr => rfl
  case hw => rfl
  case hl => exact hn.trans firstWriteArraySize_le
  case hd => intro _ _; rfl
  case hx =>
    intro j hj
    rw [Nat.mod_eq_of_lt (by omega)]
    exact hx j hj

-- Writing only makes the first read array larger.
theorem firstReadArray_of_write {b' : RingBuffer α maxSize} {n} (hn : n ≤ b.writeAvailable)
    (hw : b'.writeIdx = wrap maxSize (b.writeIdx + n)) (hr : b'.readIdx = b.readIdx) :
    b.firstReadArray.length ≤ b'.firstReadArray.length := by
  have := b.write_lt
  have := b.read_lt
  simp only [writeAvailable] at hn
  simp only [firstReadArray, List.length_map, List.length_range, hw, hr, wrap]
  split at hn <;> (repeat' split) <;> omega

theorem firstReadArray_eq_zero : b.firstReadArray.length = 0 ↔ b.readAvailable = 0 := by
  have := b.write_lt
  have := b.read_lt
  simp only [firstReadArray, readAvailable, List.length_map, List.length_range]
  split <;> split <;> omega

theorem firstWriteArraySize_eq_zero : b.firstWriteArraySize = 0 ↔ b.writeAvailable = 0 := by
  have := b.write_lt
  have := b.read_lt
  simp only [firstWriteArraySize, writeAvailable]
  split <;> split <;> (try split) <;> omega

theorem firstReadArray_take {k} (h : k ≤ b.firstReadArray.length) :
    (List.range k).map (fun i => b.data (b.readIdx + i)) = b.contents.take k := by
  have hp : b.firstReadArray <+: b.contents := firstReadArray_prefix
  have hp := List.prefix_iff_eq_take.mp hp
  have ht : b.contents.take k = b.firstReadArray.take k := by
    rw [hp, List.take_take, Nat.min_eq_left h]
  rw [ht, firstReadArray, ← List.map_take, List.take_range]
  simp only [firstReadArray, List.length_map, List.length_range] at h
  rw [Nat.min_eq_left h]

end Arrays

end RingBuffer
