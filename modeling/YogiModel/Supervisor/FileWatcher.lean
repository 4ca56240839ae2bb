import Mathlib
import YogiModel.Web.Bytes

namespace Yogi.Supervisor

open Web (Bytes)

-- The representation of an integer on a little-endian machine.
def toBytes (val : UInt32) : Bytes :=
  [val.toUInt8, (val >>> 8).toUInt8, (val >>> 16).toUInt8, (val >>> 24).toUInt8]

def ofBytes : Bytes → UInt32
  | a :: b :: c :: d :: _ => .ofNat (a.toNat + 2^8 * b.toNat + 2^16 * c.toNat + 2^24 * d.toNat)
  | _                     => 0

@[simp] theorem length_toBytes {val} : (toBytes val).length = 4 :=
  rfl

theorem ofBytes_toBytes {val : UInt32} {rest : Bytes} : ofBytes (toBytes val ++ rest) = val := by
  refine UInt32.toNat_inj.mp ?_
  have hv := val.toNat_lt
  simp [toBytes, ofBytes, Nat.shiftRight_eq_div_pow]
  omega

-- An event as the kernel writes it: a name is followed by at least one zero.
structure InotifyEvent where
  wd      : UInt32
  mask    : UInt32
  cookie  : UInt32
  name    : Bytes
  padding : Nat
  nulFree : 0 ∉ name
  padded  : name ≠ [] → 0 < padding
  fits    : name.length + padding < 2^32

namespace InotifyEvent

def len (e : InotifyEvent) : UInt32 :=
  .ofNat (e.name.length + e.padding)

-- `sizeof(inotify_event)`
def headerSize : Nat :=
  16

def header (e : InotifyEvent) : Bytes :=
  toBytes e.wd ++ toBytes e.mask ++ toBytes e.cookie ++ toBytes e.len

def body (e : InotifyEvent) : Bytes :=
  e.name ++ List.replicate e.padding 0

def bytes (e : InotifyEvent) : Bytes :=
  e.header ++ e.body

-- `IN_IGNORED`
def Ignored (e : InotifyEvent) : Prop :=
  e.mask &&& 0x8000 ≠ 0

instance {e : InotifyEvent} : Decidable e.Ignored :=
  inferInstanceAs (Decidable (_ ≠ _))

end InotifyEvent

-- The file watcher.
inductive EventType
  | fileCreated
  | fileDeleted
  | fileModified
  deriving DecidableEq

-- `IN_CLOSE_WRITE`, `IN_CREATE | IN_MOVED_TO` and `IN_DELETE | IN_MOVED_FROM`
def maskToEventType (mask : UInt32) : EventType :=
  if mask &&& 0x8 ≠ 0 then
    .fileModified
  else if mask &&& (0x100 ||| 0x80) ≠ 0 then
    .fileCreated
  else if mask &&& (0x200 ||| 0x40) ≠ 0 then
    .fileDeleted
  else
    .fileModified

-- A call of `handle_event`.
structure HandleEvent where
  wd        : UInt32
  filename  : Bytes
  eventType : EventType
  deriving DecidableEq

structure FileWatcher where
  -- The keys of `m_watches`.
  watches   : List UInt32
  bufferStr : Bytes
  calls     : List HandleEvent
  deriving DecidableEq

namespace FileWatcher

open InotifyEvent (headerSize)

-- `std::string(event->name)`, which ends at the first zero in the buffer or behind it.
def eventName (buffer : Bytes) : Bytes :=
  (buffer.drop headerSize).takeWhile (· ≠ 0)

-- The loop's body for a buffer with a header.
def handleNext (w : FileWatcher) : FileWatcher :=
  let wd   := ofBytes w.bufferStr
  let mask := ofBytes (w.bufferStr.drop 4)
  let len  := ofBytes (w.bufferStr.drop 12)
  if mask &&& 0x8000 ≠ 0 then
    w
  else
    let calls :=
      if wd ∈ w.watches then w.calls ++ [⟨wd, eventName w.bufferStr, maskToEventType mask⟩] else w.calls
    { w with calls, bufferStr := w.bufferStr.drop (headerSize + len.toNat) }

-- `none` if the loop has not ended after a number of iterations.
def loop : Nat → FileWatcher → Option FileWatcher
  | 0, _        => none
  | fuel + 1, w => if w.bufferStr.length ≥ headerSize then loop fuel w.handleNext else some w

-- An iteration that changes the buffer makes it shorter.
def onDataRead (w : FileWatcher) : Option FileWatcher :=
  loop (w.bufferStr.length + 1) w

def asyncReadSome (w : FileWatcher) (buffer : Bytes) : Option FileWatcher :=
  { w with bufferStr := w.bufferStr ++ buffer }.onDataRead

variable {w w' : FileWatcher} {watches : List UInt32} {e : InotifyEvent} {es : List InotifyEvent} {b : Bytes}

theorem length_handleNext (hl : headerSize ≤ w.bufferStr.length) :
    w.handleNext = w ∨ w.handleNext.bufferStr.length < w.bufferStr.length := by
  simp only [handleNext]
  split
  case isTrue  => exact .inl rfl
  case isFalse =>
    simp only [List.length_drop, headerSize] at hl ⊢
    exact .inr (by omega)

-- A loop that has not ended after the iterations of `onDataRead` never ends.
theorem loop_enough {fuel fuel'} (h : loop fuel w = some w') (hf : w.bufferStr.length < fuel') :
    loop fuel' w = some w' := by
  induction fuel generalizing w fuel'
  case zero => cases h
  case succ n ih =>
    obtain ⟨m, rfl⟩ : ∃ m, fuel' = m + 1 := ⟨fuel' - 1, by omega⟩
    simp only [loop] at h ⊢
    split at h
    case isFalse hl => simpa [hl] using h
    case isTrue hl  =>
      simp only [hl, if_true]
      cases length_handleNext hl
      case inl he =>
        rw [he] at h ⊢
        have hr := ih h hf
        simp only [loop, hl, if_true, he] at hr
        exact hr
      case inr he => exact ih h (by omega)

theorem onDataRead_eq_none (h : w.onDataRead = none) (fuel : Nat) : loop fuel w = none := by
  cases hl : loop fuel w
  case none    => rfl
  case some w' => cases h.symm.trans (loop_enough hl (Nat.lt_succ_self _))

end FileWatcher

namespace InotifyEvent

variable {e : InotifyEvent} {es : List InotifyEvent}

theorem length_header : e.header.length = headerSize :=
  rfl

theorem length_body : e.body.length = e.len.toNat := by
  rw [len, UInt32.toNat_ofNat_of_lt' e.fits]
  simp [body]

theorem length_bytes : e.bytes.length = headerSize + e.len.toNat := by
  rw [bytes, List.length_append, length_header, length_body]

def encode (es : List InotifyEvent) : Bytes :=
  es.flatMap bytes

-- The events that are complete after some bytes.
def complete : List InotifyEvent → Nat → List InotifyEvent
  | [], _      => []
  | e :: es, n => if e.bytes.length ≤ n then e :: complete es (n - e.bytes.length) else []

-- The bytes of the last event that are left of the ones received.
def incomplete (es : List InotifyEvent) (received : Bytes) : Bytes :=
  received.drop (encode (complete es received.length)).length

def remaining (es : List InotifyEvent) (n : Nat) : List InotifyEvent :=
  es.drop (complete es n).length

theorem complete_add {n m} : complete es (n + m) =
    complete es n ++ complete (remaining es n) (n - (encode (complete es n)).length + m) := by
  induction es generalizing n
  case nil => rfl
  case cons e es ih =>
    by_cases h : e.bytes.length ≤ n
    case neg => simp [complete, remaining, encode, h]
    case pos =>
      have hs : n + m - e.bytes.length = n - e.bytes.length + m := by omega
      have he (l : List InotifyEvent) : n - (encode (e :: l)).length = n - e.bytes.length - (encode l).length := by
        simp only [encode, List.flatMap_cons, List.length_append]
        omega
      have hr : remaining (e :: es) n = remaining es (n - e.bytes.length) := by simp [remaining, complete, h]
      have hn : e.bytes.length ≤ n + m := by omega
      rw [hr]
      simp only [complete, h, hn, if_true, hs, ih, he, List.cons_append]

theorem complete_remaining {n} : complete (remaining es n) (n - (encode (complete es n)).length) = [] := by
  simpa using complete_add (n := n) (m := 0)

theorem length_encode_complete {n} : (encode (complete es n)).length ≤ n := by
  induction es generalizing n
  case nil => simp [complete, encode]
  case cons e es ih =>
    simp only [complete]
    split
    case isFalse  => simp [encode]
    case isTrue h =>
      have := ih (n := n - e.bytes.length)
      simp only [encode, List.flatMap_cons, List.length_append] at this ⊢
      omega

theorem complete_prefix {n} : complete es n <+: es := by
  induction es generalizing n
  case nil => exact List.prefix_refl _
  case cons e es ih =>
    simp only [complete]
    split
    case isFalse => exact List.nil_prefix
    case isTrue  => exact List.cons_prefix_cons.mpr ⟨rfl, ih⟩

theorem encode_remaining {n} : encode (complete es n) ++ encode (remaining es n) = encode es := by
  have h : complete es n ++ remaining es n = es := List.prefix_iff_eq_append.mp complete_prefix
  rw [encode, encode, ← List.flatMap_append, h, encode]

theorem length_incomplete {b : Bytes} :
    (incomplete es b).length = b.length - (encode (complete es b.length)).length := by
  simp [incomplete]

theorem complete_append {b b' : Bytes} : complete es (b ++ b').length =
    complete es b.length ++ complete (remaining es b.length) (incomplete es b ++ b').length := by
  rw [List.length_append, complete_add, List.length_append, length_incomplete]

theorem incomplete_append {b b' : Bytes} :
    incomplete es (b ++ b') = incomplete (remaining es b.length) (incomplete es b ++ b') := by
  have hd : (b ++ b').drop (encode (complete es b.length)).length = incomplete es b ++ b' :=
    List.drop_append_of_le_length length_encode_complete
  rw [incomplete, complete_append, encode, List.flatMap_append, List.length_append, ← List.drop_drop]
  exact congrArg _ hd

theorem incomplete_prefix {b b' : Bytes} (h : b ++ b' <+: encode es) :
    incomplete es b ++ b' <+: encode (remaining es b.length) := by
  rw [incomplete, ← List.drop_append_of_le_length length_encode_complete]
  rw [← encode_remaining (n := b.length)] at h
  simpa using h.drop (encode (complete es b.length)).length

end InotifyEvent

namespace FileWatcher

open InotifyEvent

variable {w w' : FileWatcher} {watches : List UInt32} {e : InotifyEvent} {es : List InotifyEvent} {b : Bytes}

def call (e : InotifyEvent) (filename : Bytes) : HandleEvent :=
  ⟨e.wd, filename, maskToEventType e.mask⟩

-- The calls that the events should cause.
def expected (watches : List UInt32) (es : List InotifyEvent) : List HandleEvent :=
  (es.filter fun e => ¬e.Ignored ∧ e.wd ∈ watches).map fun e => call e e.name

-- The next event is not ignored and complete as soon as its header is, and if it has no name, a zero
-- comes next.
def Sound (watches : List UInt32) : List InotifyEvent → Bytes → Prop
  | [], _      => True
  | e :: es, b => b.length < headerSize ∨
    ¬e.Ignored ∧ e.bytes.length ≤ b.length ∧
      (e.wd ∈ watches → e.padding = 0 → ∀ c ∈ (b.drop e.bytes.length).head?, c = 0) ∧
      Sound watches es (b.drop e.bytes.length)

instance decidableSound (watches : List UInt32) : ∀ es b, Decidable (Sound watches es b)
  | [], _      => isTrue trivial
  | e :: es, b =>
    have : Decidable (Sound watches es (b.drop e.bytes.length)) := decidableSound watches es _
    inferInstanceAs (Decidable (b.length < headerSize ∨
      ¬e.Ignored ∧ e.bytes.length ≤ b.length ∧
        (e.wd ∈ watches → e.padding = 0 → ∀ c ∈ (b.drop e.bytes.length).head?, c = 0) ∧
        Sound watches es (b.drop e.bytes.length)))

theorem eventName_iff {rest : Bytes} :
    eventName (e.bytes ++ rest) = e.name ↔ (e.padding = 0 → ∀ c ∈ rest.head?, c = 0) := by
  have hd : (e.bytes ++ rest).drop headerSize = e.name ++ (List.replicate e.padding 0 ++ rest) := by
    simp only [bytes, body, List.append_assoc, ← length_header (e := e), List.drop_left]
  have hn : ∀ c ∈ e.name, (c ≠ 0 : Bool) = true := by
    intro c hc
    exact decide_eq_true fun h => e.nulFree (h ▸ hc)
  rw [eventName, hd, List.takeWhile_append_of_pos hn, List.append_right_eq_self]
  cases hp : e.padding
  case succ n => simp [List.replicate_succ]
  case zero   => cases rest <;> simp

theorem handleNext_header {body : Bytes} (hb : w.bufferStr = e.header ++ body) :
    w.handleNext = if e.Ignored then w else { w with
      bufferStr := body.drop e.len.toNat
      calls     := w.calls ++ if e.wd ∈ w.watches then [call e (eventName w.bufferStr)] else [] } := by
  have hwd : ofBytes w.bufferStr = e.wd := by
    rw [hb, header, List.append_assoc, List.append_assoc, List.append_assoc, ofBytes_toBytes]
  have hmask : ofBytes (w.bufferStr.drop 4) = e.mask := by
    rw [hb, header, List.append_assoc, List.append_assoc, List.append_assoc]
    exact ofBytes_toBytes
  have hlen : ofBytes (w.bufferStr.drop 12) = e.len := by
    rw [hb, header, List.append_assoc]
    exact ofBytes_toBytes
  have hd : w.bufferStr.drop (headerSize + e.len.toNat) = body.drop e.len.toNat := by
    rw [hb, ← List.drop_drop, ← length_header (e := e), List.drop_left]
  simp only [handleNext, hwd, hmask, hlen, hd, apply_ite (w.calls ++ ·), List.append_nil]
  rfl

theorem loop_extends {fuel} (h : loop fuel w = some w') : w.calls <+: w'.calls ∧ w'.watches = w.watches := by
  induction fuel generalizing w
  case zero => cases h
  case succ n ih =>
    simp only [loop] at h
    split at h
    case isFalse =>
      cases h
      exact ⟨List.prefix_refl _, rfl⟩
    case isTrue =>
      have hn : w.calls <+: w.handleNext.calls ∧ w.handleNext.watches = w.watches := by
        simp only [handleNext]
        split
        case isTrue  => exact ⟨List.prefix_refl _, rfl⟩
        case isFalse => exact ⟨by split <;> simp, rfl⟩
      exact ⟨hn.left.trans (ih h).left, (ih h).right.trans hn.right⟩

-- An ignored event is looked at again and again.
theorem loop_stuck {fuel} (hl : headerSize ≤ w.bufferStr.length) (h : w.handleNext = w) :
    loop fuel w = none := by
  induction fuel
  case zero      => rfl
  case succ n ih => simpa [loop, hl, h] using ih

theorem loop_succ {n} (hl : headerSize ≤ w.bufferStr.length) : loop (n + 1) w = loop n w.handleNext := by
  simp [loop, hl]

theorem loop_done {n} (hl : w.bufferStr.length < headerSize) : loop (n + 1) w = some w := by
  simp [loop, hl]

theorem complete_cons_of_le {n} (h : e.bytes.length ≤ n) :
    complete (e :: es) n = e :: complete es (n - e.bytes.length) := by
  simp [complete, h]

theorem complete_cons_of_lt {n} (h : n < e.bytes.length) : complete (e :: es) n = [] := by
  simp [complete, h]

theorem incomplete_cons {rest : Bytes} : incomplete (e :: es) (e.bytes ++ rest) = incomplete es rest := by
  have hl : (e.bytes ++ rest).length - e.bytes.length = rest.length := by simp
  rw [incomplete, complete_cons_of_le (by simp), hl]
  simp [encode, incomplete]

theorem incomplete_of_lt (h : b.length < e.bytes.length) : incomplete (e :: es) b = b := by
  simp [incomplete, complete_cons_of_lt h, encode]

theorem expected_cons (hi : ¬e.Ignored) :
    expected watches (e :: es) = (if e.wd ∈ watches then [call e e.name] else []) ++ expected watches es := by
  simp only [expected, List.filter_cons, hi, not_false_eq_true, true_and, decide_eq_true_eq]
  split <;> rfl

-- What has become of the first reads is as it should be.
def Correct (w w' : FileWatcher) (es : List InotifyEvent) (b : Bytes) : Prop :=
  w'.calls = w.calls ++ expected w.watches (complete es b.length) ∧ w'.bufferStr = incomplete es b

theorem correct_cons_iff {w₁ : FileWatcher} {rest : Bytes} (hi : ¬e.Ignored) (hw₁ : w₁.watches = w.watches)
    (hc : w₁.calls = w.calls ++
      if e.wd ∈ w.watches then [call e (eventName (e.bytes ++ rest))] else [])
    (hw : w₁.calls <+: w'.calls) : Correct w w' (e :: es) (e.bytes ++ rest) ↔
      (e.wd ∈ w.watches → e.padding = 0 → ∀ c ∈ rest.head?, c = 0) ∧ Correct w₁ w' es rest := by
  have hl : (e.bytes ++ rest).length - e.bytes.length = rest.length := by simp
  simp only [Correct, incomplete_cons, complete_cons_of_le (List.length_append ▸ Nat.le_add_right ..), hl,
    expected_cons hi, ← eventName_iff, ← List.append_assoc, hw₁]
  rw [← and_assoc]
  refine and_congr_left fun _ => ?_
  by_cases hm : e.wd ∈ w.watches
  case neg => simp [hm, hc]
  case pos =>
    simp only [hm, if_true, true_imp_iff] at hc ⊢
    constructor
    case mpr =>
      rintro ⟨hn, he⟩
      rw [he, hc, hn]
    case mp =>
      intro he
      have hn : eventName (e.bytes ++ rest) = e.name := by
        rw [he, hc, List.append_assoc, List.prefix_append_right_inj, List.singleton_append,
          List.cons_prefix_cons] at hw
        exact congrArg HandleEvent.filename hw.left
      exact ⟨hn, by rw [he, hc, hn]⟩

theorem loop_correct_iff {fuel} (hp : b <+: encode es) (hb : w.bufferStr = b) (hf : b.length < fuel) :
    (∃ w', loop fuel w = some w' ∧ Correct w w' es b) ↔ Sound w.watches es b := by
  induction es generalizing w b fuel
  case nil =>
    obtain rfl : b = [] := List.prefix_nil.mp hp
    obtain ⟨n, rfl⟩ : ∃ n, fuel = n + 1 := ⟨fuel - 1, by omega⟩
    rw [loop_done (by simp [hb, headerSize])]
    simp [Correct, expected, complete, incomplete, Sound, hb]
  case cons e es ih =>
    obtain ⟨n, rfl⟩ : ∃ n, fuel = n + 1 := ⟨fuel - 1, by omega⟩
    rw [Sound]
    by_cases hl : b.length < headerSize
    case pos =>
      have hlt : b.length < e.bytes.length := by rw [length_bytes]; omega
      rw [loop_done (hb ▸ hl)]
      simp [Correct, expected, complete_cons_of_lt hlt, incomplete_of_lt hlt, hl, hb]
    case neg =>
      have hle : headerSize ≤ w.bufferStr.length := by
        rw [hb]
        omega
      obtain ⟨body, rfl⟩ : e.header <+: b := by
        refine List.prefix_of_prefix_length_le ?_ hp (by rw [length_header]; omega)
        simp [encode, bytes]
      have hn := handleNext_header hb
      by_cases hi : e.Ignored
      case pos =>
        rw [loop_stuck hle (hn.trans (if_pos hi))]
        exact iff_of_false (by rintro ⟨w', hw, _⟩; cases hw) (by tauto)
      case neg =>
        rw [if_neg hi] at hn
        rw [loop_succ hle, hn, hb]
        have hbp : body <+: e.body ++ encode es := by
          simpa [encode, bytes, List.prefix_append_right_inj] using hp
        by_cases hs : e.body.length ≤ body.length
        case neg =>
          have hlt : (e.header ++ body).length < e.bytes.length := by
            simp only [bytes, List.length_append]
            omega
          have hd : body.drop e.len.toNat = [] := List.drop_eq_nil_iff.mpr (by rw [← length_body]; omega)
          refine iff_of_false ?_ (by rintro (h | h) <;> omega)
          rintro ⟨w', hw, hc⟩
          obtain ⟨n, rfl⟩ : ∃ m, n = m + 1 := ⟨n - 1, by simp [length_header, headerSize] at hf; omega⟩
          rw [loop_done (by simp [hd, headerSize])] at hw
          cases hw
          have he := hc.right
          rw [hd, incomplete_of_lt hlt] at he
          simp [← he, headerSize] at hl
        case pos =>
          obtain ⟨rest, rfl⟩ := List.prefix_of_prefix_length_le (List.prefix_append ..) hbp hs
          have hd : (e.body ++ rest).drop e.len.toNat = rest := by rw [← length_body, List.drop_left]
          have hb' : e.header ++ (e.body ++ rest) = e.bytes ++ rest := (List.append_assoc ..).symm
          rw [hb'] at hb hl hf ⊢
          have hlt : rest.length < n := by
            rw [List.length_append, length_bytes] at hf
            simp only [headerSize] at hf
            omega
          have hr := (List.prefix_append_right_inj _).mp hbp
          rw [or_iff_right hl]
          simp only [hd, hi, List.drop_left, not_false_eq_true, true_and, List.length_append, Nat.le_add_right]
          rw [← ih (w := ⟨w.watches, rest, _⟩) hr rfl hlt, ← exists_and_left]
          refine exists_congr fun w' => ?_
          rw [and_left_comm]
          refine and_congr_right fun hw => correct_cons_iff hi rfl rfl (loop_extends hw).left

theorem expected_append {es' : List InotifyEvent} :
    expected watches (es ++ es') = expected watches es ++ expected watches es' := by
  simp [expected]

theorem correct_append_iff {w₁ : FileWatcher} {b' : Bytes} (h : Correct w w₁ es b) (hw : w₁.watches = w.watches) :
    Correct w w' es (b ++ b') ↔ Correct w₁ w' (remaining es b.length) (w₁.bufferStr ++ b') := by
  rw [Correct, complete_append, incomplete_append, expected_append, ← List.append_assoc, ← h.left, ← h.right,
    ← hw, Correct]

-- After each of the reads the calls are the ones for the complete events.
def Delivers (w : FileWatcher) (es : List InotifyEvent) (reads : List Bytes) : Prop :=
  ∀ k ≤ reads.length, ∃ w', (reads.take k).foldlM asyncReadSome w = some w' ∧
    Correct w w' es (w.bufferStr ++ (reads.take k).flatten)

-- The condition holds for what is in the buffer after each of the reads.
def SoundReads (watches : List UInt32) : List InotifyEvent → Bytes → List Bytes → Prop
  | _, _, []        => True
  | es, b, r :: rs => Sound watches es (b ++ r) ∧
    SoundReads watches (remaining es (b ++ r).length) (incomplete es (b ++ r)) rs

instance decidableSoundReads (watches : List UInt32) : ∀ es b reads, Decidable (SoundReads watches es b reads)
  | _, _, []        => isTrue trivial
  | es, b, r :: rs =>
    have : Decidable (SoundReads watches (remaining es (b ++ r).length) (incomplete es (b ++ r)) rs) :=
      decidableSoundReads watches _ _ rs
    inferInstanceAs (Decidable (Sound watches es (b ++ r) ∧
      SoundReads watches (remaining es (b ++ r).length) (incomplete es (b ++ r)) rs))

theorem asyncReadSome_correct_iff {r : Bytes} (hp : w.bufferStr ++ r <+: encode es) :
    (∃ w', w.asyncReadSome r = some w' ∧ Correct w w' es (w.bufferStr ++ r)) ↔
      Sound w.watches es (w.bufferStr ++ r) :=
  loop_correct_iff (w := { w with bufferStr := w.bufferStr ++ r }) hp rfl (Nat.lt_succ_self _)

theorem correct_refl (hc : complete es w.bufferStr.length = []) : Correct w w es w.bufferStr := by
  simp [Correct, hc, expected, incomplete, encode]

theorem delivers_iff_sound {reads : List Bytes} (hp : w.bufferStr ++ reads.flatten <+: encode es)
    (hc : complete es w.bufferStr.length = []) :
    w.Delivers es reads ↔ SoundReads w.watches es w.bufferStr reads := by
  induction reads generalizing w es
  case nil =>
    simp only [SoundReads, iff_true]
    intro k _
    exact ⟨w, by simp [pure], by simpa using correct_refl hc⟩
  case cons r rs ih =>
    rw [List.flatten_cons, ← List.append_assoc] at hp
    have hr := asyncReadSome_correct_iff (w := w) (r := r) ((List.prefix_append ..).trans hp)
    -- What follows from the first read for the other ones.
    have hs {w₁} (hw₁ : w.asyncReadSome r = some w₁) (hc₁ : Correct w w₁ es (w.bufferStr ++ r)) :
        w₁.Delivers (remaining es (w.bufferStr ++ r).length) rs ↔
          SoundReads w.watches (remaining es (w.bufferStr ++ r).length) (incomplete es (w.bufferStr ++ r)) rs := by
      have hw : w₁.watches = w.watches := (loop_extends hw₁).right
      rw [← hw, ← hc₁.right]
      refine ih ?_ ?_
      · rw [hc₁.right]
        exact incomplete_prefix hp
      · rw [hc₁.right, length_incomplete]
        exact complete_remaining
    have hk {w₁} (hw₁ : w.asyncReadSome r = some w₁) (hc₁ : Correct w w₁ es (w.bufferStr ++ r)) (k) :
        (∃ w', ((r :: rs).take (k + 1)).foldlM asyncReadSome w = some w' ∧
          Correct w w' es (w.bufferStr ++ ((r :: rs).take (k + 1)).flatten)) ↔
        ∃ w', (rs.take k).foldlM asyncReadSome w₁ = some w' ∧
          Correct w₁ w' (remaining es (w.bufferStr ++ r).length) (w₁.bufferStr ++ (rs.take k).flatten) := by
      refine exists_congr fun w' => ?_
      rw [List.take_succ_cons, List.foldlM_cons, hw₁, List.flatten_cons, ← List.append_assoc,
        correct_append_iff hc₁ (loop_extends hw₁).right]
      rfl
    rw [SoundReads, ← hr]
    constructor
    case mp =>
      intro h
      obtain ⟨w₁, hw₁, hc₁⟩ : ∃ w₁, w.asyncReadSome r = some w₁ ∧ Correct w w₁ es (w.bufferStr ++ r) := by
        simpa using h 1 (by simp)
      refine ⟨⟨w₁, hw₁, hc₁⟩, (hs hw₁ hc₁).mp fun k hkl => ?_⟩
      exact (hk hw₁ hc₁ k).mp (h (k + 1) (by simpa using hkl))
    case mpr =>
      rintro ⟨⟨w₁, hw₁, hc₁⟩, hsr⟩
      intro k hkl
      cases k
      case zero   => exact ⟨w, rfl, by simpa using correct_refl hc⟩
      case succ k => exact (hk hw₁ hc₁ k).mpr ((hs hw₁ hc₁).mpr hsr k (by simpa using hkl))

-- No event has been read yet.
def started (watches : List UInt32) : FileWatcher :=
  ⟨watches, [], []⟩

theorem bytes_ne_nil : e.bytes ≠ [] := by
  simp [bytes, header, toBytes]

theorem events_are_delivered_iff (watches : List UInt32) (es : List InotifyEvent) (reads : List Bytes)
    (h : reads.flatten <+: encode es) :
    (started watches).Delivers es reads ↔ SoundReads watches es [] reads :=
  delivers_iff_sound (w := started watches) h (by cases es <;> simp [complete, started, bytes_ne_nil])

def modified : InotifyEvent where
  wd      := 1
  mask    := 0x8
  cookie  := 0
  name    := [97]
  padding := 15
  nulFree := by decide
  padded  := by decide
  fits    := by decide

theorem nulFree_nil : (0 : UInt8) ∉ ([] : Bytes) :=
  List.not_mem_nil

def ignored : InotifyEvent where
  wd      := 1
  mask    := 0x8000
  cookie  := 0
  name    := []
  padding := 0
  nulFree := nulFree_nil
  padded  := by decide
  fits    := by decide

theorem events_are_delivered_modified :
    (started [1]).Delivers [modified, modified] [modified.bytes ++ modified.bytes.take 7, modified.bytes.drop 7] :=
  (events_are_delivered_iff _ _ _ (by decide)).mpr (by decide)

-- The loop does not end when a watch has been removed.
theorem ignored_event_stops_watcher :
    ¬ ∀ (watches : List UInt32) (es : List InotifyEvent) (reads : List Bytes),
      reads.flatten <+: encode es → (started watches).Delivers es reads := by
  intro h
  obtain ⟨w, hw, _⟩ := h [1] [ignored] [ignored.bytes] (by decide) 1 (by decide)
  have hn : [ignored.bytes].foldlM asyncReadSome (started [1]) = none := rfl
  cases hn.symm.trans hw

end FileWatcher

end Yogi.Supervisor
