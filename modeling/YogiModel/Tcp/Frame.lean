import YogiModel.Wire.Message

namespace Yogi.Tcp

open Wire

-- What is put on the wire as a whole.
inductive Frame
  | heartbeat
  | message (payload : List Byte)
  deriving DecidableEq, Repr

namespace Frame

-- A payload consists at least of the ID of a type.
def WellFormed : Frame → Prop
  | heartbeat       => True
  | message payload => payload ≠ [] ∧ payload.length < sizeLimit

def payload : Frame → List Byte
  | heartbeat       => []
  | message payload => payload

@[simp] theorem payload_heartbeat : heartbeat.payload = [] := rfl

@[simp] theorem payload_message {p} : (message p).payload = p := rfl

def encode (f : Frame) : List Byte :=
  serializeSize f.payload.length ++ f.payload

def payloads : List Frame → List (List Byte)
  | []                    => []
  | heartbeat :: fs       => payloads fs
  | message payload :: fs => payload :: payloads fs

def encodeAll (fs : List Frame) : List Byte :=
  fs.flatMap encode

theorem encode_heartbeat : heartbeat.encode = [0] := by
  decide

@[simp] theorem encodeAll_nil : encodeAll [] = [] := rfl

@[simp] theorem encodeAll_cons {f : Frame} {fs} : encodeAll (f :: fs) = f.encode ++ encodeAll fs := by
  simp [encodeAll]

theorem payloads_append {fs gs : List Frame} : payloads (fs ++ gs) = payloads fs ++ payloads gs := by
  induction fs
  case nil          => rfl
  case cons f fs ih => cases f <;> simp [payloads, ih]

@[simp] theorem payloads_append_heartbeat {fs} : payloads (fs ++ [heartbeat]) = payloads fs := by
  simp [payloads_append, payloads]

@[simp] theorem payloads_append_message {fs p} :
    payloads (fs ++ [message p]) = payloads fs ++ [p] := by
  simp [payloads_append, payloads]

theorem payload_length_lt {f : Frame} (h : f.WellFormed) : f.payload.length < sizeLimit := by
  cases f
  case heartbeat => decide
  case message   => exact h.right

end Frame

theorem canDeserializeSize_append {xs ys : List Byte} :
    canDeserializeSize (xs ++ ys) = (canDeserializeSize xs || canDeserializeSize ys) := by
  simp [canDeserializeSize]

theorem canDeserializeSize_serializeSize {n : Nat} : canDeserializeSize (serializeSize n) = true := by
  obtain ⟨init, last, hs, _, hl⟩ := serializeSize_eq (v := n)
  rw [hs, canDeserializeSize_append]
  simp [canDeserializeSize, hl]

-- Bytes that do not end a size yet are followed by the rest of the size.
theorem next_of_not_canDeserializeSize {n : Nat} {tmp ahead tail : List Byte}
    (h : tmp ++ ahead = serializeSize n ++ tail) (hc : canDeserializeSize tmp = false) :
    ∃ byte ahead', ahead = byte :: ahead' ∧ (canDeserializeSize (tmp ++ [byte]) = true →
      tmp ++ [byte] = serializeSize n ∧ ahead' = tail) := by
  obtain ⟨init, last, hs, hi, hl⟩ := serializeSize_eq (v := n)
  rw [hs, List.append_assoc] at h
  rcases List.append_eq_append_iff.mp h with ⟨mid, hm, ha⟩ | ⟨mid, hm, ha⟩
  case inl =>
    cases mid
    case nil =>
      refine ⟨last, tail, by simpa using ha, fun _ => ⟨?_, rfl⟩⟩
      simp [hs, hm]
    case cons byte mid =>
      refine ⟨byte, mid ++ last :: tail, by simpa using ha, fun hd => ?_⟩
      have hb : continues byte = true := hi byte (by simp [hm])
      rw [canDeserializeSize_append, hc] at hd
      simp [canDeserializeSize, hb] at hd
  case inr =>
    cases mid
    case nil =>
      refine ⟨last, tail, by simpa using ha.symm, fun _ => ⟨?_, rfl⟩⟩
      simpa [hs] using hm
    case cons byte mid =>
      have hb : byte = last := by
        simp only [List.cons_append, List.cons.injEq] at ha
        exact ha.left.symm
      rw [hm, canDeserializeSize_append] at hc
      simp [canDeserializeSize, hb, hl] at hc

theorem deserializeSize_size {n : Nat} (h : n < sizeLimit) :
    deserializeSize (serializeSize n) = (some n, []) := by
  have := @deserializeSize_serializeSize n [] h
  simpa using this

end Yogi.Tcp
