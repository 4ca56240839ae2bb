import Mathlib
import YogiModel.Hub.Service

namespace Yogi.Hub.KnownTerminalsService

open Web

variable {cs : Bool} {a b : UInt8} {str substr rest rest' : Bytes}

-- The one of the "C" locale.
def tolower (c : UInt8) : UInt8 :=
  if 65 ≤ c ∧ c ≤ 90 then c + 32 else c

def charsAreEqual (caseSensitive : Bool) (a b : UInt8) : Bool :=
  if caseSensitive then a = b else tolower a = tolower b

-- A pointer is what is left of the memory that it points into.
def deref : Bytes → Except Fault UInt8
  | []     => .error .outOfBounds
  | c :: _ => .ok c

-- `while (charsAreEqual(*str, *substr) && *substr) { ++str; ++substr; }`
def skipEqual (cs : Bool) : Bytes → Bytes → Except Fault (Bytes × Bytes)
  | a :: str, b :: substr =>
    if charsAreEqual cs a b ∧ b ≠ 0 then skipEqual cs str substr else .ok (a :: str, b :: substr)
  | _, _                  => .error .outOfBounds

def containsLoop (cs : Bool) : Nat → Bytes → Bytes → Except Fault Bool
  | 0, _, _               => .error .outOfFuel
  | fuel + 1, str, substr => do
    let (str, substr) ← skipEqual cs str substr
    if (← deref substr) = 0 then
      return true
    if (← deref str) ≠ 0 then
      containsLoop cs fuel str.tail substr
    else
      return false

def stringContains (str substr : Bytes) (caseSensitive : Bool) : Except Fault Bool :=
  containsLoop caseSensitive str.length str substr

-- What is compared of a character.
def charKey (cs : Bool) (c : UInt8) : UInt8 :=
  if cs then c else tolower c

def Contains (cs : Bool) (substr str : Bytes) : Prop :=
  substr.map (charKey cs) <:+: str.map (charKey cs)

-- The characters are found in this order, but not necessarily next to each other.
def InOrder (cs : Bool) (substr str : Bytes) : Prop :=
  (substr.map (charKey cs)).Sublist (str.map (charKey cs))

instance : Decidable (Contains cs substr str) :=
  inferInstanceAs (Decidable (_ <:+: _))

instance : Decidable (InOrder cs substr str) :=
  inferInstanceAs (Decidable (List.Sublist _ _))

theorem Contains.inOrder (h : Contains cs substr str) : InOrder cs substr str :=
  h.sublist

theorem charsAreEqual_iff : charsAreEqual cs a b = true ↔ charKey cs a = charKey cs b := by
  cases cs <;> simp [charsAreEqual, charKey]

theorem tolower_eq_zero (h : tolower b = 0) : b = 0 := by
  simp only [tolower] at h
  split at h
  case isTrue hb =>
    simp only [UInt8.le_iff_toNat_le, ← UInt8.toNat_inj, UInt8.toNat_add] at hb h
    simp at hb h
    omega
  case isFalse => exact h

theorem charsAreEqual_zero (h : charsAreEqual cs 0 b = true) : b = 0 := by
  cases cs
  case false =>
    have h : tolower 0 = tolower b := by simpa [charsAreEqual] using h
    exact tolower_eq_zero (h.symm.trans rfl)
  case true  => simpa [charsAreEqual, eq_comm] using h

-- What the loop does at one character of the string.
theorem containsLoop_cons {fuel} : containsLoop cs (fuel + 1) (a :: str) (b :: substr) =
    if charsAreEqual cs a b ∧ b ≠ 0 then containsLoop cs (fuel + 1) str substr
    else if b = 0 then .ok true
    else if a ≠ 0 then containsLoop cs fuel str (b :: substr)
    else .ok false := by
  simp only [containsLoop, skipEqual]
  split
  case isTrue  => rfl
  case isFalse => simp [deref, pure, Except.pure]

theorem containsLoop_cons_eq {fuel} (h : charsAreEqual cs a b = true) (hb : b ≠ 0) :
    containsLoop cs (fuel + 1) (a :: str) (b :: substr) = containsLoop cs (fuel + 1) str substr := by
  rw [containsLoop_cons, if_pos ⟨h, hb⟩]

theorem containsLoop_cons_ne {fuel} (h : charsAreEqual cs a b = false) (ha : a ≠ 0) (hb : b ≠ 0) :
    containsLoop cs (fuel + 1) (a :: str) (b :: substr) = containsLoop cs fuel str (b :: substr) := by
  simp [containsLoop_cons, h, ha, hb]

theorem containsLoop_nil_right {fuel} :
    containsLoop cs (fuel + 1) (a :: str) (0 :: rest) = .ok true := by
  simp [containsLoop_cons]

theorem containsLoop_nil_left {fuel} (hb : b ≠ 0) :
    containsLoop cs (fuel + 1) (0 :: rest) (b :: substr) = .ok false := by
  have h : charsAreEqual cs 0 b = false := by
    cases h : charsAreEqual cs 0 b
    case false => rfl
    case true  => exact absurd (charsAreEqual_zero h) hb
  simp [containsLoop_cons, h, hb]

theorem inOrder_cons : InOrder cs (b :: substr) (a :: str) ↔
    if charsAreEqual cs a b then InOrder cs substr str else InOrder cs (b :: substr) str := by
  split
  case isTrue h  => simp [InOrder, charsAreEqual_iff.mp h]
  case isFalse h =>
    have hne : charKey cs b ≠ charKey cs a := fun he => h (charsAreEqual_iff.mpr he.symm)
    simp [InOrder, List.cons_sublist_cons', hne]

-- The loop continues in the substring where it has stopped and never goes back to its beginning.
theorem containsLoop_eq {fuel} (hs : 0 ∉ str) (hp : 0 ∉ substr) (hf : str.length < fuel) :
    containsLoop cs fuel (str ++ 0 :: rest) (substr ++ 0 :: rest') = .ok (decide (InOrder cs substr str)) := by
  obtain ⟨fuel, rfl⟩ : ∃ n, fuel = n + 1 := ⟨fuel - 1, by omega⟩
  induction str generalizing substr fuel
  case nil =>
    cases substr
    case nil       => exact containsLoop_nil_right.trans (by simp [InOrder])
    case cons b bs => exact (containsLoop_nil_left (by simp at hp; tauto)).trans (by simp [InOrder])
  case cons a as ih =>
    cases substr
    case nil       => exact containsLoop_nil_right.trans (by simp [InOrder])
    case cons b bs =>
      rw [List.mem_cons, not_or] at hs hp
      rw [List.length_cons] at hf
      simp only [List.cons_append, inOrder_cons]
      cases h : charsAreEqual cs a b
      case true =>
        rw [containsLoop_cons_eq h (Ne.symm hp.left)]
        exact ih hs.right hp.right fuel (by omega)
      case false =>
        obtain ⟨m, rfl⟩ : ∃ m, fuel = m + 1 := ⟨fuel - 1, by omega⟩
        rw [containsLoop_cons_ne h (Ne.symm hs.left) (Ne.symm hp.left), ← List.cons_append]
        exact ih hs.right (by simp [hp]) m (by omega)

theorem stringContains_eq (hs : 0 ∉ str) (hp : 0 ∉ substr) :
    stringContains (str ++ 0 :: rest) (substr ++ 0 :: rest') cs = .ok (decide (InOrder cs substr str)) :=
  containsLoop_eq hs hp (by simp)

-- A known terminal as it is kept in `ms_terminals`.
structure TerminalBlob where
  type      : UInt8
  signature : UInt32
  name      : HubString

def TerminalBlob.toByteArray (t : TerminalBlob) : Bytes :=
  t.type :: unsignedToByteArray t.signature ++ t.name.toByteArray

def appendIfFound (nameSubstr : Bytes) (caseSensitive : Bool) (response : Bytes) (terminal : TerminalBlob) :
    Except Fault Bytes := do
  if ← stringContains ((constData terminal.toByteArray).drop (1 + 4)) (constData nameSubstr) caseSensitive then
    return response ++ terminal.toByteArray
  else
    return response

def handleFindKnownTerminalsRequest (terminals : List TerminalBlob) (request : Bytes) :
    Except Fault Response := do
  let caseSensitive := (← byteAt request 1) != 0
  let nameSubstr := request.drop 2
  let response ← terminals.foldlM (appendIfFound nameSubstr caseSensitive) []
  return ⟨.ok, response⟩

-- The requested substring ends at its first zero.
def requested (request : Bytes) : Bytes :=
  (request.drop 2).takeWhile (· ≠ 0)

def caseSensitive (request : Bytes) : Bool :=
  request[1]? != some 0

-- The terminals whose name contains the substring.
def found (terminals : List TerminalBlob) (request : Bytes) : List TerminalBlob :=
  terminals.filter fun t => Contains (caseSensitive request) (requested request) t.name.bytes

def response (terminals : List TerminalBlob) : Response :=
  ⟨.ok, terminals.flatMap TerminalBlob.toByteArray⟩

theorem constData_eq (bytes : Bytes) : ∃ rest, constData bytes = bytes.takeWhile (· ≠ 0) ++ 0 :: rest := by
  induction bytes
  case nil => exact ⟨[], rfl⟩
  case cons b bs ih =>
    by_cases hb : b = 0
    · exact ⟨constData bs, by simp [hb, constData]⟩
    · obtain ⟨rest, hr⟩ := ih
      exact ⟨rest, by simpa [hb, constData] using hr⟩

theorem zero_notMem_requested {request : Bytes} : 0 ∉ requested request := by
  intro h
  simpa using List.mem_takeWhile_imp h

theorem searched_eq (t : TerminalBlob) : (constData t.toByteArray).drop (1 + 4) = t.name.bytes ++ [0, 0] := by
  simp [constData, TerminalBlob.toByteArray, HubString.toByteArray, unsignedToByteArray]

theorem appendIfFound_eq {request response : Bytes} {t : TerminalBlob} :
    appendIfFound (request.drop 2) cs response t =
      .ok (response ++ if InOrder cs (requested request) t.name.bytes then t.toByteArray else []) := by
  obtain ⟨rest, hr⟩ := constData_eq (request.drop 2)
  have hs : stringContains ((constData t.toByteArray).drop (1 + 4)) (constData (request.drop 2)) cs =
      .ok (decide (InOrder cs (requested request) t.name.bytes)) := by
    rw [searched_eq, hr]
    exact stringContains_eq t.name.nulFree zero_notMem_requested
  simp only [appendIfFound, hs, Except.ok_bind, decide_eq_true_eq]
  split
  case isTrue  => rfl
  case isFalse => simp [pure, Except.pure]

theorem handleFindKnownTerminalsRequest_eq {terminals : List TerminalBlob} {request : Bytes}
    (h : 1 < request.length) : handleFindKnownTerminalsRequest terminals request =
      .ok (response (terminals.filter fun t =>
        InOrder (caseSensitive request) (requested request) t.name.bytes)) := by
  have hc : byteAt request 1 = .ok request[1] := by simp [byteAt, h]
  have hcs : (request[1] != 0) = caseSensitive request := by
    simp only [caseSensitive, List.getElem?_eq_getElem h]
    rfl
  have hf (start : Bytes) : terminals.foldlM (appendIfFound (request.drop 2) (caseSensitive request)) start =
      .ok (start ++ (response (terminals.filter fun t =>
        InOrder (caseSensitive request) (requested request) t.name.bytes)).data) := by
    induction terminals generalizing start
    case nil => simp [response, pure, Except.pure]
    case cons t ts ih =>
      rw [List.foldlM_cons, appendIfFound_eq, Except.ok_bind, ih, List.append_assoc, List.filter_cons]
      split <;> simp_all [response]
  simp only [handleFindKnownTerminalsRequest, hc, Except.ok_bind, hcs, hf]
  rfl

theorem response_length {ts ts' : List TerminalBlob} (h : ts.Sublist ts') :
    (response ts).data.length ≤ (response ts').data.length ∧
      ((response ts).data.length = (response ts').data.length → ts = ts') := by
  induction h
  case slnil => exact ⟨Nat.le_refl _, fun _ => rfl⟩
  case cons t _ ih =>
    have ht : 0 < t.toByteArray.length := by simp [TerminalBlob.toByteArray]
    simp only [response, List.flatMap_cons, List.length_append] at ih ⊢
    exact ⟨by omega, fun he => by omega⟩
  case cons_cons t _ ih =>
    simp only [response, List.flatMap_cons, List.length_append] at ih ⊢
    exact ⟨by omega, fun he => by rw [ih.right (by omega)]⟩

theorem response_filter_inj {p q : TerminalBlob → Bool} {terminals : List TerminalBlob}
    (hpq : ∀ t, p t = true → q t = true) (h : response (terminals.filter q) = response (terminals.filter p)) :
    ∀ t ∈ terminals, q t = true → p t = true := by
  intro t ht hq
  have hs : (terminals.filter p).Sublist (terminals.filter q) := List.monotone_filter_right terminals hpq
  have he := (response_length hs).right (by rw [h])
  have hm : t ∈ terminals.filter p := he ▸ List.mem_filter.mpr ⟨ht, hq⟩
  exact (List.mem_filter.mp hm).right

-- The search finds too much if the characters occur in the right order with other ones between them.
theorem search_is_exact_iff (str substr : HubString) (cs : Bool) (terminals : List TerminalBlob)
    (request : Bytes) :
    (∃ b, stringContains str.toByteArray substr.toByteArray cs = .ok b ∧
      ((b = true ↔ Contains cs substr.bytes str.bytes) ↔
        (InOrder cs substr.bytes str.bytes → Contains cs substr.bytes str.bytes))) ∧
    (handleFindKnownTerminalsRequest terminals request = .ok (response (found terminals request)) ↔
      1 < request.length ∧ ∀ t ∈ terminals,
        InOrder (caseSensitive request) (requested request) t.name.bytes →
          Contains (caseSensitive request) (requested request) t.name.bytes) := by
  constructor
  case left =>
    refine ⟨_, stringContains_eq str.nulFree substr.nulFree, ?_⟩
    rw [decide_eq_true_iff]
    exact ⟨Iff.mp, fun h => ⟨h, Contains.inOrder⟩⟩
  case right =>
    by_cases hr : 1 < request.length
    case neg =>
      have hb : byteAt request 1 = .error .outOfBounds := by simp [byteAt, Nat.le_of_not_lt hr]
      simp [handleFindKnownTerminalsRequest, hb, hr]
    case pos =>
      rw [handleFindKnownTerminalsRequest_eq hr, Except.ok.injEq]
      constructor
      case mp =>
        intro h
        have hi := response_filter_inj (fun t ht => decide_eq_true (of_decide_eq_true ht : Contains ..).inOrder) h
        exact ⟨hr, fun t ht ho => of_decide_eq_true (hi t ht (decide_eq_true ho))⟩
      case mpr =>
        intro h
        refine congrArg response (List.filter_congr fun t ht => decide_eq_decide.mpr ?_)
        exact ⟨h.right t ht, Contains.inOrder⟩

def xyz : HubString where
  bytes   := [120, 121, 122]
  nulFree := by decide

def xz : HubString where
  bytes   := [120, 122]
  nulFree := by decide

-- The letters x and z are found in "xyz" although "xz" does not occur.
theorem interrupted_match_is_found :
    ¬ ∀ (str substr : HubString) (cs : Bool), ∃ b,
      stringContains str.toByteArray substr.toByteArray cs = .ok b ∧
        (b = true ↔ Contains cs substr.bytes str.bytes) := by
  intro h
  obtain ⟨b, hb, hc⟩ := h xyz xz true
  have hr : stringContains xyz.toByteArray xz.toByteArray true = .ok true := rfl
  cases hr.symm.trans hb
  exact absurd (hc.mp rfl) (by decide)

end Yogi.Hub.KnownTerminalsService
