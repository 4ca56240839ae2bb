import Mathlib
import YogiModel.Base.Except
import YogiModel.Base.Machine
import YogiModel.Base.Register

namespace Yogi

-- A number that is not used again when the element that it stands for has been deleted.
abbrev Pointer := Nat

-- The class `IdentifiedObjectRegister` and the memory of its elements. The top of the stack of free IDs is
-- at the front.
structure IdentifiedObjectRegister (α : Type) where
  map     : List (Identifier × Pointer) := []
  lut     : List (Option Pointer)       := []
  freeIds : List Id                     := []
  heap    : List (Option (Element α))   := []

namespace IdentifiedObjectRegister

inductive Fault
  | assertion
  | danglingPointer
  | outOfBounds
  deriving DecidableEq

variable {α : Type}

def deref (r : IdentifiedObjectRegister α) (p : Pointer) : Except Fault (Element α) :=
  match r.heap[p]? with
  | some (some e) => .ok e
  | _             => .error .danglingPointer

def isValid (r : IdentifiedObjectRegister α) (p : Pointer) : Except Fault Bool := do
  let e ← r.deref p
  return e.id ≠ 0 ∧ e.id ≤ r.lut.length ∧ r.lut[e.id - 1]? = some (some p)

-- The first slot that is not empty.
def first : List (Option Pointer) → Option Pointer
  | []            => none
  | some p :: _   => some p
  | none :: slots => first slots

-- `const_iterator::operator++`
def increment (r : IdentifiedObjectRegister α) (p : Pointer) : Except Fault (Option Pointer) := do
  let e ← r.deref p
  return first (r.lut.drop e.id)

def begin (r : IdentifiedObjectRegister α) : Option Pointer :=
  first r.lut

-- `m_map.find(identifier)`
def mapFind (r : IdentifiedObjectRegister α) (x : Identifier) : Option Pointer :=
  (r.map.find? fun entry => entry.1 = x).map Prod.snd

-- `m_lut[i].reset(p)` deletes the element that the slot has had so far.
def reset (r : IdentifiedObjectRegister α) (i : Nat) (p : Option Pointer) :
    Except Fault (IdentifiedObjectRegister α) :=
  match r.lut[i]? with
  | none            => .error .outOfBounds
  | some none       => .ok { r with lut := r.lut.set i p }
  | some (some old) => .ok { r with lut := r.lut.set i p, heap := r.heap.set old none }

def allocate (r : IdentifiedObjectRegister α) (e : Element α) : IdentifiedObjectRegister α :=
  { r with heap := r.heap ++ [some e] }

def pushFreeId (r : IdentifiedObjectRegister α) (i : Id) : IdentifiedObjectRegister α :=
  { r with freeIds := i :: r.freeIds }

-- If there are no unused IDs, a new one is created.
def grow (r : IdentifiedObjectRegister α) : IdentifiedObjectRegister α :=
  if r.freeIds = [] then { r with freeIds := [r.lut.length + 1], lut := r.lut ++ [none] } else r

-- Returns the element and whether it has been inserted, or nothing if its constructor throws.
def insert (r : IdentifiedObjectRegister α) (x : Identifier) (d : α) (throws : Bool) :
    Except Fault (IdentifiedObjectRegister α × Option (Pointer × Bool)) :=
  let r := r.grow
  match r.mapFind x with
  | some p => .ok (r, some (p, false))
  | none   =>
    if throws then
      .ok (r, none)
    else
      match r.freeIds with
      | []      => .error .outOfBounds
      | i :: is => do
        let p := r.heap.length
        let r ← (r.allocate ⟨x, i, false, d⟩).reset (i - 1) (some p)
        return ({ r with map := r.map ++ [(x, p)], freeIds := is }, some (p, true))

def hide (r : IdentifiedObjectRegister α) (p : Pointer) : Except Fault (IdentifiedObjectRegister α) := do
  if ← r.isValid p then
    let e ← r.deref p
    if e.hidden then
      return r
    else if (r.mapFind e.identifier).isSome then
      return { r with map  := r.map.filter fun entry => entry.1 ≠ e.identifier
                      heap := r.heap.set p (some { e with hidden := true }) }
    else
      .error .assertion
  else
    .error .assertion

-- Returns the next element.
def erase (r : IdentifiedObjectRegister α) (p : Pointer) :
    Except Fault (IdentifiedObjectRegister α × Option Pointer) := do
  if ← r.isValid p then
    let tmp ← r.increment p
    let r ← r.hide p
    let e ← r.deref p
    let r ← (r.pushFreeId e.id).reset (e.id - 1) none
    return (r, tmp)
  else
    .error .assertion

-- The overload of `find` for IDs.
def findId (r : IdentifiedObjectRegister α) (i : Id) : Option Pointer :=
  if 0 < i ∧ i ≤ r.lut.length then r.lut[i - 1]?.join else none

-- The overload of `find` for identifiers.
def find (r : IdentifiedObjectRegister α) (x : Identifier) : Option Pointer :=
  r.mapFind x

-- There is an element that has not been deleted.
def Live (r : IdentifiedObjectRegister α) (p : Pointer) (e : Element α) : Prop :=
  r.heap[p]? = some (some e)

inductive Action (α : Type)
  | insert (identifier : Identifier) (data : α) (throws : Bool)
  | erase (element : Pointer)
  | hide (element : Pointer)
  | findId (id : Id)
  | find (identifier : Identifier)

-- What is erased or hidden is an element of the register.
def enabled (r : IdentifiedObjectRegister α) : Action α → Prop
  | .erase p | .hide p => ∃ e, r.Live p e
  | _                  => True

def act (r : IdentifiedObjectRegister α) : Action α → Except Fault (IdentifiedObjectRegister α)
  | .insert x d throws => (r.insert x d throws).map Prod.fst
  | .erase p           => (r.erase p).map Prod.fst
  | .hide p            => r.hide p
  | .findId _          => .ok r
  | .find _            => .ok r

def machine : Machine (IdentifiedObjectRegister α) (Action α) Fault where
  init r  := r = {}
  enabled := enabled
  step    := act

-- What holds of the map, the lookup table and the stack of free IDs together.
structure Consistent (r : IdentifiedObjectRegister α) : Prop where
  valid      : ∀ {p e}, r.Live p e → 1 ≤ e.id ∧ e.id ≤ r.lut.length
  distinct   : ∀ {p q e e'}, r.Live p e → r.Live q e' → e.id = e'.id → p = q
  slot       : ∀ {i p}, r.lut[i]? = some (some p) ↔ ∃ e, r.Live p e ∧ e.id = i + 1
  free       : ∀ {i}, i ∈ r.freeIds ↔ 1 ≤ i ∧ r.lut[i - 1]? = some none
  freeNodup  : r.freeIds.Nodup
  map        : ∀ {x p}, (x, p) ∈ r.map ↔ ∃ e, r.Live p e ∧ e.identifier = x ∧ e.hidden = false
  mapNodup   : (r.map.map Prod.fst).Nodup
  visible    : ∀ {p q e e'}, r.Live p e → r.Live q e' → e.hidden = false → e'.hidden = false →
    e.identifier = e'.identifier → p = q
  findId     : ∀ {i p}, r.findId i = some p ↔ ∃ e, r.Live p e ∧ e.id = i
  find       : ∀ {x p}, r.find x = some p ↔ ∃ e, r.Live p e ∧ e.identifier = x ∧ e.hidden = false

-- What `insert` returns.
inductive Inserted (r r' : IdentifiedObjectRegister α) (x : Identifier) (d : α) :
    Option (Pointer × Bool) → Prop
  | existing {p e} (live : r.Live p e) (identifier : e.identifier = x) (visible : e.hidden = false)
    (heap : r'.heap = r.heap) (map : r'.map = r.map) : Inserted r r' x d (some (p, false))
  | fresh {p e} (new : ∀ e, ¬r.Live p e) (absent : r.find x = none) (live : r'.Live p e)
    (identifier : e.identifier = x) (visible : e.hidden = false) (data : e.data = d)
    (others : ∀ {q e}, q ≠ p → (r'.Live q e ↔ r.Live q e)) : Inserted r r' x d (some (p, true))
  | threw (absent : r.find x = none) (heap : r'.heap = r.heap) (map : r'.map = r.map) :
    Inserted r r' x d none

-- A loop over the elements which uses the register in its body. Listed are the elements that have been visited
-- and those that its body has erased before they could be visited.
structure Loop (α : Type) where
  start    : IdentifiedObjectRegister α
  register : IdentifiedObjectRegister α
  current  : Option Pointer
  visited  : List Pointer := []
  erased   : List Pointer := []

namespace Loop

inductive Action (α : Type)
  | body (action : IdentifiedObjectRegister.Action α)
  | advance
  | eraseCurrent
  | eraseCopy

def erasedBy {α : Type} : IdentifiedObjectRegister.Action α → List Pointer
  | .erase p => [p]
  | _        => []

-- The iterator must remain valid until the current element is left.
def enabled (l : Loop α) : Action α → Prop
  | .body a => l.register.enabled a ∧ ∃ p, l.current = some p ∧ p ∉ erasedBy a
  | _       => l.current ≠ none

def act (l : Loop α) : Action α → Except Fault (Loop α)
  | .body a       => do
    let r ← l.register.act a
    return { l with register := r, erased := l.erased ++ erasedBy a }
  | .advance      =>
    match l.current with
    | none   => .error .assertion
    | some p => do
      let next ← l.register.increment p
      return { l with current := next, visited := l.visited ++ [p] }
  | .eraseCurrent =>
    match l.current with
    | none   => .error .assertion
    | some p => do
      let (r, next) ← l.register.erase p
      return { l with register := r, current := next, visited := l.visited ++ [p] }
  | .eraseCopy    =>
    match l.current with
    | none   => .error .assertion
    | some p => do
      let next ← l.register.increment p
      let (r, _) ← l.register.erase p
      return { l with register := r, current := next, visited := l.visited ++ [p] }

def machine : Machine (Loop α) (Action α) Fault where
  init l  := ∃ r, IdentifiedObjectRegister.machine.Reachable r ∧
    l = { start := r, register := r, current := r.begin }
  enabled := enabled
  step    := act

end Loop

section

variable {r r' : IdentifiedObjectRegister α} {p q i : Nat} {e e' : Element α} {is : List Id}
  {x : Identifier} {d : α}

-- What holds between two operations.
structure Inv (r : IdentifiedObjectRegister α) : Prop where
  id_ne_zero : ∀ {p e}, r.Live p e → e.id ≠ 0
  slot       : ∀ {i p}, r.lut[i]? = some (some p) ↔ ∃ e, r.Live p e ∧ e.id = i + 1
  free       : ∀ {i}, i ∈ r.freeIds ↔ i ≠ 0 ∧ r.lut[i - 1]? = some none
  freeNodup  : r.freeIds.Nodup
  map        : ∀ {x p}, (x, p) ∈ r.map ↔ ∃ e, r.Live p e ∧ e.identifier = x ∧ e.hidden = false
  mapNodup   : (r.map.map Prod.fst).Nodup

theorem Live.unique (h : r.Live p e) (h' : r.Live p e') : e = e' := by
  simpa using Option.some.inj (h.symm.trans h')

theorem Live.lt (h : r.Live p e) : p < r.heap.length :=
  (List.getElem?_eq_some_iff.mp h).choose

theorem deref_of_live (h : r.Live p e) : r.deref p = .ok e := by
  simp [deref, show r.heap[p]? = some (some e) from h]

theorem mapFind_eq_some_iff (h : (r.map.map Prod.fst).Nodup) : r.mapFind x = some p ↔ (x, p) ∈ r.map := by
  simp only [mapFind, Option.map_eq_some_iff]
  constructor
  case mp =>
    rintro ⟨⟨y, q⟩, hf, rfl⟩
    obtain rfl : y = x := by simpa using List.find?_some hf
    exact List.mem_of_find?_eq_some hf
  case mpr =>
    intro hm
    cases hf : r.map.find? fun entry => entry.1 = x
    case none =>
      have := List.find?_eq_none.mp hf _ hm
      simp at this
    case some entry =>
      have hx : entry.1 = x := by simpa using List.find?_some hf
      have he := List.inj_on_of_nodup_map h (List.mem_of_find?_eq_some hf) hm hx
      exact ⟨entry, rfl, by rw [he]⟩

namespace Inv

theorem slot_of_live (h : Inv r) (hl : r.Live p e) : r.lut[e.id - 1]? = some (some p) :=
  h.slot.mpr ⟨e, hl, (Nat.sub_add_cancel (Nat.pos_of_ne_zero (h.id_ne_zero hl))).symm⟩

theorem id_le (h : Inv r) (hl : r.Live p e) : e.id ≤ r.lut.length := by
  have hlt := (List.getElem?_eq_some_iff.mp (h.slot_of_live hl)).choose
  exact Nat.le_of_pred_lt hlt

theorem id_inj (h : Inv r) (hl : r.Live p e) (hl' : r.Live q e') (hi : e.id = e'.id) : p = q := by
  have := h.slot_of_live hl
  rw [hi, h.slot_of_live hl'] at this
  simpa [eq_comm] using this

theorem mapFind_iff (h : Inv r) :
    r.mapFind x = some p ↔ ∃ e, r.Live p e ∧ e.identifier = x ∧ e.hidden = false :=
  (mapFind_eq_some_iff h.mapNodup).trans h.map

theorem isValid_eq (h : Inv r) (hl : r.Live p e) : r.isValid p = .ok true := by
  simp [isValid, deref_of_live hl, h.id_ne_zero hl, h.id_le hl, h.slot_of_live hl, pure, Except.pure]

theorem init : Inv ({} : IdentifiedObjectRegister α) := by
  constructor
  case freeNodup => exact List.nodup_nil
  case mapNodup  => exact List.nodup_nil
  all_goals simp [Live]

theorem grow (h : Inv r) : Inv r.grow := by
  simp only [IdentifiedObjectRegister.grow]
  split
  case isFalse => exact h
  case isTrue hf =>
    have hn : ∀ i, i ≠ 0 → r.lut[i - 1]? ≠ some none := by
      intro i hi hn
      simpa [hf] using h.free.mpr ⟨hi, hn⟩
    constructor
    case id_ne_zero => exact h.id_ne_zero
    case slot       =>
      intro i p
      refine Iff.trans ?_ h.slot
      simp only [List.getElem?_append]
      split
      case isTrue  => rfl
      case isFalse hi =>
        rw [List.getElem?_eq_none (by omega : r.lut.length ≤ i)]
        simp [List.getElem?_singleton]
    case free       =>
      intro i
      have := hn i
      simp only [List.mem_singleton, List.getElem?_append, List.getElem?_singleton]
      grind
    case freeNodup  => exact List.nodup_singleton _
    case map        => exact h.map
    case mapNodup   => exact h.mapNodup

end Inv

-- The results of the operations once their checks have been passed.

def constructed (r : IdentifiedObjectRegister α) (x : Identifier) (d : α) (i : Id) (is : List Id) :
    IdentifiedObjectRegister α where
  map     := r.map ++ [(x, r.heap.length)]
  lut     := r.lut.set (i - 1) (some r.heap.length)
  freeIds := is
  heap    := r.heap ++ [some ⟨x, i, false, d⟩]

def hidden (r : IdentifiedObjectRegister α) (p : Pointer) (e : Element α) : IdentifiedObjectRegister α :=
  { r with map  := r.map.filter fun entry => entry.1 ≠ e.identifier
           heap := r.heap.set p (some { e with hidden := true }) }

def removed (r : IdentifiedObjectRegister α) (p : Pointer) (e : Element α) : IdentifiedObjectRegister α :=
  { r with freeIds := e.id :: r.freeIds
           lut     := r.lut.set (e.id - 1) none
           heap    := r.heap.set p none }

theorem live_constructed : (r.constructed x d i is).Live p e ↔
    r.Live p e ∨ p = r.heap.length ∧ e = ⟨x, i, false, d⟩ := by
  simp only [Live, constructed, List.getElem?_append, List.getElem?_singleton]
  split
  case isTrue hp  => simp [Nat.ne_of_lt hp]
  case isFalse hp =>
    rw [List.getElem?_eq_none (by omega : r.heap.length ≤ p)]
    simp only [reduceCtorEq, false_or]
    split
    case isTrue h  => simp [show p = r.heap.length by omega, eq_comm]
    case isFalse h => simp [show p ≠ r.heap.length by omega]

theorem live_hidden (h : r.Live p e) : (r.hidden p e).Live q e' ↔
    if q = p then e' = { e with hidden := true } else r.Live q e' := by
  simp only [Live, hidden, List.getElem?_set]
  by_cases hq : q = p
  case pos => simp [hq, h.lt, eq_comm]
  case neg => simp [hq, Ne.symm hq]

theorem live_removed : (r.removed p e).Live q e' ↔ q ≠ p ∧ r.Live q e' := by
  simp only [Live, removed, List.getElem?_set]
  by_cases hq : q = p
  case pos => simp [hq]
  case neg => simp [hq, Ne.symm hq]

namespace Inv

theorem constructed (h : Inv r) (hf : r.freeIds = i :: is) (hx : r.mapFind x = none) :
    Inv (r.constructed x d i is) := by
  have hi : i ≠ 0 ∧ r.lut[i - 1]? = some none := h.free.mp (by simp [hf])
  have hn : i ∉ is ∧ is.Nodup := List.nodup_cons.mp (hf ▸ h.freeNodup)
  have hx : ∀ p, (x, p) ∉ r.map := by
    intro p hp
    simp [(mapFind_eq_some_iff h.mapNodup).mpr hp] at hx
  have hlt := (List.getElem?_eq_some_iff.mp hi.right).choose
  have hnew : ∀ e, ¬r.Live r.heap.length e := fun e hl => Nat.lt_irrefl _ hl.lt
  constructor
  case id_ne_zero =>
    intro p e hl
    cases live_constructed.mp hl
    case inl hl => exact h.id_ne_zero hl
    case inr hl => exact hl.right ▸ hi.left
  case slot       =>
    intro j p
    simp only [live_constructed]
    by_cases hj : i - 1 = j
    case pos =>
      subst hj
      have hnone : ∀ e, r.Live p e → e.id ≠ i - 1 + 1 := by
        intro e hl he
        have := h.slot.mpr ⟨e, hl, he⟩
        simp [hi.right] at this
      simp only [IdentifiedObjectRegister.constructed, List.getElem?_set_self hlt, Option.some.injEq]
      grind
    case neg =>
      have : (r.constructed x d i is).lut[j]? = r.lut[j]? := by
        simp [IdentifiedObjectRegister.constructed, List.getElem?_set_ne hj]
      rw [this, h.slot]
      grind
  case free       =>
    intro j
    have hj := h.free (i := j)
    rw [hf] at hj
    simp only [IdentifiedObjectRegister.constructed, List.getElem?_set]
    grind
  case freeNodup  => exact hn.right
  case map        =>
    intro y p
    have hmap : (y, p) ∈ (r.constructed x d i is).map ↔ (y, p) ∈ r.map ∨ y = x ∧ p = r.heap.length := by
      simp [IdentifiedObjectRegister.constructed]
    simp only [hmap, live_constructed, h.map]
    constructor
    case mp =>
      rintro (⟨e, hl, he⟩ | ⟨rfl, rfl⟩)
      case inl => exact ⟨e, .inl hl, he⟩
      case inr => exact ⟨_, .inr ⟨rfl, rfl⟩, rfl, rfl⟩
    case mpr =>
      rintro ⟨e, hl | ⟨rfl, rfl⟩, hx, hv⟩
      case inl => exact .inl ⟨e, hl, hx, hv⟩
      case inr => exact .inr ⟨hx.symm, rfl⟩
  case mapNodup   =>
    have : x ∉ r.map.map Prod.fst := by simpa using hx
    simp only [IdentifiedObjectRegister.constructed, List.map_append, List.map_cons, List.map_nil]
    exact (List.perm_append_singleton _ _).nodup_iff.mpr (List.nodup_cons.mpr ⟨this, h.mapNodup⟩)

theorem hidden (h : Inv r) (hl : r.Live p e) (hv : e.hidden = false) : Inv (r.hidden p e) := by
  have hlive : ∀ q e', (r.hidden p e).Live q e' ↔ if q = p then e' = { e with hidden := true } else r.Live q e' :=
    fun _ _ => live_hidden hl
  constructor
  case id_ne_zero =>
    intro q e' hq
    have := h.id_ne_zero hl
    have := fun hq => h.id_ne_zero (p := q) (e := e') hq
    grind
  case slot       =>
    intro j q
    refine h.slot.trans ?_
    simp only [hlive]
    by_cases hq : q = p
    case pos =>
      subst hq
      have : ∀ e', r.Live q e' ↔ e' = e := fun e' => ⟨fun h' => h'.unique hl, fun he => he ▸ hl⟩
      simp [this]
    case neg => simp [hq]
  case free       => exact h.free
  case freeNodup  => exact h.freeNodup
  case map        =>
    intro y q
    have hm := h.map (x := y) (p := q)
    have hmap : (y, q) ∈ (r.hidden p e).map ↔ (y, q) ∈ r.map ∧ y ≠ e.identifier := by
      simp [IdentifiedObjectRegister.hidden]
    have huniq : ∀ e', r.Live q e' → e'.identifier = e.identifier → e'.hidden = false → q = p := by
      intro e' hl' hx hv'
      have h₁ := h.mapFind_iff.mpr ⟨e', hl', hx, hv'⟩
      have h₂ := h.mapFind_iff.mpr ⟨e, hl, rfl, hv⟩
      exact Option.some.inj (h₁.symm.trans h₂)
    simp only [hlive, hmap, hm]
    grind [Live.unique]
  case mapNodup   => exact h.mapNodup.sublist (List.filter_sublist.map _)

theorem removed (h : Inv r) (hl : r.Live p e) (hv : e.hidden = true) : Inv (r.removed p e) := by
  have hlive : ∀ q e', (r.removed p e).Live q e' ↔ q ≠ p ∧ r.Live q e' := fun _ _ => live_removed
  have hs := h.slot_of_live hl
  have hlt := (List.getElem?_eq_some_iff.mp hs).choose
  have hz := h.id_ne_zero hl
  constructor
  case id_ne_zero => exact fun hq => h.id_ne_zero ((hlive _ _).mp hq).right
  case slot       =>
    intro j q
    have hj := h.slot (i := j) (p := q)
    have hinj : ∀ q e', r.Live q e' → e.id = e'.id → p = q := fun _ _ hq => h.id_inj hl hq
    simp only [hlive]
    by_cases he : e.id - 1 = j
    case pos =>
      subst he
      simp only [IdentifiedObjectRegister.removed, List.getElem?_set_self hlt]
      grind
    case neg =>
      simp only [IdentifiedObjectRegister.removed, List.getElem?_set_ne he]
      refine hj.trans ?_
      grind [Live.unique]
  case free       =>
    intro j
    have hj := h.free (i := j)
    simp only [IdentifiedObjectRegister.removed, List.mem_cons, List.getElem?_set]
    grind
  case freeNodup  =>
    refine List.nodup_cons.mpr ⟨fun hm => ?_, h.freeNodup⟩
    have := (h.free.mp hm).right
    simp [hs] at this
  case map        =>
    intro y q
    have hm := h.map (x := y) (p := q)
    simp only [hlive]
    refine hm.trans ?_
    grind [Live.unique]
  case mapNodup   => exact h.mapNodup

theorem consistent (h : Inv r) : Consistent r where
  valid     := fun hl => ⟨Nat.pos_of_ne_zero (h.id_ne_zero hl), h.id_le hl⟩
  distinct  := h.id_inj
  slot      := h.slot
  free      := h.free.trans (by rw [Nat.one_le_iff_ne_zero])
  freeNodup := h.freeNodup
  map       := h.map
  mapNodup  := h.mapNodup
  visible   := by
    intro p q e e' hl hl' hv hv' hx
    have h₁ := h.mapFind_iff.mpr ⟨e, hl, hx, hv⟩
    have h₂ := h.mapFind_iff.mpr ⟨e', hl', rfl, hv'⟩
    exact Option.some.inj (h₁.symm.trans h₂)
  findId    := by
    intro i p
    simp only [IdentifiedObjectRegister.findId]
    split
    case isTrue hi =>
      rw [Option.join_eq_some_iff, h.slot, Nat.sub_add_cancel hi.left]
    case isFalse hi =>
      simp only [reduceCtorEq, false_iff]
      rintro ⟨e, hl, rfl⟩
      exact hi ⟨Nat.pos_of_ne_zero (h.id_ne_zero hl), h.id_le hl⟩
  find      := h.mapFind_iff

end Inv

@[simp] theorem grow_heap : r.grow.heap = r.heap := by
  simp only [grow]
  split <;> rfl

@[simp] theorem grow_map : r.grow.map = r.map := by
  simp only [grow]
  split <;> rfl

theorem grow_mapFind : r.grow.mapFind x = r.mapFind x := by
  simp only [mapFind, grow_map]

theorem grow_freeIds : ∃ i is, r.grow.freeIds = i :: is := by
  simp only [grow]
  split
  case isTrue    => exact ⟨_, _, rfl⟩
  case isFalse h => exact List.exists_cons_of_ne_nil h

theorem insert_of_some {throws} (h : r.mapFind x = some p) :
    r.insert x d throws = .ok (r.grow, some (p, false)) := by
  simp [insert, grow_mapFind, h]

theorem insert_of_throws (h : r.mapFind x = none) : r.insert x d true = .ok (r.grow, none) := by
  simp [insert, grow_mapFind, h]

theorem Inv.insert_of_none (hi : Inv r) (h : r.mapFind x = none) (hf : r.grow.freeIds = i :: is) :
    r.insert x d false = .ok (r.grow.constructed x d i is, some (r.heap.length, true)) := by
  have hs := (hi.grow.free.mp (show i ∈ r.grow.freeIds by simp [hf])).right
  have hr : (r.grow.allocate ⟨x, i, false, d⟩).reset (i - 1) (some r.heap.length) =
      .ok { r.grow.allocate ⟨x, i, false, d⟩ with lut := r.grow.lut.set (i - 1) (some r.heap.length) } := by
    simp [reset, allocate, hs]
  simp only [insert, grow_mapFind, h, hf, grow_heap, hr, Except.ok_bind, Bool.false_eq_true, if_false]
  simp [allocate, IdentifiedObjectRegister.constructed, pure, Except.pure]

-- What `hide` leaves.
def afterHide (r : IdentifiedObjectRegister α) (p : Pointer) (e : Element α) : IdentifiedObjectRegister α :=
  if e.hidden then r else r.hidden p e

theorem Inv.hide_eq (h : Inv r) (hl : r.Live p e) : r.hide p = .ok (r.afterHide p e) := by
  simp only [hide, h.isValid_eq hl, Except.ok_bind, if_true, deref_of_live hl, afterHide]
  split
  case isTrue     => rfl
  case isFalse hv =>
    have := h.mapFind_iff.mpr ⟨e, hl, rfl, by simpa using hv⟩
    simp [this, IdentifiedObjectRegister.hidden, pure, Except.pure]

theorem live_afterHide (hl : r.Live p e) : (r.afterHide p e).Live q e' ↔
    if q = p then e' = { e with hidden := true } else r.Live q e' := by
  simp only [afterHide]
  split
  case isTrue hv =>
    by_cases hq : q = p
    case pos =>
      have he : { e with hidden := true } = e := by rw [← hv]
      simp only [hq, if_true, he]
      exact ⟨fun h => h.unique hl, fun h => h ▸ hl⟩
    case neg => simp [hq]
  case isFalse => exact live_hidden hl

theorem Inv.afterHide (h : Inv r) (hl : r.Live p e) : Inv (r.afterHide p e) := by
  simp only [IdentifiedObjectRegister.afterHide]
  split
  case isTrue     => exact h
  case isFalse hv => exact h.hidden hl (by simpa using hv)

theorem Inv.erase_eq (h : Inv r) (hl : r.Live p e) :
    r.erase p = .ok ((r.afterHide p e).removed p e, first (r.lut.drop e.id)) := by
  have hl' : (r.afterHide p e).Live p { e with hidden := true } := (live_afterHide hl).mpr (by simp)
  have hs := (h.afterHide hl).slot_of_live hl'
  have hr : ((r.afterHide p e).pushFreeId e.id).reset (e.id - 1) none =
      .ok ((r.afterHide p e).removed p e) := by
    simp [reset, pushFreeId, hs, IdentifiedObjectRegister.removed]
  simp [erase, h.isValid_eq hl, increment, deref_of_live hl, h.hide_eq hl, deref_of_live hl', hr, pure,
    Except.pure]

theorem live_erased (hl : r.Live p e) : ((r.afterHide p e).removed p e).Live q e' ↔ q ≠ p ∧ r.Live q e' := by
  rw [live_removed, live_afterHide hl]
  by_cases hq : q = p
  case pos => simp [hq]
  case neg => simp [hq]

theorem Inv.erased (h : Inv r) (hl : r.Live p e) : Inv ((r.afterHide p e).removed p e) := by
  have hl' : (r.afterHide p e).Live p { e with hidden := true } := (live_afterHide hl).mpr (by simp)
  have hi : Inv ((r.afterHide p e).removed p { e with hidden := true }) := (h.afterHide hl).removed hl' rfl
  exact hi

-- What an operation leaves of the elements: those that are not erased keep their IDs and what has been erased
-- does not come back.
structure Frame (r r' : IdentifiedObjectRegister α) (erased : List Pointer) : Prop where
  old  : ∀ {p e'}, r'.Live p e' → p < r.heap.length → ∃ e, r.Live p e ∧ e.id = e'.id
  kept : ∀ {p e}, r.Live p e → p ∉ erased → ∃ e', r'.Live p e' ∧ e'.id = e.id
  grow : r.heap.length ≤ r'.heap.length

theorem Frame.refl : Frame r r [] where
  old  := fun h _ => ⟨_, h, rfl⟩
  kept := fun h _ => ⟨_, h, rfl⟩
  grow := le_rfl

theorem live_of_heap (h : r'.heap = r.heap) : r'.Live p e ↔ r.Live p e := by
  simp [Live, h]

theorem Frame.of_heap (h : r'.heap = r.heap) : Frame r r' [] where
  old  := fun hl _ => ⟨_, (live_of_heap h).mp hl, rfl⟩
  kept := fun hl _ => ⟨_, (live_of_heap h).mpr hl, rfl⟩
  grow := by rw [h]

theorem frame_constructed : Frame r.grow (r.grow.constructed x d i is) [] where
  old  := by
    intro p e' hl hp
    cases live_constructed.mp hl
    case inl hl => exact ⟨_, hl, rfl⟩
    case inr hl => exact absurd hl.left (Nat.ne_of_lt hp)
  kept := fun hl _ => ⟨_, live_constructed.mpr (.inl hl), rfl⟩
  grow := by simp [constructed]

theorem frame_afterHide (hl : r.Live p e) : Frame r (r.afterHide p e) [] where
  old  := by
    intro q e' hq _
    rw [live_afterHide hl] at hq
    split at hq
    case isTrue h  => exact ⟨e, h ▸ hl, by rw [hq]⟩
    case isFalse h => exact ⟨e', hq, rfl⟩
  kept := by
    intro q e' hq _
    by_cases h : q = p
    case pos =>
      subst h
      cases hl.unique hq
      exact ⟨{ e with hidden := true }, (live_afterHide hl).mpr (by rw [if_pos rfl]), rfl⟩
    case neg => exact ⟨e', (live_afterHide hl).mpr (by simpa [h] using hq), rfl⟩
  grow := by
    simp only [afterHide]
    split <;> simp [hidden]

theorem frame_erased (hl : r.Live p e) : Frame r ((r.afterHide p e).removed p e) [p] where
  old  := fun hq _ => ⟨_, ((live_erased hl).mp hq).right, rfl⟩
  kept := fun hq hp => ⟨_, (live_erased hl).mpr ⟨by simpa using hp, hq⟩, rfl⟩
  grow := by
    simp only [removed, List.length_set]
    exact (frame_afterHide hl).grow

-- What `insert` does in a consistent register.
theorem Inv.insert (h : Inv r) (x : Identifier) (d : α) (throws : Bool) : ∃ r' res,
    r.insert x d throws = .ok (r', res) ∧ Inv r' ∧ Frame r r' [] ∧ Inserted r r' x d res ∧
    (throws = false → res ≠ none) := by
  cases hx : r.mapFind x
  case some p =>
    obtain ⟨e, hl, he, hv⟩ := h.mapFind_iff.mp hx
    exact ⟨_, _, insert_of_some hx, h.grow, .of_heap grow_heap,
      .existing hl he hv grow_heap grow_map, by simp⟩
  case none =>
    cases throws
    case true  => exact ⟨_, _, insert_of_throws hx, h.grow, .of_heap grow_heap, .threw hx grow_heap grow_map, by simp⟩
    case false =>
      obtain ⟨i, is, hf⟩ : ∃ i is, r.grow.freeIds = i :: is := grow_freeIds
      have hlive : ∀ {p e}, r.grow.Live p e ↔ r.Live p e := live_of_heap grow_heap
      have hframe : Frame r (r.grow.constructed x d i is) [] := by
        have hg : Frame r.grow (r.grow.constructed x d i is) [] := frame_constructed
        constructor
        case old  =>
          intro p e' hl hp
          obtain ⟨e, he, hid⟩ := hg.old hl (by rwa [grow_heap])
          exact ⟨e, hlive.mp he, hid⟩
        case kept => exact fun hl => hg.kept (hlive.mpr hl)
        case grow => simpa only [grow_heap] using hg.grow
      refine ⟨_, _, h.insert_of_none hx hf, h.grow.constructed hf (by rwa [grow_mapFind]), hframe, ?_, by simp⟩
      refine .fresh (fun e hl => Nat.lt_irrefl _ hl.lt) hx
        (live_constructed.mpr (.inr ⟨by rw [grow_heap], rfl⟩)) rfl rfl rfl ?_
      intro q e hq
      rw [live_constructed, hlive, grow_heap]
      simp [hq]

theorem Inv.act (h : Inv r) {a : Action α} (he : r.enabled a) :
    ∃ r', r.act a = .ok r' ∧ Inv r' ∧ Frame r r' (Loop.erasedBy a) := by
  cases a
  case insert x d throws =>
    obtain ⟨r', res, hr, hi, hf, _⟩ := h.insert x d throws
    exact ⟨r', by simp [IdentifiedObjectRegister.act, hr, Except.map], hi, hf⟩
  case erase p           =>
    obtain ⟨e, hl⟩ := he
    exact ⟨_, by simp [IdentifiedObjectRegister.act, h.erase_eq hl, Except.map], h.erased hl, frame_erased hl⟩
  case hide p            =>
    obtain ⟨e, hl⟩ := he
    exact ⟨_, h.hide_eq hl, h.afterHide hl, frame_afterHide hl⟩
  case findId i          => exact ⟨r, rfl, h, .refl⟩
  case find x            => exact ⟨r, rfl, h, .refl⟩

theorem invariant : (machine (α := α)).Invariant Inv where
  init := by
    rintro r rfl
    exact .init
  step := by
    intro r a h he
    obtain ⟨r', hr, hi, _⟩ := h.act he
    exact ⟨r', hr, hi⟩

theorem first_drop {lut : List (Option Pointer)} {k : Nat} :
    (∀ c, first (lut.drop k) = some c → ∃ j, k ≤ j ∧ lut[j]? = some (some c) ∧
      ∀ i, k ≤ i → i < j → lut[i]? = some none) ∧
    (first (lut.drop k) = none → ∀ i q, k ≤ i → lut[i]? ≠ some (some q)) := by
  by_cases hk : k < lut.length
  case neg =>
    rw [List.drop_eq_nil_of_le (by omega)]
    refine ⟨by simp [first], fun _ i q hi hq => ?_⟩
    have := (List.getElem?_eq_some_iff.mp hq).choose
    omega
  case pos =>
    have ih := @first_drop lut (k + 1)
    rw [List.drop_eq_getElem_cons hk]
    have hget : lut[k]? = some lut[k] := List.getElem?_eq_getElem hk
    cases hs : lut[k]
    case none =>
      rw [hs] at hget
      constructor
      case left =>
        intro c hc
        obtain ⟨j, hj, hl, hn⟩ := ih.left c hc
        refine ⟨j, by omega, hl, fun i hi hij => ?_⟩
        by_cases hik : i = k
        case pos => rw [hik, hget]
        case neg => exact hn i (by omega) hij
      case right =>
        intro hc i q hi hq
        by_cases hik : i = k
        case pos => simp [hik, hget] at hq
        case neg => exact ih.right hc i q (by omega) hq
    case some c =>
      rw [hs] at hget
      constructor
      case left =>
        intro c' hc
        cases hc
        exact ⟨k, le_rfl, hget, fun i hi hij => absurd hij (by omega)⟩
      case right =>
        intro hc
        cases hc
termination_by lut.length - k

-- The next element is the one with the next greater ID.
theorem Inv.next_iff (h : Inv r) {k : Nat} (hq : r.Live q e) :
    (∃ c d, first (r.lut.drop k) = some c ∧ r.Live c d ∧ d.id ≤ e.id) ↔ k < e.id := by
  have hslot := h.slot_of_live hq
  have hpos := Nat.pos_of_ne_zero (h.id_ne_zero hq)
  constructor
  case mp =>
    rintro ⟨c, d, hc, hd, hle⟩
    obtain ⟨j, hj, hl, _⟩ := first_drop.left c hc
    obtain ⟨d', hd', hid⟩ := h.slot.mp hl
    cases hd.unique hd'
    have : k < d.id := by rw [hid]; exact Nat.lt_succ_of_le hj
    exact this.trans_le hle
  case mpr =>
    intro hk
    have hle : k ≤ e.id - 1 := Nat.le_sub_one_of_lt hk
    cases hc : first (r.lut.drop k)
    case none   => exact absurd hslot (first_drop.right hc _ _ hle)
    case some c =>
      obtain ⟨j, hj, hl, hn⟩ := first_drop.left c hc
      obtain ⟨d, hd, hid⟩ := h.slot.mp hl
      refine ⟨c, d, rfl, hd, ?_⟩
      by_contra hlt
      have hij : e.id - 1 < j := by
        rw [hid] at hlt
        exact Nat.lt_of_lt_of_le (Nat.sub_one_lt_of_lt hpos) (Nat.le_of_lt_succ (Nat.lt_of_not_le hlt))
      simp [hn _ hle hij] at hslot

theorem Inv.next_live (h : Inv r) {k c : Nat} (hc : first (r.lut.drop k) = some c) :
    ∃ d, r.Live c d ∧ k < d.id := by
  obtain ⟨j, hj, hl, _⟩ := first_drop.left c hc
  obtain ⟨d, hd, hid⟩ := h.slot.mp hl
  exact ⟨d, hd, by rw [hid]; exact Nat.lt_succ_of_le hj⟩

end

namespace Loop

variable {l l' : Loop α} {r : IdentifiedObjectRegister α} {p q i : Nat} {e e' : Element α}

-- The ID is at or behind the current position.
def Ahead (l : Loop α) (i : Id) : Prop :=
  ∃ c d, l.current = some c ∧ l.register.Live c d ∧ d.id ≤ i

structure Inv (l : Loop α) : Prop where
  start    : l.start.Inv
  register : l.register.Inv
  grow     : l.start.heap.length ≤ l.register.heap.length
  current  : ∀ {p}, l.current = some p → ∃ e, l.register.Live p e
  old      : ∀ {p}, p ∈ l.visited → p < l.register.heap.length
  behind   : ∀ {p e}, p ∈ l.visited → l.register.Live p e → ¬l.Ahead e.id
  nodup    : l.visited.Nodup
  reached  : ∀ {p e}, l.start.Live p e → p ∉ l.erased →
    p ∈ l.visited ∨ ∃ e', l.register.Live p e' ∧ l.Ahead e'.id

theorem ahead_iff (hc : l.current = some p) (hl : l.register.Live p e) : l.Ahead i ↔ e.id ≤ i := by
  constructor
  case mp =>
    rintro ⟨c, d, hc', hd, hle⟩
    cases hc.symm.trans hc'
    exact hl.unique hd ▸ hle
  case mpr => exact fun h => ⟨p, e, hc, hl, h⟩

namespace Inv

theorem init (h : r.Inv) : Inv { start := r, register := r, current := r.begin } where
  start    := h
  register := h
  grow     := le_rfl
  current  := by
    intro p hp
    obtain ⟨e, hl, _⟩ := h.next_live (k := 0) hp
    exact ⟨e, hl⟩
  old      := by simp
  behind   := by simp
  nodup    := List.nodup_nil
  reached  := by
    intro p e hl _
    have hn := (h.next_iff (k := 0) hl).mpr (Nat.pos_of_ne_zero (h.id_ne_zero hl))
    exact .inr ⟨e, hl, hn⟩

-- The body of the loop uses the register.
theorem body {gone : List Pointer} (h : l.Inv) (hi : r.Inv) (hf : Frame l.register r gone)
    (hc : l.current = some p) (hp : p ∉ gone) :
    Inv { l with register := r, erased := l.erased ++ gone } := by
  obtain ⟨e, hl⟩ := h.current hc
  obtain ⟨e', hl', hid⟩ := hf.kept hl hp
  have hahead : ∀ i, Ahead { l with register := r, erased := l.erased ++ gone } i ↔ l.Ahead i := by
    intro i
    rw [ahead_iff hc hl, ← hid]
    exact ahead_iff hc hl'
  constructor
  case start    => exact h.start
  case register => exact hi
  case grow     => exact h.grow.trans hf.grow
  case current  =>
    intro q hq
    cases hc.symm.trans hq
    exact ⟨e', hl'⟩
  case old      => exact fun hq => (h.old hq).trans_le hf.grow
  case behind   =>
    intro q d hq hd
    obtain ⟨d', hd', hid⟩ := hf.old hd (h.old hq)
    rw [hahead, ← hid]
    exact h.behind hq hd'
  case nodup    => exact h.nodup
  case reached  =>
    intro q d hd hq
    simp only [List.mem_append, not_or] at hq
    refine (h.reached hd hq.left).imp_right ?_
    rintro ⟨d', hd', ha⟩
    obtain ⟨d'', hd'', hid⟩ := hf.kept hd' hq.right
    exact ⟨d'', hd'', by rwa [hahead, hid]⟩

-- The current element is left and perhaps erased.
theorem leave (h : l.Inv) (hc : l.current = some p) (hl : l.register.Live p e) (hi : r.Inv)
    (hg : l.register.heap.length ≤ r.heap.length)
    (hlive : ∀ q e', q ≠ p → (r.Live q e' ↔ l.register.Live q e'))
    (hp : ∀ e', r.Live p e' → e' = e) :
    Inv { l with register := r, current := first (l.register.lut.drop e.id), visited := l.visited ++ [p] } := by
  have hahead : ∀ q e', q ≠ p → l.register.Live q e' →
      (Ahead { l with register := r, current := first (l.register.lut.drop e.id), visited := l.visited ++ [p] }
        e'.id ↔ e.id < e'.id) := by
    intro q e' hq hl'
    rw [← h.register.next_iff hl']
    refine exists_congr fun c => exists_congr fun d => and_congr_right fun hn => and_congr_left fun _ => ?_
    obtain ⟨d', hd', hlt⟩ := h.register.next_live hn
    refine hlive c d ?_
    rintro rfl
    exact Nat.lt_irrefl _ (hd'.unique hl ▸ hlt)
  have hnot : p ∉ l.visited := fun hv => h.behind hv hl ((ahead_iff hc hl).mpr le_rfl)
  constructor
  case start    => exact h.start
  case register => exact hi
  case grow     => exact h.grow.trans hg
  case current  =>
    intro q hq
    obtain ⟨d, hd, hlt⟩ := h.register.next_live hq
    refine ⟨d, (hlive q d ?_).mpr hd⟩
    rintro rfl
    exact Nat.lt_irrefl _ (hd.unique hl ▸ hlt)
  case old      =>
    intro q hq
    cases List.mem_append.mp hq
    case inl hq => exact (h.old hq).trans_le hg
    case inr hq => exact List.mem_singleton.mp hq ▸ hl.lt.trans_le hg
  case behind   =>
    intro q d hq hd ha
    by_cases hqp : q = p
    case pos =>
      subst hqp
      cases hp d hd
      obtain ⟨c, d', hn, _, hle⟩ := ha
      obtain ⟨d'', hd'', hlt⟩ := h.register.next_live hn
      by_cases hcq : c = q
      case pos => exact Nat.lt_irrefl _ (hd''.unique (hcq ▸ hl) ▸ hlt)
      case neg =>
        cases ((hlive c d' hcq).mp ‹_›).unique hd''
        exact Nat.lt_irrefl _ (hlt.trans_le hle)
    case neg =>
      have hd := (hlive q d hqp).mp hd
      have hlt := (hahead q d hqp hd).mp ha
      have hv : q ∈ l.visited := by simpa [hqp] using hq
      exact h.behind hv hd ((ahead_iff hc hl).mpr hlt.le)
  case nodup    =>
    exact (List.perm_append_singleton _ _).nodup_iff.mpr (List.nodup_cons.mpr ⟨hnot, h.nodup⟩)
  case reached  =>
    intro q d hd hq
    by_cases hqp : q = p
    case pos => exact .inl (by simp [hqp])
    case neg =>
      refine (h.reached hd hq).imp (fun hv => List.mem_append_left _ hv) ?_
      rintro ⟨d', hd', ha⟩
      refine ⟨d', (hlive q d' hqp).mpr hd', (hahead q d' hqp hd').mpr ?_⟩
      refine lt_of_le_of_ne ((ahead_iff hc hl).mp ha) fun he => hqp ?_
      exact h.register.id_inj hd' hl he.symm

theorem step (h : l.Inv) {a : Action α} (he : l.enabled a) : ∃ l', l.act a = .ok l' ∧ l'.Inv ∧ l'.start = l.start := by
  cases a
  case body a       =>
    obtain ⟨he, p, hc, hp⟩ := he
    obtain ⟨r, hr, hi, hf⟩ := h.register.act he
    exact ⟨_, by simp [act, hr, pure, Except.pure], h.body hi hf hc hp, rfl⟩
  case advance      =>
    obtain ⟨p, hc⟩ := Option.ne_none_iff_exists'.mp he
    obtain ⟨e, hl⟩ := h.current hc
    refine ⟨_, by simp [act, hc, increment, deref_of_live hl, pure, Except.pure],
      h.leave hc hl h.register le_rfl (fun _ _ _ => Iff.rfl) (fun e' hl' => hl'.unique hl), rfl⟩
  case eraseCurrent =>
    obtain ⟨p, hc⟩ := Option.ne_none_iff_exists'.mp he
    obtain ⟨e, hl⟩ := h.current hc
    refine ⟨_, by simp [act, hc, h.register.erase_eq hl, pure, Except.pure],
      h.leave hc hl (h.register.erased hl) (frame_erased hl).grow (fun q e' hq => ?_) (fun e' hl' => ?_), rfl⟩
    case refine_1 => simp [live_erased hl, hq]
    case refine_2 => simp [live_erased hl] at hl'
  case eraseCopy    =>
    obtain ⟨p, hc⟩ := Option.ne_none_iff_exists'.mp he
    obtain ⟨e, hl⟩ := h.current hc
    refine ⟨_, by simp [act, hc, increment, deref_of_live hl, h.register.erase_eq hl, pure, Except.pure],
      h.leave hc hl (h.register.erased hl) (frame_erased hl).grow (fun q e' hq => ?_) (fun e' hl' => ?_), rfl⟩
    case refine_1 => simp [live_erased hl, hq]
    case refine_2 => simp [live_erased hl] at hl'

theorem invariant : (machine (α := α)).Invariant Inv where
  init := by
    rintro l ⟨r, hr, rfl⟩
    exact .init (IdentifiedObjectRegister.invariant.reachable hr)
  step := by
    intro l a h he
    obtain ⟨l', hs, hi, _⟩ := h.step he
    exact ⟨l', hs, hi⟩

-- Nothing is left ahead of the end.
theorem visits (h : l.Inv) (hc : l.current = none) (hl : l.start.Live p e) (hp : p ∉ l.erased) :
    l.visited.count p = 1 := by
  cases h.reached hl hp
  case inl hv => exact List.count_eq_one_of_mem h.nodup hv
  case inr ha =>
    obtain ⟨_, _, c, _, hn, _⟩ := ha
    simp [hc] at hn

end Inv

end Loop

theorem register_consistent (α : Type) (r : IdentifiedObjectRegister α) (h : machine.Reachable r) :
    Consistent r ∧
    (∀ a, r.enabled a → ∃ r', r.act a = .ok r') ∧
    (∀ x d throws, ∃ r' res, r.insert x d throws = .ok (r', res) ∧ Inserted r r' x d res ∧
      (throws = false → res ≠ none)) ∧
    ∀ l, Loop.machine.Reachable l → l.start = r →
      (∀ a, l.enabled a → ∃ l', l.act a = .ok l') ∧ (∀ p, l.visited.count p ≤ 1) ∧
      (l.current = none → ∀ p e, r.Live p e → p ∉ l.erased → l.visited.count p = 1) := by
  have hi := invariant.reachable h
  refine ⟨hi.consistent, fun a he => ?_, fun x d throws => ?_, fun l hl hs => ?_⟩
  case refine_1 =>
    obtain ⟨r', hr, _⟩ := hi.act he
    exact ⟨r', hr⟩
  case refine_2 =>
    obtain ⟨r', res, hr, _, _, hins, ht⟩ := hi.insert x d throws
    exact ⟨r', res, hr, hins, ht⟩
  case refine_3 =>
    have hli := Loop.Inv.invariant.reachable hl
    refine ⟨fun a he => Loop.Inv.invariant.safe hl he, fun p => ?_, fun hc p e hp hn => ?_⟩
    case refine_1 => exact List.nodup_iff_count_le_one.mp hli.nodup p
    case refine_2 => exact hli.visits hc (hs ▸ hp) hn

theorem isSome_iff_live {r : IdentifiedObjectRegister α} {p : Nat} :
    r.heap[p]?.join.isSome = true ↔ ∃ e, r.Live p e := by
  simp [Live, Option.isSome_iff_exists, Option.join_eq_some_iff]

instance {r : IdentifiedObjectRegister α} {p : Nat} : Decidable (∃ e, r.Live p e) :=
  decidable_of_iff _ isSome_iff_live

instance {r : IdentifiedObjectRegister α} {a : Action α} : Decidable (machine.enabled r a) :=
  match a with
  | .erase p | .hide p                    => inferInstanceAs (Decidable (∃ e, r.Live p e))
  | .insert _ _ _ | .findId _ | .find _ => isTrue trivial

-- Two elements with the same identifier, of which the first one is hidden.
theorem register_consistent_hidden : ∃ r : IdentifiedObjectRegister Nat, Consistent r ∧ r.heap.length = 2 := by
  let x : Identifier := ⟨1, "a", false⟩
  obtain ⟨r, hr⟩ : ∃ r : IdentifiedObjectRegister Nat,
    machine.run {} [.insert x 5 false, .hide 0, .insert x 6 false] = some r := ⟨_, rfl⟩
  have hc := (register_consistent Nat r (.of_run (.init rfl) hr)).left
  cases hr
  exact ⟨_, hc, rfl⟩

end IdentifiedObjectRegister

end Yogi
