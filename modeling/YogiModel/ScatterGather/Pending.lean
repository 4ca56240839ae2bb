import YogiModel.Base.Index
import YogiModel.ScatterGather.LeafLogic

namespace Yogi.ScatterGather

-- An answer to an operation that a terminal owes, having got the scattered message by way of a binding
-- group.
structure Pending where
  operation : Id
  terminal  : Id
  group     : Id
  deriving DecidableEq

namespace Pending

def Awaited (P : Multiset Pending) (op : Id) : Prop :=
  ∃ p ∈ P, p.operation = op

instance {P : Multiset Pending} {op : Id} : Decidable (Awaited P op) :=
  Multiset.decidableExistsMultiset

-- What happens to pending answers: an answer is given by the terminal, or by the leaf if a binding is
-- destroyed, or it is dropped if a mapping changes.
inductive Event
  | stored (p : Pending)
  | answered (p : Pending) (flags : Nat)
  | destroyed (p : Pending)
  | dropped (p : Pending)

inductive Step : Multiset Pending → Event → Multiset Pending → Prop
  | stored {P p} (h : ∀ q ∈ P, q.operation = p.operation → q.terminal ≠ p.terminal) :
    Step P (.stored p) (p ::ₘ P)
  | answered {P p flags} : Step (p ::ₘ P) (.answered p flags) P
  | destroyed {P p} : Step (p ::ₘ P) (.destroyed p) P
  | dropped {P p} : Step (p ::ₘ P) (.dropped p) P

-- The Gather messages that are sent, `P` being the answers that are pending after the event.
def Event.gathers (P : Multiset Pending) : Event → List (Id × Nat)
  | stored _         => []
  | answered p flags =>
    [(p.operation, if Awaited P p.operation then flags else flags ||| gatherFinished)]
  | destroyed p      =>
    if Awaited P p.operation then []
    else [(p.operation, gatherBindingDestroyed ||| gatherFinished)]
  | dropped _        => []

-- A number of events all of which satisfy `A`.
inductive Run (A : Event → Prop) : Multiset Pending → List (Id × Nat) → Multiset Pending → Prop
  | nil {P} : Run A P [] P
  | cons {P e Q gs R} (h : Step P e Q) (ha : A e) (t : Run A Q gs R) : Run A P (e.gathers Q ++ gs) R

variable {P Q R : Multiset Pending} {p : Pending} {e : Event} {A B : Event → Prop}
  {gs hs : List (Id × Nat)} {op : Id}

theorem Run.single (h : Step P e Q) (ha : A e) : Run A P (e.gathers Q) Q :=
  List.append_nil (e.gathers Q) ▸ Run.cons h ha .nil

theorem Run.trans (h : Run A P gs Q) (h' : Run A Q hs R) : Run A P (gs ++ hs) R := by
  induction h
  case nil            => exact h'
  case cons hs ha _ ih => exact List.append_assoc .. ▸ Run.cons hs ha (ih h')

theorem Run.mono (h : Run A P gs Q) (hi : ∀ e, A e → B e) : Run B P gs Q := by
  induction h
  case nil             => exact .nil
  case cons hs ha _ ih => exact .cons hs (hi _ ha) ih

-- Without new answers to come the pending answers become fewer.
theorem Run.le (h : Run A P gs Q) (hA : ∀ p, ¬A (.stored p)) : Q ≤ P := by
  induction h
  case nil             => exact le_refl _
  case cons hs ha _ ih =>
    cases hs
    case stored => exact absurd ha (hA _)
    all_goals exact ih.trans (Multiset.le_cons_self ..)

theorem Run.dropped {c : Pending → Prop} [DecidablePred c]
    (hA : ∀ p ∈ P, ¬c p → A (.dropped p)) : Run A P [] (P.filter c) := by
  have hL : ∀ {L : List Pending} {Q}, (∀ p ∈ L, A (.dropped p)) → Run A (L + Q) [] Q := by
    intro L Q hL
    induction L
    case nil =>
      rw [Multiset.coe_nil, Multiset.zero_add]
      exact .nil
    case cons p L ih =>
      rw [← Multiset.cons_coe, Multiset.cons_add]
      exact .cons .dropped (hL p List.mem_cons_self) (ih fun q hq => hL q (List.mem_cons_of_mem _ hq))
  obtain ⟨L, h⟩ := Quot.exists_rep (P.filter fun p => ¬c p)
  have h : (L : Multiset Pending) = P.filter fun p => ¬c p := h
  have hP : P = L + P.filter c := by rw [h, Multiset.add_comm, Multiset.filter_add_not]
  conv => arg 2; rw [hP]
  refine hL fun p hp => ?_
  rw [← Multiset.mem_coe, h] at hp
  obtain ⟨hp, hc⟩ := Multiset.mem_filter.mp hp
  exact hA p hp hc

-- A terminal owes one answer to an operation at most.
def Single (P : Multiset Pending) : Prop :=
  (P.map fun p => (p.operation, p.terminal)).Nodup

theorem Single.of_cons (h : Single (p ::ₘ P)) :
    Single P ∧ ∀ q ∈ P, q.operation = p.operation → q.terminal ≠ p.terminal := by
  rw [Single, Multiset.map_cons, Multiset.nodup_cons] at h
  refine ⟨h.right, fun q hq ho ht => h.left (Multiset.mem_map.mpr ⟨q, hq, ?_⟩)⟩
  rw [ho, ht]

theorem Single.mono (h : Single P) (hq : Q ≤ P) : Single Q :=
  Multiset.nodup_of_le (Multiset.map_le_map hq) h

theorem Step.single (h : Step P e Q) (hp : Single P) : Single Q := by
  cases h
  case stored p h =>
    rw [Single, Multiset.map_cons, Multiset.nodup_cons]
    refine ⟨fun hm => ?_, hp⟩
    obtain ⟨q, hq, he⟩ := Multiset.mem_map.mp hm
    obtain ⟨ho, ht⟩ := Prod.mk.inj he
    exact h q hq ho ht
  all_goals exact hp.of_cons.left

theorem Run.keepsSingle (h : Run A P gs Q) (hp : Single P) : Single Q := by
  induction h
  case nil            => exact hp
  case cons hs _ _ ih => exact ih (hs.single hp)

end Pending

namespace LeafLogic

open Pending

-- The three tables of a leaf that describe the pending answers.

def LeafTable (s : LeafLogic) (P : Multiset Pending) : Prop :=
  (s.gatherOperations : Multiset (Id × Nat)).map (fun e => (e.1, some e.2)) =
    P.map fun p => (p.operation, s.leaf.objectOf p.terminal)

def GroupTable (s : LeafLogic) (P : Multiset Pending) : Prop :=
  Indexes Pending.group (fun p => (p.operation, p.terminal)) s.bindingExt P

def TerminalTable (s : LeafLogic) (P : Multiset Pending) : Prop :=
  Indexes Pending.terminal (fun p => (p.operation, p.group))
    (fun tm => (s.terminalExt tm).gatherOperations) P

-- The terminal and the group of a pending answer exist.
structure Known (s : LeafLogic) (p : Pending) (t : Nat) : Prop where
  terminal : s.leaf.objectOf p.terminal = some t
  object   : (s.terminals t).map (·.id) = some p.terminal
  group    : (s.leaf.bindings.get? p.group).isSome = true

structure Tables (s : LeafLogic) (P : Multiset Pending) : Prop where
  leaf      : s.LeafTable P
  groups    : s.GroupTable P
  terminals : s.TerminalTable P
  single    : Single P
  known     : ∀ p ∈ P, ∃ t, s.Known p t

variable {s s' : LeafLogic} {P Q : Multiset Pending} {p : Pending} {t : Nat} {op tm bd : Id}

@[simp] theorem setTerminalExt_leaf {e : TerminalExt} : (s.setTerminalExt tm e).leaf = s.leaf := rfl

@[simp] theorem setBindingExt_leaf {e : List (Id × Id)} : (s.setBindingExt bd e).leaf = s.leaf := rfl

@[simp] theorem setTerminalExt_gatherOperations {e : TerminalExt} :
    (s.setTerminalExt tm e).gatherOperations = s.gatherOperations := rfl

@[simp] theorem setBindingExt_gatherOperations {e : List (Id × Id)} :
    (s.setBindingExt bd e).gatherOperations = s.gatherOperations := rfl

theorem LeafTable.erase (h : s.LeafTable (p ::ₘ Q)) (ht : s.leaf.objectOf p.terminal = some t) :
    ∃ g, eraseFromMultimap s.gatherOperations p.operation t = .ok g ∧
      { s with gatherOperations := g }.LeafTable Q := by
  rw [LeafTable, Multiset.map_cons, ht] at h
  have hm : (p.operation, t) ∈ s.gatherOperations := by
    have hm := Multiset.mem_cons_self (p.operation, some t)
      (Q.map fun p => (p.operation, s.leaf.objectOf p.terminal))
    rw [← h] at hm
    simpa using hm
  rw [coe_of_mem hm, Multiset.map_cons] at h
  exact ⟨_, if_pos hm, (Multiset.cons_inj_right _).mp h⟩

theorem LeafTable.mem (h : s.LeafTable P) : op ∈ s.gatherOperations.map Prod.fst ↔ Awaited P op := by
  have := congrArg (Multiset.map Prod.fst) h
  rw [Multiset.map_map, Multiset.map_map, Multiset.map_coe] at this
  rw [← Multiset.mem_coe, show (Prod.fst : Id × Nat → Id) = Prod.fst ∘ fun e => (e.1, some e.2) from rfl,
    this, Multiset.mem_map]
  rfl

theorem GroupTable.erase (h : s.GroupTable (p ::ₘ Q)) :
    eraseFromMultimap (s.bindingExt p.group) p.operation p.terminal =
      .ok ((s.bindingExt p.group).erase (p.operation, p.terminal)) ∧
    (s.setBindingExt p.group ((s.bindingExt p.group).erase (p.operation, p.terminal))).GroupTable Q :=
  ⟨if_pos ((Indexes.mem h).mpr ⟨p, Multiset.mem_cons_self .., rfl, rfl⟩), Indexes.erase h⟩

theorem TerminalTable.mem (h : s.TerminalTable P) :
    op ∈ (s.terminalExt tm).gatherOperations.map Prod.fst ↔
      ∃ p ∈ P, p.operation = op ∧ p.terminal = tm := by
  rw [List.mem_map]
  constructor
  · rintro ⟨e, he, ho⟩
    obtain ⟨p, hp, ht, hv⟩ := (Indexes.mem h).mp he
    exact ⟨p, hp, ho ▸ congrArg Prod.fst hv, ht⟩
  · rintro ⟨p, hp, ho, ht⟩
    exact ⟨(p.operation, p.group), (Indexes.mem h).mpr ⟨p, hp, ht, rfl⟩, ho⟩

theorem TerminalTable.set {g : List (Id × Id)} (h : Indexes Pending.terminal
      (fun p => (p.operation, p.group))
      (Function.update (fun tm => (s.terminalExt tm).gatherOperations) tm g) P) :
    (s.setTerminalExt tm { s.terminalExt tm with gatherOperations := g }).TerminalTable P := by
  refine Indexes.congr h fun i => ?_
  simp only [setTerminalExt, Function.update_apply]
  split <;> rfl

-- The operation of the erased entry is not found any more.
theorem TerminalTable.filter (h : s.TerminalTable (p ::ₘ Q)) (hs : Single (p ::ₘ Q)) :
    (s.setTerminalExt p.terminal { s.terminalExt p.terminal with
      gatherOperations := (s.terminalExt p.terminal).gatherOperations.filter (·.1 ≠ p.operation)
      }).TerminalTable Q :=
  .set (Indexes.filter h (by simp) fun q hq ht ho => hs.of_cons.right q hq ho ht)

theorem TerminalTable.erase (h : s.TerminalTable (p ::ₘ Q)) :
    (s.setTerminalExt p.terminal { s.terminalExt p.terminal with
      gatherOperations := (s.terminalExt p.terminal).gatherOperations.erase (p.operation, p.group)
      }).TerminalTable Q :=
  .set (Indexes.erase h)

end LeafLogic
end Yogi.ScatterGather
