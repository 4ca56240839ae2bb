import YogiModel.Core.Leaf
import YogiModel.Mapping.Endpoint

namespace Yogi.Leaf

open Mapping

-- The state machines of a leaf as an endpoint of its connection.
def objs (l : Leaf) : Objs := fun k i =>
  match k.1 with
  | .terminal =>
    (l.terminals.get? i).bind fun e => if e.identifier = k.2 then some e.data.fsm else none
  | .binding =>
    (l.bindings.get? i).bind fun e => if e.identifier = k.2 then some e.data.fsm else none

-- The mapping state of a terminal as far as inheriting classes have been told.
def Effect.mapped (tm : Id) (b : Bool) : Effect → Bool
  | .call _ (.terminalMappingChanged isMapped tm') => if tm' = tm then isMapped else b
  | .terminalInserted tm'                          => if tm' = tm then false else b
  | _                                              => b

def reported (s : Id → Bool) (es : List Effect) : Id → Bool := fun tm =>
  es.foldl (Effect.mapped tm) (s tm)

-- What the leaf does: it sends `ms` and tells inheriting classes about a change of the mapping states
-- by `r`, as long as it has the connection `c`.
structure Does (c : Option Bool) (es : List Effect) (ms : List Message)
    (r : (Id → Bool) → Id → Bool) : Prop where
  sent     : sent es = ms
  reported : ∀ s, reported s es = r s
  calls    : ∀ {l h}, .call l h ∈ es → l.connection = c

variable {l l' : Leaf} {i j : Id} {x : Identifier} {f : Fsm} {out : Fsm.Outcome} {c : Option Bool}
  {es es' : List Effect} {ms ms' : List Message} {r r' : (Id → Bool) → Id → Bool} {s : Id → Bool}

theorem reported_append : reported s (es ++ es') = reported (reported s es) es' := by
  funext tm
  exact List.foldl_append

theorem Does.nil : Does c [] [] id :=
  ⟨rfl, fun _ => rfl, by simp⟩

theorem Does.congr (h : Does c es ms r) (hm : ms = ms') (hr : ∀ s, r s = r' s) :
    Does c es ms' r' :=
  hm ▸ ⟨h.sent, fun s => (h.reported s).trans (hr s), h.calls⟩

theorem Does.append (h : Does c es ms r) (h' : Does c es' ms' r') :
    Does c (es ++ es') (ms ++ ms') (r' ∘ r) where
  sent     := by
    simp only [Leaf.sent, List.filterMap_append]
    exact congrArg₂ _ h.sent h'.sent
  reported := fun s => by rw [reported_append, h.reported, h'.reported]; rfl
  calls    := fun hm => (List.mem_append.mp hm).elim h.calls h'.calls

theorem Does.cons {e} (h : Does c [e] ms r) (h' : Does c es ms' r') :
    Does c (e :: es) (ms ++ ms') (r' ∘ r) :=
  h.append h'

theorem Does.send {m} : Does c [.send m] [m] id :=
  ⟨rfl, fun _ => rfl, by simp⟩

theorem Does.publishState (bs : List Binding) {b : Bool} :
    Does c (bs.map (.publishState · b)) [] id := by
  induction bs
  case nil          => exact Does.nil
  case cons d ds ih => exact Does.cons ⟨rfl, fun _ => rfl, by simp⟩ ih

theorem Does.inserted (tm : Id) :
    Does c [.terminalInserted tm] [] fun s => Function.update s tm false := by
  refine ⟨rfl, fun s => ?_, by simp⟩
  funext i
  simp [Leaf.reported, Effect.mapped, Function.update_apply, eq_comm]

theorem Does.terminalMappingChanged (b : Bool) (tm : Id) (h : l.connection = c) :
    Does c [.call l (.terminalMappingChanged b tm)] [] fun s => Function.update s tm b := by
  refine ⟨rfl, fun s => ?_, by simp [h]⟩
  funext i
  simp [Leaf.reported, Effect.mapped, Function.update_apply, eq_comm]

theorem Does.bindingGroupMappingChanged {b bd} (h : l.connection = c) :
    Does c [.call l (.bindingGroupMappingChanged b bd)] [] id :=
  ⟨rfl, fun _ => rfl, by simp [h]⟩

theorem Does.terminalRemoved (t : Nat) (tm : Id) (h : l.connection = c) :
    Does c [.call l (.terminalRemoved t tm)] [] id :=
  ⟨rfl, fun _ => rfl, by simp [h]⟩

theorem Does.bindingRemoved (b : Binding) (bd : Id) (h : l.connection = c) :
    Does c [.call l (.bindingRemoved b bd)] [] id :=
  ⟨rfl, fun _ => rfl, by simp [h]⟩

-- The functions that are passed to the transitions.

theorem run_terminalCall (l : Leaf) (tm : Element TerminalInfo) (j : Id) (cs : List Fsm.Call) :
    (run (terminalCall tm j) l cs).1 = l ∧
    Does l.connection (run (terminalCall tm j) l cs).2
      ((cs.filterMap (·.body tm.identifier tm.id j)).map Role.terminal.message)
      fun s => Function.update s tm.id (cs.foldl Fsm.Call.mapped (s tm.id)) := by
  induction cs
  case nil => exact ⟨rfl, Does.nil.congr rfl fun s => (Function.update_eq_self _ _).symm⟩
  case cons c cs ih =>
    obtain ⟨hl, hd⟩ := ih
    cases c
    case mappStCh b =>
      refine ⟨hl, ?_⟩
      have := (Does.terminalMappingChanged b tm.id rfl).append hd
      refine this.congr rfl fun s => ?_
      simp [Fsm.Call.mapped]
    all_goals exact ⟨hl, Does.send.append hd⟩

theorem updateBindingState_spec (l : Leaf) (bd : Id) (b : Bool) :
    (l.updateBindingState bd b).1.connection = l.connection ∧
    (l.updateBindingState bd b).1.terminals = l.terminals ∧
    (∀ i, (l.updateBindingState bd b).1.bindings.get? i =
      if i = bd then
        (l.bindings.get? i).map (Element.modify fun d => { d with established := b })
      else l.bindings.get? i) ∧
    Does l.connection (l.updateBindingState bd b).2 [] id := by
  simp only [updateBindingState]
  cases h : l.bindings.get? bd
  case none =>
    refine ⟨rfl, rfl, fun i => ?_, Does.nil⟩
    cases Decidable.em (i = bd) <;> simp [*]
  case some e =>
    cases Decidable.em (e.data.established = b)
    case inl he =>
      simp only [he, ne_eq, not_true_eq_false, if_false, true_and]
      refine ⟨fun i => ?_, Does.nil⟩
      split
      case isTrue hi =>
        subst hi he
        simp only [h, Option.map_some]
        rfl
      case isFalse => rfl
    case inr he =>
      simp only [ne_eq, he, not_false_eq_true, if_true, Register.get?_modify, implies_true, true_and]
      exact Does.cons (Does.bindingGroupMappingChanged (by rfl)) (Does.publishState _)

-- The state of a binding group after a call.
def established (connection : Option Bool) (b : Bool) : Fsm.Call → Bool
  | .mappStCh true  => if connection = some false then true else b
  | .mappStCh false => false
  | _               => b

theorem bindingCall_spec (l : Leaf) (bd : Element BindingInfo) (j : Id) (c : Fsm.Call) :
    (bindingCall bd j l c).1.connection = l.connection ∧
    (bindingCall bd j l c).1.terminals = l.terminals ∧
    (∀ i, (bindingCall bd j l c).1.bindings.get? i =
      if i = bd.id then
        (l.bindings.get? i).map
          (Element.modify fun d => { d with established := established l.connection d.established c })
      else l.bindings.get? i) ∧
    Does l.connection (bindingCall bd j l c).2
      (([c].filterMap (·.body bd.identifier bd.id j)).map Role.binding.message) id := by
  have hid : ∀ i, l.bindings.get? i =
      if i = bd.id then (l.bindings.get? i).map (Element.modify fun d => d) else l.bindings.get? i := by
    have : Element.modify (fun d : BindingInfo => d) = id := rfl
    simp [this]
  cases c <;> simp only [bindingCall, Fsm.Call.body, established]
  case mappStCh b =>
    cases b <;> simp only [updateBindingStateAfterMappingChanged]
    case false => simpa using updateBindingState_spec l bd.id false
    case true =>
      cases Decidable.em (l.connection = some false)
      case inl h =>
        have := updateBindingState_spec l bd.id true
        simpa [h] using this
      case inr h =>
        simp only [not_true_eq_false, if_false, h, List.filterMap_cons_none, List.filterMap_nil,
          List.map_nil, true_and]
        exact ⟨hid, Does.nil⟩
  all_goals exact ⟨trivial, trivial, hid, Does.send⟩

theorem run_bindingCall (l : Leaf) (bd : Element BindingInfo) (j : Id) (cs : List Fsm.Call) :
    (run (bindingCall bd j) l cs).1.connection = l.connection ∧
    (run (bindingCall bd j) l cs).1.terminals = l.terminals ∧
    (∀ i, (run (bindingCall bd j) l cs).1.bindings.get? i =
      if i = bd.id then
        (l.bindings.get? i).map (Element.modify fun d =>
          { d with established := cs.foldl (established l.connection) d.established })
      else l.bindings.get? i) ∧
    Does l.connection (run (bindingCall bd j) l cs).2
      ((cs.filterMap (·.body bd.identifier bd.id j)).map Role.binding.message) id := by
  induction cs generalizing l
  case nil =>
    refine ⟨rfl, rfl, fun i => ?_, Does.nil⟩
    cases h : l.bindings.get? i <;> simp only [run, h, Option.map_none, Option.map_some] <;>
      split <;> rfl
  case cons c cs ih =>
    obtain ⟨hc, ht, hb, hs⟩ := bindingCall_spec l bd j c
    obtain ⟨hc', ht', hb', hs'⟩ := ih (l := (bindingCall bd j l c).1)
    refine ⟨hc'.trans hc, ht'.trans ht, fun i => ?_, ?_⟩
    · simp only [run, hb', hb, hc, List.foldl_cons]
      split <;> cases l.bindings.get? i <;> rfl
    · rw [hc] at hs'
      have h := hs.append hs'
      rwa [← List.map_append, ← List.filterMap_append] at h

-- The effect of a transition.

theorem evalTerminal_spec (l : Leaf) (tm : Element TerminalInfo) (j : Id) (out : Fsm.Outcome) :
    (l.evalTerminal tm j out).1.connection = l.connection ∧
    (l.evalTerminal tm j out).1.bindings = l.bindings ∧
    (∀ i, (l.evalTerminal tm j out).1.terminals.get? i =
      if i = tm.id then
        if out.alive then
          (l.terminals.get? i).map (Element.modify ({ · with fsm := out.fsm }))
        else none
      else l.terminals.get? i) ∧
    Does l.connection (l.evalTerminal tm j out).2 (sends (.terminal, tm.identifier) tm.id j out)
      fun s => Function.update s tm.id (out.calls.foldl Fsm.Call.mapped (s tm.id)) := by
  simp only [evalTerminal]
  obtain ⟨hl, hd⟩ := run_terminalCall
    { l with terminals := l.terminals.modify tm.id ({ · with fsm := out.fsm }) } tm j out.calls
  split
  case isTrue h =>
    simp only [hl, Register.get?_modify, true_and, implies_true]
    exact hd
  case isFalse h =>
    simp only [hl, Register.get?_erase, Register.get?_modify, true_and]
    refine ⟨fun i => ?_, hd⟩
    split <;> simp

theorem evalBinding_spec (l : Leaf) (bd : Element BindingInfo) (j : Id) (out : Fsm.Outcome) :
    (l.evalBinding bd j out).1.connection = l.connection ∧
    (l.evalBinding bd j out).1.terminals = l.terminals ∧
    (∀ i, (l.evalBinding bd j out).1.bindings.get? i =
      if i = bd.id then
        if out.alive then
          (l.bindings.get? i).map (Element.modify fun d =>
            { d with
              fsm         := out.fsm
              established := out.calls.foldl (established l.connection) d.established })
        else none
      else l.bindings.get? i) ∧
    Does l.connection (l.evalBinding bd j out).2 (sends (.binding, bd.identifier) bd.id j out) id := by
  simp only [evalBinding]
  obtain ⟨hc, ht, hb, hd⟩ := run_bindingCall
    { l with bindings := l.bindings.modify bd.id ({ · with fsm := out.fsm }) } bd j out.calls
  split
  case isTrue h =>
    refine ⟨hc, ht, fun i => ?_, hd⟩
    simp only [hb, Register.get?_modify]
    split <;> cases l.bindings.get? i <;> rfl
  case isFalse h =>
    simp only [hc, ht, Register.get?_erase, hb, Register.get?_modify, true_and]
    refine ⟨fun i => ?_, hd⟩
    split <;> simp [*]

end Yogi.Leaf
