import YogiModel.Core.LeafOperations
import YogiModel.Core.LeafConnection

namespace Yogi

-- What inheriting classes see of a leaf: the terminal of an entry, unless it has been destroyed, the
-- bindings of a group together with their state, and the mapping states that they have been told.
structure LeafView where
  connection : Option Bool
  terminal   : Id → Option (Option Nat)
  group      : Id → Option (List Binding × Bool)
  mapped     : Id → Bool

namespace Leaf

def view (l : Leaf) (m : Id → Bool) : LeafView where
  connection := l.connection
  terminal   := fun i => (l.terminals.get? i).map (·.data.terminal)
  group      := fun i => (l.bindings.get? i).map fun e => (e.data.bindings, e.data.established)
  mapped     := m

end Leaf

namespace LeafView

open Leaf

def setTerminal (v : LeafView) (tm : Id) (t : Option (Option Nat)) : LeafView :=
  { v with terminal := Function.update v.terminal tm t }

def setGroup (v : LeafView) (bd : Id) (g : Option (List Binding × Bool)) : LeafView :=
  { v with group := Function.update v.group bd g }

def setMapped (v : LeafView) (tm : Id) (b : Bool) : LeafView :=
  { v with mapped := Function.update v.mapped tm b }

-- What happens behind the back of inheriting classes, and the calls of virtual functions it gives rise
-- to. Entries are only erased after their object has been destroyed, and every call reports a change.
inductive Move : LeafView → List Effect → LeafView → Prop
  | send (v m) : Move v [.send m] v
  | publishState (v b e) : Move v [.publishState b e] v
  | mapped {v l tm t b} (hl : l.view v.mapped = v) (ht : v.terminal tm = some (some t))
      (hm : v.mapped tm = !b) (hc : b = true → v.connection ≠ none) :
    Move v [.call l (.terminalMappingChanged b tm)] (v.setMapped tm b)
  | established {v l bd bs b} (hg : v.group bd = some (bs, !b))
      (hl : l.view v.mapped = v.setGroup bd (some (bs, b))) :
    Move v [.call l (.bindingGroupMappingChanged b bd)] (v.setGroup bd (some (bs, b)))
  | terminalErased {v tm} (h : v.terminal tm = some none) : Move v [] (v.setTerminal tm none)
  | groupErased {v bd b} (h : v.group bd = some ([], b)) : Move v [] (v.setGroup bd none)

-- The bindings of a group, which has none if it does not exist.
def bindings (v : LeafView) (bd : Id) : List Binding :=
  ((v.group bd).map Prod.fst).getD []

-- The terminal of an entry, if both exist.
def object (v : LeafView) (tm : Id) : Option Nat :=
  (v.terminal tm).join

inductive Trace : LeafView → List Effect → LeafView → Prop
  | nil {v} : Trace v [] v
  | cons {v es u es' w} (h : Move v es u) (t : Trace u es' w) : Trace v (es ++ es') w

variable {v u w : LeafView} {es es' : List Effect}

theorem Trace.single (h : Move v es u) : Trace v es u :=
  List.append_nil es ▸ Trace.cons h .nil

theorem Trace.append (h : Trace v es u) (h' : Trace u es' w) : Trace v (es ++ es') w := by
  induction h
  case nil          => exact h'
  case cons hm _ ih => exact List.append_assoc .. ▸ Trace.cons hm (ih h')

-- The rule by which inheriting classes carry an invariant through what the base class does.
theorem Trace.induct {P : LeafView → LeafView → Prop} (hr : ∀ v, P v v)
    (ht : ∀ {v u w}, P v u → P u w → P v w) (hm : ∀ {v es u}, Move v es u → P v u)
    (h : Trace v es w) : P v w := by
  induction h
  case nil          => exact hr _
  case cons h _ ih  => exact ht (hm h) ih

theorem Trace.connection (h : Trace v es w) : w.connection = v.connection := by
  refine h.induct (P := fun v w => w.connection = v.connection) (fun _ => rfl)
    (fun h h' => h'.trans h) fun hm => ?_
  cases hm <;> rfl

-- Objects that exist are left alone.

theorem object_setTerminal {tm i : Id} {t : Option (Option Nat)} :
    (v.setTerminal tm t).object i = if i = tm then t.join else v.object i := by
  simp only [object, setTerminal, Function.update_apply]
  split <;> rfl

theorem bindings_setGroup {bd i : Id} {g : Option (List Binding × Bool)} :
    (v.setGroup bd g).bindings i = if i = bd then (g.map Prod.fst).getD [] else v.bindings i := by
  simp only [bindings, setGroup, Function.update_apply]
  split <;> rfl

theorem Trace.object (h : Trace v es w) {tm : Id} : w.object tm = v.object tm := by
  refine h.induct (P := fun v w => w.object tm = v.object tm) (fun _ => rfl)
    (fun h h' => h'.trans h) fun hm => ?_
  cases hm
  case terminalErased i h =>
    rw [object_setTerminal]
    split
    case isTrue hi => simp [LeafView.object, hi, h]
    case isFalse   => rfl
  all_goals rfl

theorem Trace.bindings (h : Trace v es w) {bd : Id} : w.bindings bd = v.bindings bd := by
  refine h.induct (P := fun v w => w.bindings bd = v.bindings bd) (fun _ => rfl)
    (fun h h' => h'.trans h) fun hm => ?_
  cases hm
  case established i bs b hg hl =>
    rw [bindings_setGroup]
    split
    case isTrue hi => simp [LeafView.bindings, hi, hg]
    case isFalse   => rfl
  case groupErased i b h =>
    rw [bindings_setGroup]
    split
    case isTrue hi => simp [LeafView.bindings, hi, h]
    case isFalse   => rfl
  all_goals rfl

-- An entry without an object may be erased.

theorem Trace.eraseTerminal (h : Trace v es w) {tm : Id} (ho : w.object tm = none) :
    Trace v es (w.setTerminal tm none) := by
  cases ht : w.terminal tm
  case none   => rwa [setTerminal, ← ht, Function.update_eq_self]
  case some t =>
    have hn : t = none := by simpa [LeafView.object, ht] using ho
    exact List.append_nil es ▸ h.append (.single (.terminalErased (hn ▸ ht)))

theorem Trace.eraseGroup (h : Trace v es w) {bd : Id} (hb : w.bindings bd = []) :
    Trace v es (w.setGroup bd none) := by
  cases hg : w.group bd
  case none   => rwa [setGroup, ← hg, Function.update_eq_self]
  case some g =>
    have hn : g = ([], g.2) := by
      have : g.1 = [] := by simpa [LeafView.bindings, hg] using hb
      rw [← this]
    exact List.append_nil es ▸ h.append (.single (.groupErased (hn ▸ hg)))

end LeafView

namespace Fsm

-- The calls that report the mapping state `b` and its changes do so alternately.
def Alternates : Bool → List Call → Prop
  | _, []                     => True
  | b, .mappStCh isMapped :: cs => b = !isMapped ∧ Alternates isMapped cs
  | b, _ :: cs                => Alternates b cs

-- A transition reports changes only, and none if the object has been destroyed.
structure Reports (f : Fsm) (cs : List Call) : Prop where
  alternates : Alternates f.isMapped cs
  silent     : f.destroyed = true → ∀ {b}, .mappStCh b ∉ cs

variable {f : Fsm} {out : Outcome} {i : Id}

theorem silent_destroyed {b : Bool} (h : f.processObjectDestroyed = .ok out) :
    .mappStCh b ∉ out.calls := by
  simp only [processObjectDestroyed] at h
  repeat' split at h
  all_goals cases h <;> simp

theorem reports_description (h : f.processRcvdDescription i = .ok out) : Reports f out.calls := by
  cases hs : f.state <;> simp only [processRcvdDescription, hs, reduceCtorEq] at h
  all_goals
    cases h
    constructor <;> simp [destroyed, isMapped, hs, Alternates]

theorem reports_mapping (h : f.processRcvdMapping i = .ok out) : Reports f out.calls := by
  cases hs : f.state <;> simp only [processRcvdMapping, hs, reduceCtorEq] at h <;> repeat' split at h
  all_goals cases h <;> constructor <;> simp [destroyed, isMapped, hs, Alternates]

theorem reports_noticed (h : f.processRcvdNoticed = .ok out) : Reports f out.calls := by
  cases hs : f.state <;> simp only [processRcvdNoticed, hs, reduceCtorEq] at h <;> repeat' split at h
  all_goals
    cases h
    constructor <;> simp [destroyed, isMapped, hs, Alternates]

theorem reports_removed (h : f.processRcvdRemoved = .ok out) : Reports f out.calls := by
  cases hs : f.state <;> simp only [processRcvdRemoved, hs, reduceCtorEq] at h <;> repeat' split at h
  all_goals cases h <;> constructor <;> simp [destroyed, isMapped, hs, Alternates]

theorem reports_removedAck (h : f.processRcvdRemovedAck = .ok out) : Reports f out.calls := by
  cases hs : f.state <;> simp only [processRcvdRemovedAck, hs, reduceCtorEq] at h
  split at h <;> cases h
  constructor <;> simp [Alternates]

end Fsm

namespace Leaf

open LeafView

variable {l l' : Leaf} {m : Id → Bool} {es : List Effect} {out : Fsm.Outcome} {j : Id}

theorem view_congr (hc : l'.connection = l.connection)
    (ht : ∀ i, (l'.terminals.get? i).map (·.data.terminal) =
      (l.terminals.get? i).map (·.data.terminal))
    (hb : ∀ i, (l'.bindings.get? i).map (fun e => (e.data.bindings, e.data.established)) =
      (l.bindings.get? i).map fun e => (e.data.bindings, e.data.established)) :
    l'.view m = l.view m := by
  simp only [view, LeafView.mk.injEq, and_true]
  exact ⟨hc, funext ht, funext hb⟩

theorem view_fsm_terminals {tm : Id} {f : TerminalInfo → Fsm} :
    { l with terminals := l.terminals.modify tm fun d => { d with fsm := f d } }.view m = l.view m := by
  refine view_congr rfl (fun i => ?_) fun i => rfl
  simp only [Register.get?_modify]
  split <;> cases l.terminals.get? i <;> rfl

theorem view_fsm_bindings {bd : Id} {f : BindingInfo → Fsm} :
    { l with bindings := l.bindings.modify bd fun d => { d with fsm := f d } }.view m = l.view m := by
  refine view_congr rfl (fun i => rfl) fun i => ?_
  simp only [Register.get?_modify]
  split <;> cases l.bindings.get? i <;> rfl

theorem view_erase_terminal {tm : Id} :
    { l with terminals := l.terminals.erase tm }.view m = (l.view m).setTerminal tm none := by
  simp only [view, setTerminal, LeafView.mk.injEq, true_and, and_true]
  funext i
  rw [Register.get?_erase, Function.update_apply]
  split <;> rfl

theorem view_erase_group {bd : Id} :
    { l with bindings := l.bindings.erase bd }.view m = (l.view m).setGroup bd none := by
  simp only [view, setGroup, LeafView.mk.injEq, true_and, and_true]
  funext i
  rw [Register.get?_erase, Function.update_apply]
  split <;> rfl

theorem view_hide_terminal {tm : Id} :
    { l with terminals := l.terminals.hide tm }.view m = l.view m := by
  refine view_congr rfl (fun i => ?_) fun i => rfl
  simp only [Register.get?_hide]
  split <;> cases l.terminals.get? i <;> rfl

theorem view_hide_group {bd : Id} :
    { l with bindings := l.bindings.hide bd }.view m = l.view m := by
  refine view_congr rfl (fun i => rfl) fun i => ?_
  simp only [Register.get?_hide]
  split <;> cases l.bindings.get? i <;> rfl

theorem trace_erase_terminal {v : LeafView} {tm : Id} (h : Trace v es (l.view m))
    (ho : (l.view m).object tm = none) :
    Trace v es ({ l with terminals := l.terminals.erase tm }.view m) := by
  rw [view_erase_terminal]
  exact h.eraseTerminal ho

theorem trace_erase_group {v : LeafView} {bd : Id} (h : Trace v es (l.view m))
    (hb : (l.view m).bindings bd = []) :
    Trace v es ({ l with bindings := l.bindings.erase bd }.view m) := by
  rw [view_erase_group]
  exact h.eraseGroup hb

-- A change of the mapping state of a terminal is reported as long as the terminal exists.

theorem trace_terminalCalls {tm : Element TerminalInfo} {cs : List Fsm.Call}
    (h : (∀ {b}, .mappStCh b ∉ cs) ∨ l.connection ≠ none ∧
      (∃ t, (l.view m).terminal tm.id = some (some t)) ∧ Fsm.Alternates (m tm.id) cs) :
    Trace (l.view m) (run (terminalCall tm j) l cs).2
      (l.view (reported m (run (terminalCall tm j) l cs).2)) := by
  induction cs generalizing m
  case nil => exact .nil
  case cons c cs ih =>
    cases c
    case mappStCh b =>
      cases h
      case inl h => exact absurd List.mem_cons_self h
      case inr h =>
        obtain ⟨hc, ⟨t, ht⟩, hm, ha⟩ := h
        have hr : reported m [.call l (.terminalMappingChanged b tm.id)] = Function.update m tm.id b :=
          (Does.terminalMappingChanged b tm.id rfl).reported m
        have hu : (l.view m).setMapped tm.id b = l.view (Function.update m tm.id b) := rfl
        have hmv := Trace.single (Move.mapped (l := l) (v := l.view m) rfl ht hm fun _ => hc)
        have := ih (m := Function.update m tm.id b) (.inr ⟨hc, ⟨t, ht⟩, by simpa using ha⟩)
        have := hmv.append (hu ▸ this)
        rw [← hr, ← reported_append] at this
        exact this
    all_goals
      refine (Trace.single (Move.send _ _)).append (ih ?_)
      cases h
      case inl h => exact .inl fun hb => h (List.mem_cons_of_mem _ hb)
      case inr h => exact .inr h

theorem trace_publishStates {v : LeafView} {bs : List Binding} {b : Bool} :
    Trace v (bs.map (.publishState · b)) v := by
  induction bs
  case nil          => exact .nil
  case cons c cs ih => exact (Trace.single (.publishState v c b)).append ih

theorem trace_updateBindingState {bd : Id} {b : Bool} :
    Trace (l.view m) (l.updateBindingState bd b).2
      ((l.updateBindingState bd b).1.view (reported m (l.updateBindingState bd b).2)) := by
  obtain ⟨hc, ht, hb, hd⟩ := updateBindingState_spec l bd b
  rw [hd.reported]
  simp only [updateBindingState] at hb ⊢
  cases h : l.bindings.get? bd
  case none => exact .nil
  case some e =>
    simp only [h] at hb
    cases Decidable.em (e.data.established = b)
    case inl he =>
      simp only [he, ne_eq, not_true_eq_false, if_false]
      exact .nil
    case inr he =>
      simp only [ne_eq, he, not_false_eq_true, if_true] at hb ⊢
      have hg : (l.view m).group bd = some (e.data.bindings, !b) := by
        simp only [view, h, Option.map_some, Option.some.injEq, Prod.mk.injEq, true_and]
        exact Bool.eq_not_of_ne he
      have hv : ({ l with bindings := l.bindings.modify bd ({ · with established := b }) } : Leaf).view m =
          (l.view m).setGroup bd (some (e.data.bindings, b)) := by
        simp only [view, setGroup, LeafView.mk.injEq, true_and, and_true]
        funext i
        rw [hb, Function.update_apply]
        split
        case isTrue hi => simp [hi, h]
        case isFalse   => rfl
      rw [id_eq, hv]
      exact (Trace.single (Move.established hg hv)).append trace_publishStates

theorem trace_bindingCalls {bd : Element BindingInfo} {cs : List Fsm.Call} :
    Trace (l.view m) (run (bindingCall bd j) l cs).2
      ((run (bindingCall bd j) l cs).1.view (reported m (run (bindingCall bd j) l cs).2)) := by
  induction cs generalizing l m
  case nil => exact .nil
  case cons c cs ih =>
    simp only [run, reported_append]
    refine Trace.append ?_ ih
    cases c
    case mappStCh b =>
      simp only [bindingCall, updateBindingStateAfterMappingChanged]
      repeat' split
      · exact trace_updateBindingState
      · exact trace_updateBindingState
      · exact .nil
    all_goals exact .single (Move.send _ _)

theorem trace_evalTerminal {tm : Element TerminalInfo}
    (h : (∀ {b}, .mappStCh b ∉ out.calls) ∨ l.connection ≠ none ∧
      (∃ t, (l.view m).terminal tm.id = some (some t)) ∧ Fsm.Alternates (m tm.id) out.calls)
    (hd : out.alive = false → (l.view m).object tm.id = none) :
    Trace (l.view m) (l.evalTerminal tm j out).2
      ((l.evalTerminal tm j out).1.view (reported m (l.evalTerminal tm j out).2)) := by
  let l₁ := { l with terminals := l.terminals.modify tm.id ({ · with fsm := out.fsm }) }
  have hv : ∀ m, l₁.view m = l.view m := fun _ => view_fsm_terminals
  have hl := (run_terminalCall l₁ tm j out.calls).left
  have ht := trace_terminalCalls (l := l₁) (j := j) (hv m ▸ h)
  rw [hv, hv] at ht
  simp only [evalTerminal]
  split
  case isTrue     => rwa [hl, hv]
  case isFalse ha =>
    rw [hl]
    refine trace_erase_terminal ((hv _).symm ▸ ht) ?_
    rw [hv]
    exact hd (by simpa using ha)

theorem trace_evalBinding {bd : Element BindingInfo}
    (hd : out.alive = false → (l.view m).bindings bd.id = []) :
    Trace (l.view m) (l.evalBinding bd j out).2
      ((l.evalBinding bd j out).1.view (reported m (l.evalBinding bd j out).2)) := by
  let l₁ := { l with bindings := l.bindings.modify bd.id ({ · with fsm := out.fsm }) }
  have hv : ∀ m, l₁.view m = l.view m := fun _ => view_fsm_bindings
  have ht : Trace (l₁.view m) (run (bindingCall bd j) l₁ out.calls).2 _ := trace_bindingCalls
  rw [hv] at ht
  simp only [evalBinding]
  split
  case isTrue     => exact ht
  case isFalse ha =>
    exact trace_erase_group ht (ht.bindings.trans (hd (by simpa using ha)))

-- What an operation of the base class looks like to inheriting classes.
structure Runs (m : Id → Bool) (v : LeafView) (r : Leaf × List Effect) : Prop where
  trace : Trace v r.2 (r.1.view (reported m r.2))
  inv   : r.1.Inv (reported m r.2)

variable {tm : Element TerminalInfo} {bd : Element BindingInfo} {r : Leaf × List Effect}

theorem Inv.object (h : l.Inv m) (hg : l.terminals.get? tm.id = some tm) :
    (l.view m).object tm.id = none ↔ tm.data.fsm.destroyed = true := by
  have hok := h.terminal hg
  have := hok.object
  rw [hok.hidden]
  cases ho : tm.data.terminal <;> simp_all [LeafView.object, view]

theorem Inv.bindings (h : l.Inv m) (hg : l.bindings.get? bd.id = some bd) :
    (l.view m).bindings bd.id = [] ↔ bd.data.fsm.destroyed = true := by
  have hok := h.binding hg
  rw [hok.hidden, ← hok.objects]
  simp [LeafView.bindings, view, hg]

theorem Inv.runs_terminal (h : l.Inv m) (hc : l.connection ≠ none)
    (hg : l.terminals.get? tm.id = some tm) (hf : tm.data.fsm.Faithful out)
    (hr : tm.data.fsm.Reports out.calls) : Runs m (l.view m) (l.evalTerminal tm j out) where
  inv   := h.evalTerminal hg hc hf
  trace := by
    refine trace_evalTerminal ?_ fun ha => (h.object hg).mpr (hf.dead ha)
    have hok := h.terminal hg
    cases hd : tm.data.fsm.destroyed
    case true  => exact .inl (hr.silent hd)
    case false =>
      have hh := hok.hidden.symm.trans hd
      obtain ⟨t, ht⟩ := Option.isSome_iff_exists.mp (hok.object.trans (by rw [hh]; rfl))
      refine .inr ⟨hc, ⟨t, by simp [view, hg, ht]⟩, ?_⟩
      rw [hok.reported hh]
      exact hr.alternates

theorem Inv.runs_binding (h : l.Inv m) (hc : l.connection ≠ none)
    (hg : l.bindings.get? bd.id = some bd) (hf : bd.data.fsm.Faithful out) :
    Runs m (l.view m) (l.evalBinding bd j out) where
  inv   := h.evalBinding hg hc hf
  trace := trace_evalBinding fun ha => (h.bindings hg).mpr (hf.dead ha)

theorem Inv.runs_send (h : l.Inv m) {msg : Message} : Runs m (l.view m) (l, [.send msg]) where
  inv   := h
  trace := .single (.send _ _)

theorem Inv.runs_terminal! {i : Id} {g : Fsm → Except Fault Fsm.Outcome} (h : l.Inv m)
    (hc : l.connection ≠ none)
    (hf : ∀ {f out}, g f = .ok out → f.Faithful out ∧ f.Reports out.calls)
    (hr : (do
      let tm ← l.terminal! i
      let out ← g tm.data.fsm
      return l.evalTerminal tm j out) = Except.ok r) : Runs m (l.view m) r := by
  simp only [terminal!] at hr
  cases hg : l.terminals.get? i <;> simp only [hg, bind, Except.bind, reduceCtorEq] at hr
  case some tm =>
    cases Register.get?_id hg
    cases ho : g tm.data.fsm <;> simp only [ho, reduceCtorEq] at hr
    case ok out =>
      obtain ⟨hf, hrep⟩ := hf ho
      exact Except.ok.inj hr ▸ h.runs_terminal hc hg hf hrep

theorem Inv.runs_binding! {i : Id} {g : Fsm → Except Fault Fsm.Outcome} (h : l.Inv m)
    (hc : l.connection ≠ none) (hf : ∀ {f out}, g f = .ok out → f.Faithful out)
    (hr : (do
      let bd ← l.binding! i
      let out ← g bd.data.fsm
      return l.evalBinding bd j out) = Except.ok r) : Runs m (l.view m) r := by
  simp only [binding!] at hr
  cases hg : l.bindings.get? i <;> simp only [hg, bind, Except.bind, reduceCtorEq] at hr
  case some bd =>
    cases Register.get?_id hg
    cases ho : g bd.data.fsm <;> simp only [ho, reduceCtorEq] at hr
    case ok out => exact Except.ok.inj hr ▸ h.runs_binding hc hg (hf ho)

-- The state of a binding group is told by nodes only.

theorem Inv.updateBindingState {i : Id} {b : Bool} (h : l.Inv m) (hc : l.connection = some true) :
    (l.updateBindingState i b).1.Inv m := by
  obtain ⟨hcn, ht, hb, _⟩ := updateBindingState_spec l i b
  refine h.set_binding (i := i) hcn (fun j => by rw [ht]) (o := (l.bindings.get? i).map
    (Element.modify ({ · with established := b }))) (fun j => ?_) fun e he => ?_
  · rw [hb]
    split
    case isTrue hj => rw [hj]
    case isFalse   => rfl
  · obtain ⟨d, hg, hd⟩ := Option.map_eq_some_iff.mp he
    have hok := h.binding hg
    subst hd
    exact ⟨hok.hidden, hok.objects, fun _ hn => by simp [hc] at hn, fun hn => by simp [hc] at hn,
      hok.skip⟩

theorem Inv.runs_bindingStateChanged {i : Id} {b : Bool} (h : l.Inv m) (hc : l.connection = some true)
    (hr : l.onBindingStateChanged i b = .ok r) : Runs m (l.view m) r := by
  obtain ⟨_, _, _, hd⟩ := updateBindingState_spec l i b
  simp only [onBindingStateChanged, binding!, assert] at hr
  cases hg : l.bindings.get? i <;> simp only [hg, bind, Except.bind, reduceCtorEq] at hr
  case some bd =>
    split at hr
    case h_1 => cases hr
    case h_2 =>
      split at hr
      case isTrue =>
        refine Except.ok.inj hr ▸ ⟨trace_updateBindingState, ?_⟩
        rw [hd.reported]
        exact h.updateBindingState hc
      case isFalse => exact Except.ok.inj hr ▸ ⟨.nil, h⟩

-- The messages that only nodes send.
def ofNode : Message → Bool
  | .bindingEstablished _ | .bindingReleased _ => true
  | _                                          => false

theorem Inv.runs_message {msg : Message} (h : l.Inv m) (hc : l.connection ≠ none)
    (hn : ofNode msg = true → l.connection = some true)
    (hr : l.onMessageReceived msg = .ok r) : Runs m (l.view m) r := by
  cases msg <;> simp only [onMessageReceived] at hr
  case terminalDescription x id =>
    simp only [onTerminalDescription] at hr
    cases hf : l.bindings.find? x <;> simp only [hf, bind, Except.bind] at hr
    case none    => exact Except.ok.inj hr ▸ h.runs_send
    case some bd =>
      cases ho : bd.data.fsm.processRcvdDescription id <;> simp only [ho, reduceCtorEq] at hr
      case ok out =>
        have hg := (Register.find?_eq_some_iff.mp hf).left
        exact Except.ok.inj hr ▸ h.runs_binding hc hg (Fsm.faithful_description ho)
  case bindingDescription x id =>
    simp only [onBindingDescription] at hr
    cases hf : l.terminals.find? x <;> simp only [hf, bind, Except.bind] at hr
    case none    => exact Except.ok.inj hr ▸ h.runs_send
    case some tm =>
      cases ho : tm.data.fsm.processRcvdDescription id <;> simp only [ho, reduceCtorEq] at hr
      case ok out =>
        have hg := (Register.find?_eq_some_iff.mp hf).left
        exact Except.ok.inj hr ▸
          h.runs_terminal hc hg (Fsm.faithful_description ho) (Fsm.reports_description ho)
  case terminalMapping i j =>
    exact h.runs_terminal! (g := (·.processRcvdMapping j)) hc
      (fun ho => ⟨Fsm.faithful_mapping ho, Fsm.reports_mapping ho⟩) hr
  case terminalNoticed i =>
    exact h.runs_terminal! hc (fun ho => ⟨Fsm.faithful_noticed ho, Fsm.reports_noticed ho⟩) hr
  case terminalRemoved i    => exact h.runs_binding! hc Fsm.faithful_removed hr
  case terminalRemovedAck i =>
    exact h.runs_terminal! hc (fun ho => ⟨Fsm.faithful_removedAck ho, Fsm.reports_removedAck ho⟩) hr
  case bindingMapping i j =>
    exact h.runs_binding! (g := (·.processRcvdMapping j)) hc Fsm.faithful_mapping hr
  case bindingNoticed i    => exact h.runs_binding! hc Fsm.faithful_noticed hr
  case bindingRemoved i    =>
    exact h.runs_terminal! hc (fun ho => ⟨Fsm.faithful_removed ho, Fsm.reports_removed ho⟩) hr
  case bindingRemovedAck i => exact h.runs_binding! hc Fsm.faithful_removedAck hr
  case bindingEstablished i => exact h.runs_bindingStateChanged (hn rfl) hr
  case bindingReleased i    => exact h.runs_bindingStateChanged (hn rfl) hr

-- The operations of the library user.

variable {t : Nat} {b : Binding} {x : Identifier}

theorem reported_inserted {i : Id} :
    reported m (.terminalInserted i :: es) = reported (Function.update m i false) es := by
  rw [← (Does.inserted (c := none) i).reported m, ← reported_append]
  rfl

theorem Inv.runs_newTerminal (h : l.Inv m) :
    (∃ i, (l.onNewTerminal t x).2.2 = some i ∧ (l.view m).terminal i = none ∧ i ≠ 0 ∧
      ∃ es, (l.onNewTerminal t x).2.1 = .terminalInserted i :: es ∧
      Runs (Function.update m i false) (((l.view m).setTerminal i (some (some t))).setMapped i false)
        ((l.onNewTerminal t x).1, es)) ∨
    (l.onNewTerminal t x).2 = ([], none) ∧ (l.onNewTerminal t x).1.view m = l.view m ∧
      (l.onNewTerminal t x).1.Inv m := by
  have hinv := h.onNewTerminal (t := t) (x := x) |>.inv
  cases hf : l.terminals.find? x
  case some e =>
    obtain ⟨hi, hg⟩ := Register.insert_of_find?_some (d := ({} : TerminalInfo)) hf
    have hl : l.onNewTerminal t x =
        ({ l with terminals := (l.terminals.insert x {}).1 }, [], none) := by
      simp [Leaf.onNewTerminal, hi]
    refine .inr ⟨by rw [hl], ?_, ?_⟩
    · rw [hl]
      exact view_congr rfl (fun i => by rw [hg]) fun i => rfl
    · rw [hl] at hinv ⊢
      exact hinv
  case none =>
    obtain ⟨hins, h0, hn, hg⟩ := Register.insert_of_find?_none (d := ({} : TerminalInfo)) hf
    cases hr : l.terminals.insert x {}
    case mk tms p =>
    cases p
    case mk i ins =>
    simp only [hr] at hins h0 hn hg
    let l₁ := { l with terminals := tms.modify i ({ · with terminal := some t }) }
    have hm : ∀ j, l₁.terminals.get? j =
        if j = i then some ⟨x, i, false, { terminal := some t }⟩ else l.terminals.get? j := by
      intro j
      simp only [l₁, Register.get?_modify, hg]
      split <;> rfl
    have hv : l₁.view (Function.update m i false) =
        ((l.view m).setTerminal i (some (some t))).setMapped i false := by
      simp only [view, setTerminal, setMapped, LeafView.mk.injEq, and_true]
      refine ⟨rfl, funext fun j => ?_, rfl⟩
      rw [hm, Function.update_apply]
      split <;> rfl
    have hi : (l.view m).terminal i = none := by simp [view, hn]
    refine .inl ⟨i, ?_⟩
    cases hc : l.connection
    case none =>
      have hl : l.onNewTerminal t x = (l₁, [.terminalInserted i], some i) := by
        simp [Leaf.onNewTerminal, hr, hins, hc, l₁]
      rw [hl] at hinv ⊢
      refine ⟨rfl, hi, h0, [], rfl, ?_, ?_⟩
      · exact hv ▸ .nil
      · exact (reported_inserted : reported m [.terminalInserted i] = _) ▸ hinv
    case some c =>
      have hl : l.onNewTerminal t x =
          ((l₁.evalTerminal ⟨x, i, false, { terminal := some t }⟩ 0 (Fsm.reset {} false)).1,
            .terminalInserted i ::
              (l₁.evalTerminal ⟨x, i, false, { terminal := some t }⟩ 0 (Fsm.reset {} false)).2,
            some i) := by
        have hg := (hm i).trans (if_pos rfl)
        simp only [l₁] at hg
        simp [Leaf.onNewTerminal, hr, hins, hc, hg, l₁]
      rw [hl] at hinv ⊢
      refine ⟨rfl, hi, h0, _, rfl, ?_, ?_⟩
      · rw [← hv]
        exact trace_evalTerminal (.inl (by simp [Fsm.reset])) (by simp [Fsm.reset])
      · exact reported_inserted ▸ hinv

theorem Inv.runs_terminalDestroyed {i : Id} {e : Element TerminalInfo} (h : l.Inv m)
    (hg : l.terminals.get? i = some e) (hh : e.hidden = false)
    (hr : l.onTerminalDestroyed t i = .ok r) :
    ∃ l₁ es, r.2 = .call l₁ (.terminalRemoved t i) :: es ∧
      l₁.view m = (l.view m).setTerminal i (some none) ∧
      Runs m ((l.view m).setTerminal i (some none)) (r.1, es) := by
  obtain ⟨l', es', hr', ho⟩ := h.onTerminalDestroyed (t := t) hg hh
  cases Except.ok.inj (hr'.symm.trans hr)
  have hinv := ho.inv
  clear ho hr
  let l₁ := { l with terminals := l.terminals.modify i ({ · with terminal := none }) }
  have hv : l₁.view m = (l.view m).setTerminal i (some none) := by
    simp only [view, setTerminal, LeafView.mk.injEq, and_true]
    refine ⟨rfl, funext fun j => ?_, rfl⟩
    simp only [l₁, Register.get?_modify, Function.update_apply]
    split
    case isTrue hj => simp [hj, hg]
    case isFalse   => rfl
  have hn : (l₁.view m).object i = none := by
    rw [hv, object_setTerminal, if_pos rfl]
    rfl
  simp only [Leaf.onTerminalDestroyed, terminal!, hg, bind, Except.bind] at hr'
  split at hr'
  case isFalse hc =>
    cases hr'
    exact ⟨l₁, [], rfl, hv, hv ▸ trace_erase_terminal .nil hn, hinv⟩
  case isTrue hc =>
    cases ho : e.data.fsm.processObjectDestroyed <;> simp only [ho, reduceCtorEq] at hr'
    case ok out =>
      cases Register.get?_id hg
      cases hr'
      refine ⟨l₁, _, rfl, hv, ?_, hinv⟩
      rw [← hv, view_hide_terminal]
      exact trace_evalTerminal (.inl (Fsm.silent_destroyed ho)) fun _ => hn

theorem Inv.runs_newBinding (h : l.Inv m) :
    ((l.view m).group (l.onNewBinding b x).2.2 = none ∧ l.bindings.find? x = none ∧
      (l.onNewBinding b x).2.2 ≠ 0 ∧
      Runs m ((l.view m).setGroup (l.onNewBinding b x).2.2 (some ([b], false)))
        ((l.onNewBinding b x).1, (l.onNewBinding b x).2.1)) ∨
    ∃ e, l.bindings.find? x = some e ∧ (l.onNewBinding b x).2.2 = e.id ∧
      Runs m ((l.view m).setGroup e.id (some (e.data.bindings ++ [b], e.data.established)))
        ((l.onNewBinding b x).1, (l.onNewBinding b x).2.1) := by
  have hinv := h.onNewBinding (b := b) (x := x) |>.inv
  cases hf : l.bindings.find? x
  case some e =>
    obtain ⟨hi, hg⟩ := Register.insert_of_find?_some (d := ({} : BindingInfo)) hf
    obtain ⟨he, hx, hh⟩ := Register.find?_eq_some_iff.mp hf
    cases hr : l.bindings.insert x {}
    case mk bds p =>
    cases p
    case mk i ins =>
    simp only [hr, Prod.mk.injEq] at hi hg
    have hne : e.data.bindings ≠ [] := by simp [(h.binding he).objects, hh]
    let l₁ := { l with bindings := bds.modify i fun d => { d with bindings := d.bindings ++ [b] } }
    have hm : ∀ j, l₁.bindings.get? j = if j = e.id then
        some (e.modify fun d => { d with bindings := d.bindings ++ [b] }) else l.bindings.get? j := by
      intro j
      simp only [l₁, Register.get?_modify, hg, hi.left]
      split <;> simp_all
    have hv : l₁.view m =
        (l.view m).setGroup e.id (some (e.data.bindings ++ [b], e.data.established)) := by
      simp only [view, setGroup, LeafView.mk.injEq, and_true]
      refine ⟨rfl, rfl, funext fun j => ?_⟩
      rw [hm, Function.update_apply]
      split <;> rfl
    have hl : l.onNewBinding b x =
        (l₁, if e.data.established then [.publishState b true] else [], i) := by
      have hb := (hm i).trans (if_pos hi.left)
      simp only [l₁] at hb
      simp only [Leaf.onNewBinding, hr, hb]
      simp only [Element.modify_data, List.length_append, List.length_singleton,
        Nat.add_eq_right, List.length_eq_zero_iff, hne, and_false, if_false, l₁]
      cases Decidable.em (e.data.established = true)
      case inl he => simp only [he, if_true]
      case inr he => simp only [he]; rfl
    rw [hl] at hinv ⊢
    refine .inr ⟨e, rfl, hi.left, ?_, hinv⟩
    rw [← hv]
    cases e.data.established
    case false => exact .nil
    case true  => exact .single (.publishState _ _ _)
  case none =>
    obtain ⟨hins, h0, hn, hg⟩ := Register.insert_of_find?_none (d := ({} : BindingInfo)) hf
    cases hr : l.bindings.insert x {}
    case mk bds p =>
    cases p
    case mk i ins =>
    simp only [hr] at hins h0 hn hg
    let l₁ := { l with bindings := bds.modify i fun d => { d with bindings := d.bindings ++ [b] } }
    have hm : ∀ j, l₁.bindings.get? j =
        if j = i then some ⟨x, i, false, { bindings := [b] }⟩ else l.bindings.get? j := by
      intro j
      simp only [l₁, Register.get?_modify, hg]
      split <;> rfl
    have hv : l₁.view m = (l.view m).setGroup i (some ([b], false)) := by
      simp only [view, setGroup, LeafView.mk.injEq, and_true]
      refine ⟨rfl, rfl, funext fun j => ?_⟩
      rw [hm, Function.update_apply]
      split <;> rfl
    have hi : (l.view m).group i = none := by simp [view, hn]
    have hb := (hm i).trans (if_pos rfl)
    simp only [l₁] at hb
    cases hc : l.connection
    case none =>
      have hl : l.onNewBinding b x = (l₁, [], i) := by
        simp [Leaf.onNewBinding, hr, hc, hb, l₁]
      rw [hl] at hinv ⊢
      exact .inl ⟨hi, rfl, h0, hv ▸ .nil, hinv⟩
    case some c =>
      have hl : l.onNewBinding b x =
          ((l₁.evalBinding ⟨x, i, false, { bindings := [b] }⟩ 0 (Fsm.reset {} false)).1,
            (l₁.evalBinding ⟨x, i, false, { bindings := [b] }⟩ 0 (Fsm.reset {} false)).2, i) := by
        have hs : l.connection.isSome = true := by simp [hc]
        simp only [Leaf.onNewBinding, hr, hb]
        simp [hs, l₁]
      rw [hl] at hinv ⊢
      exact .inl ⟨hi, rfl, h0, hv ▸ trace_evalBinding (by simp [Fsm.reset]), hinv⟩

theorem Inv.runs_bindingDestroyed {i : Id} {e : Element BindingInfo} (h : l.Inv m)
    (hg : l.bindings.get? i = some e) (hb : b ∈ e.data.bindings)
    (hr : l.onBindingDestroyed b i = .ok r) :
    ∃ l₁ es, r.2 = .call l₁ (.bindingRemoved b i) :: es ∧
      l₁.view m = (l.view m).setGroup i (some (e.data.bindings.erase b, e.data.established)) ∧
      Runs m ((l.view m).setGroup i (some (e.data.bindings.erase b, e.data.established)))
        (r.1, es) := by
  obtain ⟨l', es', hr', ho⟩ := h.onBindingDestroyed hg hb
  cases Except.ok.inj (hr'.symm.trans hr)
  have hinv := ho.inv
  clear ho hr
  let l₁ := { l with
    bindings := l.bindings.modify i fun d => { d with bindings := d.bindings.erase b } }
  have hv : l₁.view m =
      (l.view m).setGroup i (some (e.data.bindings.erase b, e.data.established)) := by
    simp only [view, setGroup, LeafView.mk.injEq, and_true]
    refine ⟨rfl, rfl, funext fun j => ?_⟩
    simp only [l₁, Register.get?_modify, Function.update_apply]
    split
    case isTrue hj => simp [hj, hg]
    case isFalse   => rfl
  simp only [Leaf.onBindingDestroyed, binding!, hg, bind, Except.bind, hb, not_true_eq_false,
    if_false] at hr'
  split at hr'
  case isTrue =>
    cases hr'
    exact ⟨l₁, [], rfl, hv, hv ▸ .nil, hinv⟩
  case isFalse hne =>
    have hn : (l₁.view m).bindings i = [] := by
      rw [hv, bindings_setGroup, if_pos rfl]
      exact Decidable.not_not.mp hne
    split at hr'
    case isFalse hc =>
      cases hr'
      exact ⟨l₁, [], rfl, hv, hv ▸ trace_erase_group .nil hn, hinv⟩
    case isTrue hc =>
      cases ho : e.data.fsm.processObjectDestroyed <;> simp only [ho, reduceCtorEq] at hr'
      case ok out =>
        cases Register.get?_id hg
        cases hr'
        refine ⟨l₁, _, rfl, hv, ?_, hinv⟩
        rw [← hv, view_hide_group]
        exact trace_evalBinding fun _ => hn

-- The loops over the elements of a register.

theorem trace_forEach {α : Type} {f : Leaf → Element α → Result} {ds : List (Element α)}
    (hf : ∀ {l m e r}, f l e = .ok r → Trace (l.view m) r.2 (r.1.view (reported m r.2)))
    (hr : forEach f l ds = .ok r) : Trace (l.view m) r.2 (r.1.view (reported m r.2)) := by
  induction ds generalizing l m r
  case nil =>
    cases hr
    exact .nil
  case cons d ds ih =>
    simp only [forEach, bind, Except.bind] at hr
    cases hd : f l d <;> simp only [hd, reduceCtorEq] at hr
    case ok r₁ =>
      cases hs : forEach f r₁.1 ds <;> simp only [hs, reduceCtorEq] at hr
      case ok r₂ =>
        cases hr
        rw [reported_append]
        exact (hf hd).append (ih hs)

theorem trace_eraseTerminals {v : LeafView} {ds : List (Element TerminalInfo)}
    (h : Trace v es (l.view m)) (ho : ∀ d ∈ ds, (l.view m).object d.id = none) :
    Trace v es (({ l with terminals := ds.foldl (·.erase ·.id) l.terminals } : Leaf).view m) := by
  induction ds generalizing l
  case nil => exact h
  case cons d ds ih =>
    refine ih (l := { l with terminals := l.terminals.erase d.id })
      (trace_erase_terminal h (ho d List.mem_cons_self)) fun e he => ?_
    rw [view_erase_terminal, object_setTerminal]
    split
    case isTrue  => rfl
    case isFalse => exact ho e (List.mem_cons_of_mem _ he)

theorem trace_eraseGroups {v : LeafView} {ds : List (Element BindingInfo)}
    (h : Trace v es (l.view m)) (hb : ∀ d ∈ ds, (l.view m).bindings d.id = []) :
    Trace v es (({ l with bindings := ds.foldl (·.erase ·.id) l.bindings } : Leaf).view m) := by
  induction ds generalizing l
  case nil => exact h
  case cons d ds ih =>
    refine ih (l := { l with bindings := l.bindings.erase d.id })
      (trace_erase_group h (hb d List.mem_cons_self)) fun e he => ?_
    rw [view_erase_group, bindings_setGroup]
    split
    case isTrue  => rfl
    case isFalse => exact hb e (List.mem_cons_of_mem _ he)

theorem trace_resetTerminals {ds : List (Element TerminalInfo)} (hn : (ds.map (·.id)).Nodup)
    (hd : ∀ d ∈ ds, d.data.fsm.isMapped = true → m d.id = true ∧
      ∃ t, (l.view m).terminal d.id = some (some t))
    (hr : forEach (fun l tm =>
      let l' := { l with
        terminals := l.terminals.modify tm.id fun d => { d with fsm := (d.fsm.reset true).fsm } }
      if tm.data.fsm.isMapped then
        return (l', [.call l' (.terminalMappingChanged false tm.id)])
      else
        return (l', [])) l ds = .ok r) : Trace (l.view m) r.2 (r.1.view (reported m r.2)) := by
  induction ds generalizing l m r
  case nil =>
    cases hr
    exact .nil
  case cons d ds ih =>
    let l₁ := { l with
      terminals := l.terminals.modify d.id fun d => { d with fsm := (d.fsm.reset true).fsm } }
    have hv : ∀ m, l₁.view m = l.view m := fun _ => view_fsm_terminals
    obtain ⟨hnd, hn⟩ := List.nodup_cons.mp hn
    let es₁ : List Effect :=
      if d.data.fsm.isMapped then [.call l₁ (.terminalMappingChanged false d.id)] else []
    have ht : Trace (l.view m) es₁ (l₁.view (reported m es₁)) := by
      rw [← hv]
      cases hm : d.data.fsm.isMapped <;> simp only [es₁, hm, if_true, Bool.false_eq_true, if_false]
      case false => exact .nil
      case true  =>
        obtain ⟨hb, t, ht⟩ := hd d List.mem_cons_self hm
        rw [(Does.terminalMappingChanged false d.id rfl).reported]
        exact .single (Move.mapped (l := l₁) (v := l₁.view m) rfl (hv m ▸ ht) hb (by simp))
    have hm : ∀ e ∈ ds, reported m es₁ e.id = m e.id := by
      intro e he
      have hne : e.id ≠ d.id := fun heq => hnd (List.mem_map.mpr ⟨e, he, heq⟩)
      simp only [es₁]
      split
      case isTrue  =>
        rw [(Does.terminalMappingChanged false d.id rfl).reported, Function.update_of_ne hne]
      case isFalse => rfl
    have hr : (do
        let r ← forEach (fun l tm =>
          let l' := { l with
            terminals := l.terminals.modify tm.id fun d => { d with fsm := (d.fsm.reset true).fsm } }
          if tm.data.fsm.isMapped then
            return (l', [.call l' (.terminalMappingChanged false tm.id)])
          else
            return (l', [])) l₁ ds
        return (r.1, es₁ ++ r.2)) = Except.ok r := by
      rw [← hr]
      simp only [forEach, es₁]
      cases d.data.fsm.isMapped <;> rfl
    simp only [bind, Except.bind] at hr
    split at hr
    case h_1 => cases hr
    case h_2 r₂ hs =>
      cases hr
      rw [reported_append]
      refine ht.append (ih hn (fun e he hmp => ?_) hs)
      obtain ⟨hb, t, ht⟩ := hd e (List.mem_cons_of_mem _ he) hmp
      exact ⟨(hm e he).trans hb, t, (hv m ▸ ht : (l₁.view m).terminal e.id = _)⟩

theorem Inv.runs_connectionStarted {b : Bool} (h : l.Inv m) (hc : l.connection = none)
    (hr : l.onConnectionStarted b = .ok r) :
    Runs m { l.view m with connection := some b } r := by
  -- the remote endpoint makes no difference
  have hl : Mapping.Linked (fun _ _ => none) (fun _ _ => none) [] []
    (fun k => k.1 = .terminal) (fun k => k.1 = .terminal) := .init
  obtain ⟨l', es, hr', _, hinv, _⟩ :=
    h.onConnectionStarted (b := b) hc hl (fun _ _ hk => hk) fun _ _ hk => hk
  cases Except.ok.inj (hr'.symm.trans hr)
  refine ⟨?_, hinv⟩
  have hv : ({ l with connection := some b } : Leaf).view m =
      { l.view m with connection := some b } := rfl
  have hi : l.connection.isNone = true := by simp [hc]
  simp only [Leaf.onConnectionStarted, hi, assert, if_true, bind, Except.bind] at hr'
  split at hr'
  case h_1 => cases hr'
  case h_2 r₁ h₁ =>
    split at hr'
    case h_1 => cases hr'
    case h_2 r₂ h₂ =>
      cases hr'
      rw [← hv, reported_append]
      refine (trace_forEach (fun {l m e r} hr => ?_) h₁).append
        (trace_forEach (fun {l m e r} hr => ?_) h₂)
      · cases hh : e.hidden <;> simp only [hh] at hr
        case true  => cases hr
        case false =>
          cases hr
          exact trace_evalTerminal (.inl (by cases b <;> simp [Fsm.reset]))
            (by cases b <;> simp [Fsm.reset])
      · cases hh : e.hidden <;> simp only [hh] at hr
        case true  => cases hr
        case false =>
          cases hr
          exact trace_evalBinding (by simp [Fsm.reset])

theorem Inv.runs_connectionDestroyed (h : l.Inv m) (hc : l.connection ≠ none)
    (hr : l.onConnectionDestroyed = .ok r) :
    Runs m { l.view m with connection := none } r := by
  obtain ⟨l', es, hr', hinv, _⟩ := h.onConnectionDestroyed hc
  cases Except.ok.inj (hr'.symm.trans hr)
  refine ⟨?_, hinv⟩
  let l₀ : Leaf := { l with connection := none }
  let l₁ : Leaf := { l₀ with
    terminals := (l.terminals.elements.filter (·.hidden)).foldl (·.erase ·.id) l.terminals
    bindings  := (l.bindings.elements.filter (·.hidden)).foldl (·.erase ·.id) l.bindings }
  have hv : l₀.view m = { l.view m with connection := none } := rfl
  have ht : Trace (l₀.view m) [] (l₁.view m) := by
    have ht : Trace (l₀.view m) [] (({ l₀ with terminals :=
        (l.terminals.elements.filter (·.hidden)).foldl (·.erase ·.id) l₀.terminals } : Leaf).view m) :=
      trace_eraseTerminals .nil fun d hd => by
        obtain ⟨hd, hh⟩ := List.mem_filter.mp hd
        have hg := Register.mem_elements_iff.mp hd
        exact (h.object hg).mpr ((h.terminal hg).hidden.trans hh)
    refine trace_eraseGroups ht fun d hd => ?_
    obtain ⟨hd, hh⟩ := List.mem_filter.mp hd
    have hg := Register.mem_elements_iff.mp hd
    exact (h.bindings hg).mpr ((h.binding hg).hidden.trans hh)
  obtain ⟨l₂, es₁, h₁, _, ht₂, _, hd⟩ := forEach_updateBindingState l₁ l₁.bindings.elements
  have ht₁ := trace_forEach (m := m) (fun {l m e r} hr => by
    cases hr
    exact trace_updateBindingState) h₁
  have hi : l.connection.isSome = true := Option.isSome_iff_ne_none.mpr hc
  simp only [Leaf.onConnectionDestroyed, hi, assert, if_true, bind, Except.bind] at hr'
  rw [show forEach (fun l bd => pure (l.updateBindingState bd.id false)) l₁ l₁.bindings.elements =
    .ok (l₂, es₁) from h₁] at hr'
  simp only at hr'
  split at hr'
  case h_1 => cases hr'
  case h_2 r₂ h₂ =>
    cases hr'
    rw [← hv, reported_append]
    refine (ht.append ht₁).append (trace_resetTerminals Register.elements_nodup (fun d hdm hmp => ?_) h₂)
    have hg := Register.mem_elements_iff.mp hdm
    have hg₁ := ht₂ ▸ hg
    simp only [l₁, get?_visible, Option.filter_eq_some_iff, Bool.not_eq_true'] at hg₁
    have hok := h.terminal hg₁.left
    obtain ⟨t, ht⟩ := Option.isSome_iff_exists.mp (hok.object.trans (by rw [hg₁.right]; rfl))
    rw [hd.reported]
    exact ⟨(hok.reported hg₁.right).trans hmp, t, by simp [view, hg, ht]⟩

end Leaf
end Yogi
