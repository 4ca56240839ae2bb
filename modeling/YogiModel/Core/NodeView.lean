import YogiModel.Core.NodeUsers

-- What the classes that inherit from the logic of a node see of it and how it changes
namespace Yogi

@[ext] structure NodeView.Terminal where
  owners  : Conn → Option Fsm := fun _ => none
  users   : Set Conn := ∅
  binding : Id := 0

-- The last component consists of the owners of the bindings.
@[ext] structure NodeView where
  connections : Set Conn
  terminals   : Id → NodeView.Terminal
  bindings    : Id → Conn → Option Fsm

-- The state machine of an owner
structure Fsm.Owning (f : Fsm) : Prop where
  state    : f.state = .mappedConfirmed
  mappedId : f.mappedId ≠ 0

namespace NodeView

def Terminal.setOwner (c : Conn) (f : Option Fsm) (t : Terminal) : Terminal :=
  { t with owners := Function.update t.owners c f }

def modify (v : NodeView) (tm : Id) (g : Terminal → Terminal) : NodeView :=
  { v with terminals := Function.update v.terminals tm (g (v.terminals tm)) }

theorem modify_of_eq {v : NodeView} {tm : Id} {g : Terminal → Terminal} (h : g (v.terminals tm) = v.terminals tm) :
    v.modify tm g = v := by
  rw [modify, h, Function.update_eq_self]

def setOwner (v : NodeView) (tm : Id) (c : Conn) (f : Option Fsm) : NodeView :=
  v.modify tm (·.setOwner c f)

def addUsers (v : NodeView) (tm : Id) (cs : Set Conn) : NodeView :=
  v.modify tm fun t => { t with users := t.users ∪ cs }

def removeUser (v : NodeView) (tm : Id) (c : Conn) : NodeView :=
  v.modify tm fun t => { t with users := t.users \ {c} }

def associate (v : NodeView) (tm bd : Id) : NodeView :=
  v.modify tm fun t => { t with binding := bd }

def setBindingOwner (v : NodeView) (bd : Id) (c : Conn) (f : Option Fsm) : NodeView :=
  { v with bindings := Function.update v.bindings bd (Function.update (v.bindings bd) c f) }

section

variable {v : NodeView} {tm bd i : Id} {c b : Conn} {f : Option Fsm} {cs : Set Conn}

@[simp] theorem setOwner_owners : ((v.setOwner tm c f).terminals i).owners b =
    if i = tm ∧ b = c then f else (v.terminals i).owners b := by
  by_cases hi : i = tm <;> by_cases hb : b = c <;> simp [setOwner, modify, Terminal.setOwner, hi, hb]

@[simp] theorem setOwner_users : ((v.setOwner tm c f).terminals i).users = (v.terminals i).users := by
  by_cases hi : i = tm <;> simp [setOwner, modify, Terminal.setOwner, hi]

@[simp] theorem setOwner_binding : ((v.setOwner tm c f).terminals i).binding = (v.terminals i).binding := by
  by_cases hi : i = tm <;> simp [setOwner, modify, Terminal.setOwner, hi]

@[simp] theorem setOwner_connections : (v.setOwner tm c f).connections = v.connections := rfl

@[simp] theorem setOwner_bindings : (v.setOwner tm c f).bindings = v.bindings := rfl

@[simp] theorem addUsers_owners : ((v.addUsers tm cs).terminals i).owners = (v.terminals i).owners := by
  by_cases hi : i = tm <;> simp [addUsers, modify, hi]

@[simp] theorem mem_addUsers : b ∈ ((v.addUsers tm cs).terminals i).users ↔
    b ∈ (v.terminals i).users ∨ i = tm ∧ b ∈ cs := by
  by_cases hi : i = tm <;> simp [addUsers, modify, hi]

@[simp] theorem addUsers_binding : ((v.addUsers tm cs).terminals i).binding = (v.terminals i).binding := by
  by_cases hi : i = tm <;> simp [addUsers, modify, hi]

@[simp] theorem addUsers_connections : (v.addUsers tm cs).connections = v.connections := rfl

@[simp] theorem addUsers_bindings : (v.addUsers tm cs).bindings = v.bindings := rfl

theorem addUsers_empty : v.addUsers tm ∅ = v :=
  modify_of_eq (by rw [Set.union_empty])

theorem addUsers_addUsers {ds : Set Conn} : (v.addUsers tm cs).addUsers tm ds = v.addUsers tm (cs ∪ ds) := by
  simp only [addUsers, modify, Function.update_self, Function.update_idem, Set.union_assoc]

theorem setOwner_addUsers : (v.setOwner tm c f).addUsers tm cs = (v.addUsers tm cs).setOwner tm c f := by
  simp only [setOwner, addUsers, modify, Function.update_self, Function.update_idem]
  rfl

theorem setOwner_associate : (v.setOwner tm c f).associate tm bd = (v.associate tm bd).setOwner tm c f := by
  simp only [setOwner, associate, modify, Function.update_self, Function.update_idem]
  rfl

@[simp] theorem removeUser_owners : ((v.removeUser tm c).terminals i).owners = (v.terminals i).owners := by
  by_cases hi : i = tm <;> simp [removeUser, modify, hi]

@[simp] theorem mem_removeUser : b ∈ ((v.removeUser tm c).terminals i).users ↔
    b ∈ (v.terminals i).users ∧ ¬(i = tm ∧ b = c) := by
  by_cases hi : i = tm <;> simp [removeUser, modify, hi]

@[simp] theorem removeUser_binding : ((v.removeUser tm c).terminals i).binding = (v.terminals i).binding := by
  by_cases hi : i = tm <;> simp [removeUser, modify, hi]

@[simp] theorem removeUser_connections : (v.removeUser tm c).connections = v.connections := rfl

@[simp] theorem removeUser_bindings : (v.removeUser tm c).bindings = v.bindings := rfl

@[simp] theorem associate_owners : ((v.associate tm bd).terminals i).owners = (v.terminals i).owners := by
  by_cases hi : i = tm <;> simp [associate, modify, hi]

@[simp] theorem associate_users : ((v.associate tm bd).terminals i).users = (v.terminals i).users := by
  by_cases hi : i = tm <;> simp [associate, modify, hi]

@[simp] theorem associate_binding : ((v.associate tm bd).terminals i).binding =
    if i = tm then bd else (v.terminals i).binding := by
  by_cases hi : i = tm <;> simp [associate, modify, hi]

@[simp] theorem associate_connections : (v.associate tm bd).connections = v.connections := rfl

@[simp] theorem associate_bindings : (v.associate tm bd).bindings = v.bindings := rfl

@[simp] theorem setBindingOwner_terminals : (v.setBindingOwner bd c f).terminals = v.terminals := rfl

@[simp] theorem setBindingOwner_connections : (v.setBindingOwner bd c f).connections = v.connections := rfl

@[simp] theorem setBindingOwner_bindings : (v.setBindingOwner bd c f).bindings i b =
    if i = bd ∧ b = c then f else v.bindings i b := by
  by_cases hi : i = bd <;> by_cases hb : b = c <;> simp [setBindingOwner, hi, hb]

end
end NodeView

namespace Node

open NodeView (Terminal)

def shown (d : NodeTerminalInfo) : Terminal where
  owners c := (ownersMap d c).lookup c
  users    := {c | c ∈ d.usingNodes.keys}
  binding  := d.binding

def view (n : Node) : NodeView where
  connections   := {c | c ∈ n.connections}
  terminals tm  := ((n.terminals.get? tm).map fun e => shown e.data).getD {}
  bindings bd c := (n.bindings.get? bd).bind fun d => d.data.owningLeafs.lookup c

-- Leafs and nodes are told apart.
structure Kinds (n : Node) : Prop where
  leafs     : ∀ c ∈ n.leafConnections, c.remoteIsNode = false
  nodes     : ∀ c ∈ n.nodeConnections, c.remoteIsNode = true
  terminals : n.terminals.All fun e => (∀ c ∈ e.data.owningLeafs.keys, c.remoteIsNode = false) ∧
    ∀ c ∈ e.data.owningNodes.keys, c.remoteIsNode = true
  bindings  : n.bindings.All fun d => ∀ c ∈ d.data.owningLeafs.keys, c.remoteIsNode = false

-- What virtual functions are given
structure Shows (n : Node) (v : NodeView) : Prop where
  view  : n.view = v
  kinds : n.Kinds

-- Nothing but a message to one of the connections or a notification of the library user
def Effect.Tells (v : NodeView) : Effect → Prop
  | .send c _                  => c ∈ v.connections
  | .knownTerminalsChanged _ _ => True
  | _                          => False

end Node

namespace NodeView

open Node (Effect Hook)

-- What a binding refers to
def Refers (v : NodeView) (m : Node) (bd : Id) : Prop :=
  ∀ d, m.bindings.get? bd = some d → ∀ tm, tm ≠ 0 → ((v.terminals tm).binding = bd ↔ d.data.terminal = tm)

-- No terminal of the connection `c` has the ID `i`.
def Unused (v : NodeView) (c : Conn) (i : Id) : Prop :=
  ∀ tm f, (v.terminals tm).owners c = some f → f.mappedId ≠ i

-- A change while an event of the connection `c` is handled, which does not give an ID to two of its terminals.
inductive Step (c : Conn) : NodeView → List Effect → NodeView → Prop
  | told {v es} (h : ∀ e ∈ es, e.Tells v) : Step c v es v
  | users {v tm cs} (h : cs ⊆ v.connections) : Step c v [] (v.addUsers tm cs)
  | userAdded {v m tm} : Step c v [.call m (.terminalUserAdded c tm)] v
  | userRemoved {v m tm} (hm : m.Shows (v.removeUser tm c)) :
      Step c v [.call m (.terminalUserRemoved c tm)] (v.removeUser tm c)
  | inserted {v tm} (h : v.terminals tm = {}) : Step c v [.terminalInserted tm] v
  | associated {v tm bd}
      (h : (v.terminals tm).owners = (fun _ => none) ∨
        v.bindings (v.terminals tm).binding = (fun _ => none) ∧ v.bindings bd = fun _ => none) :
      Step c v [] (v.associate tm bd)
  | ownerAdded {v m tm f} (h : (v.terminals tm).owners c = none) (hc : c ∈ v.connections) (hf : f.Owning)
      (hu : v.Unused c f.mappedId) (hm : m.Shows (v.setOwner tm c (some f))) :
      Step c v [.call m (.terminalOwnerAdded c tm f.mappedId)] (v.setOwner tm c (some f))
  | ownerRemapped {v m tm f f'} (h : (v.terminals tm).owners c = some f) (hc : c ∈ v.connections) (hf : f'.Owning)
      (hu : v.Unused c f'.mappedId) (hm : m.Shows (v.setOwner tm c (some f'))) :
      Step c v [.call m (.terminalOwnerRemapped c tm f'.mappedId)] (v.setOwner tm c (some f'))
  | ownerKept {v tm f f'} (h : (v.terminals tm).owners c = some f) (hf : f'.Owning) (hi : f'.mappedId = f.mappedId) :
      Step c v [] (v.setOwner tm c (some f'))
  | ownerRemoved {v m tm f} (h : (v.terminals tm).owners c = some f) (hm : m.Shows (v.setOwner tm c none)) :
      Step c v [.call m (.terminalOwnerRemoved c tm)] (v.setOwner tm c none)
  | bindingOwnerAdded {v m bd f} (h : v.bindings bd c = none) (hc : c ∈ v.connections) (hf : f.Owning)
      (hm : m.Shows (v.setBindingOwner bd c (some f))) (hr : v.Refers m bd) :
      Step c v [.call m (.bindingOwnerAdded c bd f.mappedId)] (v.setBindingOwner bd c (some f))
  | bindingOwnerRemapped {v m bd f f'} (h : v.bindings bd c = some f) (hc : c ∈ v.connections) (hf : f'.Owning)
      (hm : m.Shows (v.setBindingOwner bd c (some f'))) :
      Step c v [.call m (.bindingOwnerRemapped c bd f'.mappedId)] (v.setBindingOwner bd c (some f'))
  | bindingOwnerKept {v bd f f'} (h : v.bindings bd c = some f) (hf : f'.Owning) (hi : f'.mappedId = f.mappedId) :
      Step c v [] (v.setBindingOwner bd c (some f'))
  | bindingOwnerRemoved {v m bd f} (h : v.bindings bd c = some f) (hm : m.Shows (v.setBindingOwner bd c none))
      (hr : v.Refers m bd) : Step c v [.call m (.bindingOwnerRemoved c bd)] (v.setBindingOwner bd c none)

inductive Steps (c : Conn) : NodeView → List Effect → NodeView → Prop
  | nil {v} : Steps c v [] v
  | cons {v es v' es' v''} (h : Step c v es v') (hs : Steps c v' es' v'') : Steps c v (es ++ es') v''

namespace Steps

variable {c : Conn} {v v' v'' : NodeView} {es es' : List Effect}

theorem single (h : Step c v es v') : Steps c v es v' := by
  have hs := cons h nil
  rwa [List.append_nil] at hs

theorem append (h : Steps c v es v') (h' : Steps c v' es' v'') : Steps c v (es ++ es') v'' := by
  induction h
  case nil              => exact h'
  case cons hstep _ ih  =>
    rw [List.append_assoc]
    exact .cons hstep (ih h')

theorem told (h : ∀ e ∈ es, e.Tells v) : Steps c v es v :=
  single (.told h)

theorem trailing (h : Steps c v es v') (h' : Steps c v' [] v'') : Steps c v es v'' := by
  have hs := h.append h'
  rwa [List.append_nil] at hs

-- What every step preserves
theorem preserves {P : NodeView → Prop} (h : Steps c v es v') (hv : P v)
    (hp : ∀ {v es v'}, Step c v es v' → P v → P v') : P v' := by
  induction h
  case nil             => exact hv
  case cons hstep _ ih => exact ih (hp hstep hv)

theorem connections_eq (h : Steps c v es v') : v'.connections = v.connections := by
  refine h.preserves (P := fun w => w.connections = v.connections) rfl fun {v es v'} hs hv => ?_
  cases hs
  all_goals exact hv

end Steps
end NodeView

namespace Node

open NodeView (Terminal)

variable {n n' : Node} {tm bd i : Id} {c b : Conn} {x : Identifier} {v : NodeView} {f : Fsm}
variable {d : NodeTerminalInfo} {e : Element NodeTerminalInfo} {g : NodeTerminalInfo → NodeTerminalInfo}

theorem view_terminals (he : n.terminals.get? tm = some e) : n.view.terminals tm = shown e.data := by
  simp only [view, he, Option.map_some, Option.getD_some]

theorem view_terminals_none (h : n.terminals.get? tm = none) : n.view.terminals tm = {} := by
  simp only [view, h, Option.map_none, Option.getD_none]

theorem view_bindings {d : Element NodeBindingInfo} (hd : n.bindings.get? bd = some d) :
    n.view.bindings bd = fun c => d.data.owningLeafs.lookup c := by
  simp only [view, hd, Option.bind_some]

theorem view_bindings_none (h : n.bindings.get? bd = none) : n.view.bindings bd = fun _ => none := by
  simp only [view, h, Option.bind_none]

theorem shown_empty : shown {} = {} := by
  ext c
  case owners => simp [shown, ownersMap]
  case users  => simp [shown]
  case binding => rfl

theorem ownersMap_ne (h : b.remoteIsNode ≠ c.remoteIsNode) {m : FsmMap} :
    ownersMap (setOwnersMap d c m) b = ownersMap d b := by
  cases hb : b.remoteIsNode <;> cases hc : c.remoteIsNode <;> simp_all [ownersMap, setOwnersMap]

theorem ownersMap_eq (h : b.remoteIsNode = c.remoteIsNode) {m : FsmMap} :
    ownersMap (setOwnersMap d c m) b = m := by
  cases hb : b.remoteIsNode <;> simp_all [ownersMap, setOwnersMap]

theorem shown_setOwnersMap {m : FsmMap} {f : Option Fsm} (hc : m.lookup c = f)
    (hb : ∀ b, b ≠ c → m.lookup b = (ownersMap d c).lookup b) :
    shown (setOwnersMap d c m) = (shown d).setOwner c f := by
  have ho : (fun b => (ownersMap (setOwnersMap d c m) b).lookup b) =
      Function.update (fun b => (ownersMap d b).lookup b) c f := by
    funext b
    by_cases hbc : b = c
    case pos => rw [hbc, Function.update_self, ownersMap_eq rfl, hc]
    case neg =>
      rw [Function.update_of_ne hbc]
      by_cases hk : b.remoteIsNode = c.remoteIsNode
      case pos =>
        rw [ownersMap_eq hk, hb b hbc]
        simp only [ownersMap, hk]
      case neg => rw [ownersMap_ne hk]
  ext1
  case owners  => exact ho
  case users   => cases hc : c.remoteIsNode <;> simp [shown, Terminal.setOwner, setOwnersMap, hc]
  case binding => cases hc : c.remoteIsNode <;> simp [shown, Terminal.setOwner, setOwnersMap, hc]

theorem shown_insertOwner :
    shown (setOwnersMap d c ((ownersMap d c).insert c f)) = (shown d).setOwner c (some f) :=
  shown_setOwnersMap (AList.lookup_insert _) fun _ hb => AList.lookup_insert_ne hb

theorem shown_dropOwner : shown (dropOwner c d) = (shown d).setOwner c none :=
  shown_setOwnersMap (AList.lookup_erase _ _) fun _ hb => AList.lookup_erase_ne hb

theorem shown_insertUser : shown { d with usingNodes := d.usingNodes.insert c f } =
    { shown d with users := (shown d).users ∪ {c} } := by
  ext1
  case owners  => rfl
  case binding => rfl
  case users   =>
    ext b
    simp only [shown, Set.mem_ofPred_eq, Set.mem_union, Set.mem_singleton_iff, AList.keys_insert, List.mem_cons]
    by_cases hb : b = c
    case pos => simp [hb]
    case neg => simp [hb, List.mem_erase_of_ne hb]

theorem shown_insertUser_of_mem (h : c ∈ d.usingNodes.keys) :
    shown { d with usingNodes := d.usingNodes.insert c f } = shown d := by
  have hu : (shown d).users ∪ {c} = (shown d).users :=
    Set.union_eq_self_of_subset_right (Set.singleton_subset_iff.mpr h)
  rw [shown_insertUser, hu]

theorem shown_eraseUser : shown { d with usingNodes := d.usingNodes.erase c } =
    { shown d with users := (shown d).users \ {c} } := by
  ext1
  case owners  => rfl
  case binding => rfl
  case users   =>
    ext b
    simp only [shown, Set.mem_ofPred_eq, Set.mem_sdiff, Set.mem_singleton_iff, AList.keys_erase,
      (AList.keys_nodup _).mem_erase_iff, and_comm]

-- Changes of the registers

theorem view_modifyTerminal {G : Terminal → Terminal} (he : n.terminals.get? tm = some e)
    (hg : shown (g e.data) = G (shown e.data)) : (n.modifyTerminal tm g).view = n.view.modify tm G := by
  have ht : (n.modifyTerminal tm g).view.terminals =
      Function.update n.view.terminals tm (G (n.view.terminals tm)) := by
    funext i
    simp only [view, modifyTerminal, Register.get?_modify]
    by_cases hi : i = tm
    case pos => simp [hi, he, hg]
    case neg => simp [hi]
  ext1
  case connections => rfl
  case terminals   => exact ht
  case bindings    => rfl

theorem view_modifyTerminal_of_eq (hg : ∀ e, n.terminals.get? tm = some e → shown (g e.data) = shown e.data) :
    (n.modifyTerminal tm g).view = n.view := by
  cases he : n.terminals.get? tm
  case none   =>
    have ht : (n.modifyTerminal tm g).view.terminals = n.view.terminals := by
      funext i
      simp only [view, modifyTerminal, Register.get?_modify]
      by_cases hi : i = tm <;> simp [hi, he]
    ext1
    case connections => rfl
    case terminals   => exact ht
    case bindings    => rfl
  case some e =>
    exact (view_modifyTerminal (G := id) he (hg e he)).trans (NodeView.modify_of_eq rfl)

theorem view_insertOwner (he : n.terminals.get? tm = some e) :
    (n.modifyTerminal tm fun d => setOwnersMap d c ((ownersMap d c).insert c f)).view =
      n.view.setOwner tm c (some f) :=
  view_modifyTerminal he shown_insertOwner

theorem view_dropOwner (he : n.terminals.get? tm = some e) :
    (n.modifyTerminal tm (dropOwner c)).view = n.view.setOwner tm c none :=
  view_modifyTerminal he shown_dropOwner

theorem view_insertUser (he : n.terminals.get? tm = some e) :
    (n.modifyTerminal tm fun d => { d with usingNodes := d.usingNodes.insert c f }).view = n.view.addUsers tm {c} :=
  view_modifyTerminal he shown_insertUser

theorem view_insertUser_of_mem (he : n.terminals.get? tm = some e) (hc : c ∈ e.data.usingNodes.keys) :
    (n.modifyTerminal tm fun d => { d with usingNodes := d.usingNodes.insert c f }).view = n.view := by
  refine view_modifyTerminal_of_eq fun e' he' => ?_
  cases he.symm.trans he'
  exact shown_insertUser_of_mem hc

theorem view_eraseUser :
    (n.modifyTerminal tm fun d => { d with usingNodes := d.usingNodes.erase c }).view = n.view.removeUser tm c := by
  cases he : n.terminals.get? tm
  case some e => exact view_modifyTerminal he shown_eraseUser
  case none   =>
    rw [view_modifyTerminal_of_eq fun e he' => absurd (he.symm.trans he') (by simp)]
    refine (NodeView.modify_of_eq ?_).symm
    rw [view_terminals_none he]
    ext1
    case owners  => rfl
    case users   => exact Set.empty_sdiff _
    case binding => rfl

theorem view_setBinding (he : n.terminals.get? tm = some e) :
    (n.modifyTerminal tm ({ · with binding := bd })).view = n.view.associate tm bd :=
  view_modifyTerminal he rfl

theorem view_of_get? {terminals : Register NodeTerminalInfo}
    (h : ∀ i, (terminals.get? i).map (fun e => shown e.data) = (n.terminals.get? i).map fun e => shown e.data) :
    { n with terminals := terminals }.view = n.view := by
  ext1
  case connections => rfl
  case terminals   =>
    funext i
    exact congrArg (Option.getD · {}) (h i)
  case bindings    => rfl

theorem view_hide : { n with terminals := n.terminals.hide tm }.view = n.view := by
  refine view_of_get? fun i => ?_
  rw [Register.get?_hide]
  split
  · rw [Option.map_map]
    rfl
  · rfl

theorem view_eraseTerminal (h : ∀ e, n.terminals.get? tm = some e → shown e.data = {}) :
    { n with terminals := n.terminals.erase tm }.view = n.view := by
  ext1
  case connections => rfl
  case bindings    => rfl
  case terminals   =>
    funext i
    simp only [view, Register.get?_erase]
    split
    case isFalse => rfl
    case isTrue hi =>
      rw [hi]
      cases he : n.terminals.get? tm
      case none   => rfl
      case some e => exact (h e he).symm

theorem view_insertTerminal : { n with terminals := (n.terminals.insert x {}).1 }.view = n.view := by
  ext1
  case connections => rfl
  case bindings    => rfl
  case terminals   =>
    funext i
    simp only [view]
    cases hf : n.terminals.find? x
    case some e => rw [(Register.insert_of_find?_some hf).2]
    case none   =>
      obtain ⟨_, _, hn, hg⟩ := Register.insert_of_find?_none (d := ({} : NodeTerminalInfo)) hf
      rw [hg]
      split
      case isFalse   => rfl
      case isTrue hi =>
        rw [hi, hn]
        exact shown_empty

theorem view_modifyBinding {d : Element NodeBindingInfo} {g : NodeBindingInfo → NodeBindingInfo} {f : Option Fsm}
    (hd : n.bindings.get? bd = some d) (hc : (g d.data).owningLeafs.lookup c = f)
    (hb : ∀ b, b ≠ c → (g d.data).owningLeafs.lookup b = d.data.owningLeafs.lookup b) :
    (n.modifyBinding bd g).view = n.view.setBindingOwner bd c f := by
  ext1
  case connections => rfl
  case terminals   => rfl
  case bindings    =>
    funext i
    simp only [view, modifyBinding, Register.get?_modify, NodeView.setBindingOwner]
    by_cases hi : i = bd
    case neg => simp [hi]
    case pos =>
      funext b
      by_cases hbc : b = c
      case pos =>
        subst hbc
        simp [hi, hd, hc]
      case neg => simp [hi, hd, hbc, hb b hbc]

theorem view_insertBindingOwner {d : Element NodeBindingInfo} (hd : n.bindings.get? bd = some d) :
    (n.modifyBinding bd fun d => { d with owningLeafs := d.owningLeafs.insert c f }).view =
      n.view.setBindingOwner bd c (some f) :=
  view_modifyBinding hd (AList.lookup_insert _) fun _ hb => AList.lookup_insert_ne hb

theorem view_eraseBindingOwner {d : Element NodeBindingInfo} (hd : n.bindings.get? bd = some d) :
    (n.modifyBinding bd fun d => { d with owningLeafs := d.owningLeafs.erase c }).view =
      n.view.setBindingOwner bd c none :=
  view_modifyBinding hd (AList.lookup_erase _ _) fun _ hb => AList.lookup_erase_ne hb

theorem view_modifyBinding_of_eq {g : NodeBindingInfo → NodeBindingInfo}
    (hg : ∀ d, (g d).owningLeafs = d.owningLeafs) : (n.modifyBinding bd g).view = n.view := by
  ext1
  case connections => rfl
  case terminals   => rfl
  case bindings    =>
    funext i
    simp only [view, modifyBinding, Register.get?_modify]
    split
    case isFalse => rfl
    case isTrue  => cases n.bindings.get? i <;> simp [hg]

theorem view_setTerminal : (n.modifyBinding bd ({ · with terminal := tm })).view = n.view :=
  view_modifyBinding_of_eq fun _ => rfl

theorem view_eraseBinding (h : n.view.bindings bd = fun _ => none) :
    { n with bindings := n.bindings.erase bd }.view = n.view := by
  ext1
  case connections => rfl
  case terminals   => rfl
  case bindings    =>
    funext i
    by_cases hi : i = bd
    case pos =>
      rw [hi, h]
      simp only [view, Register.get?_erase, if_true, Option.bind_none]
    case neg => simp only [view, Register.get?_erase, if_neg hi]

theorem view_insertBinding : { n with bindings := (n.bindings.insert x {}).1 }.view = n.view := by
  ext1
  case connections => rfl
  case terminals   => rfl
  case bindings    =>
    funext i
    simp only [view]
    cases hf : n.bindings.find? x
    case some e => rw [(Register.insert_of_find?_some hf).2]
    case none   =>
      obtain ⟨_, _, hn, hg⟩ := Register.insert_of_find?_none (d := ({} : NodeBindingInfo)) hf
      rw [hg]
      split
      case isFalse   => rfl
      case isTrue hi =>
        rw [hi, hn]
        rfl

end Node
end Yogi
