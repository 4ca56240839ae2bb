import YogiModel.Base.RegisterElements
import YogiModel.Core.NodeEffects

-- The registers of a node while its connections are started and destroyed and messages are received.
namespace Yogi.Node

open Except (Returns)

inductive Event
  | connectionStarted (c : Conn)
  | connectionDestroyed (c : Conn)
  | message (origin : Conn) (m : Message)

def onEvent (n : Node) : Event → Result
  | .connectionStarted c   => n.onConnectionStarted c
  | .connectionDestroyed c => n.onConnectionDestroyed c
  | .message origin m      => n.onMessageReceived origin m

def connections (n : Node) : List Conn :=
  n.leafConnections ++ n.nodeConnections

-- Messages are received from connections that are started.
def Event.Enabled (n : Node) : Event → Prop
  | .message origin _ => origin ∈ n.connections
  | _                 => True

def Unowned (d : NodeTerminalInfo) : Prop :=
  d.owningLeafs.keys = [] ∧ d.owningNodes.keys = []

-- What is still to be done while an event is handled: the owners and users of terminals and the owners of
-- bindings that do not belong to one of the connections, the terminals that have no valid state, and the
-- identifiers whose terminal and binding are not associated.
structure Pending where
  owners   : Set (Id × Conn) := ∅
  users    : Set (Id × Conn) := ∅
  bindings : Set (Id × Conn) := ∅
  states   : Set Id := ∅
  pairs    : Set Identifier := ∅

structure TerminalOk (conns : List Conn) (found : Identifier → Option Id) (p : Pending)
    (e : Element NodeTerminalInfo) : Prop where
  leafs   : ∀ c ∈ e.data.owningLeafs.keys, c.remoteIsNode = false ∧ (c ∈ conns ∨ (e.id, c) ∈ p.owners)
  nodes   : ∀ c ∈ e.data.owningNodes.keys, c.remoteIsNode = true ∧ (c ∈ conns ∨ (e.id, c) ∈ p.owners)
  users   : ∀ c ∈ e.data.usingNodes.keys, c.remoteIsNode = true ∧ (c ∈ conns ∨ (e.id, c) ∈ p.users)
  hidden  : e.hidden = true ↔ Unowned e.data
  state   : e.id ∉ p.states → e.data.state = stateOf e.data
  inUse   : e.id ∉ p.states → ¬(Unowned e.data ∧ e.data.usingNodes.keys = [])
  binding : e.hidden = false → e.identifier ∉ p.pairs → e.data.binding = (found e.identifier).getD 0
  unbound : e.hidden = true → e.data.binding = 0

structure BindingOk (conns : List Conn) (found : Identifier → Option Id) (p : Pending)
    (d : Element NodeBindingInfo) : Prop where
  leafs    : ∀ c ∈ d.data.owningLeafs.keys, c.remoteIsNode = false ∧ (c ∈ conns ∨ (d.id, c) ∈ p.bindings)
  owned    : d.data.owningLeafs.keys ≠ []
  visible  : d.hidden = false
  terminal : d.identifier ∉ p.pairs → d.data.terminal = (found d.identifier).getD 0

structure Consistent (p : Pending) (n : Node) : Prop where
  leafs     : ∀ c ∈ n.leafConnections, c.remoteIsNode = false
  nodes     : ∀ c ∈ n.nodeConnections, c.remoteIsNode = true
  terminals : n.terminals.All (TerminalOk n.connections n.bindings.map p)
  bindings  : n.bindings.All (BindingOk n.connections n.terminals.map p)

variable {n n' : Node} {tm bd i : Id} {c : Conn} {es es' : List Effect} {x : Identifier} {p q : Pending}
variable {d d' : NodeTerminalInfo} {e : Element NodeTerminalInfo} {f : Fsm}
variable {conns : List Conn} {found : Identifier → Option Id}

theorem stateOf_congr (hl : d.owningLeafs.keys.length = d'.owningLeafs.keys.length)
    (hn : d.owningNodes.keys.length = d'.owningNodes.keys.length) : stateOf d = stateOf d' := by
  simp only [stateOf]
  generalize d.owningLeafs.keys = a, d'.owningLeafs.keys = a', d.owningNodes.keys = b,
    d'.owningNodes.keys = b' at hl hn
  rcases a with _ | ⟨_, _ | ⟨_, _⟩⟩ <;> rcases a' with _ | ⟨_, _ | ⟨_, _⟩⟩ <;>
    simp only [List.length_cons, List.length_nil] at hl <;> try omega
  all_goals
    rcases b with _ | ⟨_, _ | ⟨_, _⟩⟩ <;> rcases b' with _ | ⟨_, _ | ⟨_, _⟩⟩ <;>
      simp only [List.length_cons, List.length_nil] at hn <;> first | rfl | omega

theorem stateOf_eq_awaitAcks_iff : stateOf d = .awaitAcks ↔ Unowned d := by
  simp only [stateOf, Unowned]
  generalize d.owningLeafs.keys = a, d.owningNodes.keys = b
  rcases a with _ | ⟨_, _ | ⟨_, _⟩⟩ <;> rcases b with _ | ⟨_, _ | ⟨_, _⟩⟩ <;> simp

theorem stateOf_ne_justCreated : stateOf d ≠ .justCreated := by
  simp only [stateOf]
  split <;> simp

-- Pending things may stay pending.
structure Pending.Le (p q : Pending) : Prop where
  owners   : p.owners ⊆ q.owners
  users    : p.users ⊆ q.users
  bindings : p.bindings ⊆ q.bindings
  states   : p.states ⊆ q.states
  pairs    : p.pairs ⊆ q.pairs

theorem TerminalOk.imp {conns' : List Conn} (h : TerminalOk conns found p e)
    (ho : ∀ c, c ∈ conns ∨ (e.id, c) ∈ p.owners → c ∈ conns' ∨ (e.id, c) ∈ q.owners)
    (hu : ∀ c, c ∈ conns ∨ (e.id, c) ∈ p.users → c ∈ conns' ∨ (e.id, c) ∈ q.users)
    (hs : e.id ∈ p.states → e.id ∈ q.states) (hp : e.identifier ∈ p.pairs → e.identifier ∈ q.pairs) :
    TerminalOk conns' found q e where
  leafs c hc  := ⟨(h.leafs c hc).1, ho c (h.leafs c hc).2⟩
  nodes c hc  := ⟨(h.nodes c hc).1, ho c (h.nodes c hc).2⟩
  users c hc  := ⟨(h.users c hc).1, hu c (h.users c hc).2⟩
  hidden      := h.hidden
  state m     := h.state fun hm => m (hs hm)
  inUse m     := h.inUse fun hm => m (hs hm)
  binding v m := h.binding v fun hm => m (hp hm)
  unbound     := h.unbound

theorem BindingOk.imp {conns' : List Conn} {d : Element NodeBindingInfo} (h : BindingOk conns found p d)
    (ho : ∀ c, c ∈ conns ∨ (d.id, c) ∈ p.bindings → c ∈ conns' ∨ (d.id, c) ∈ q.bindings)
    (hp : d.identifier ∈ p.pairs → d.identifier ∈ q.pairs) : BindingOk conns' found q d where
  leafs c hc := ⟨(h.leafs c hc).1, ho c (h.leafs c hc).2⟩
  owned      := h.owned
  visible    := h.visible
  terminal m := h.terminal fun hm => m (hp hm)

theorem TerminalOk.mono (h : TerminalOk conns found p e) (hp : p.Le q) : TerminalOk conns found q e :=
  h.imp (fun _ => .imp_right fun hm => hp.owners hm) (fun _ => .imp_right fun hm => hp.users hm)
    (fun hm => hp.states hm) fun hm => hp.pairs hm

theorem BindingOk.mono {d : Element NodeBindingInfo} (h : BindingOk conns found p d) (hp : p.Le q) :
    BindingOk conns found q d :=
  h.imp (fun _ => .imp_right fun hm => hp.bindings hm) fun hm => hp.pairs hm

theorem Consistent.mono (h : n.Consistent p) (hp : p.Le q) : n.Consistent q where
  leafs     := h.leafs
  nodes     := h.nodes
  terminals := h.terminals.mono fun _ he => he.mono hp
  bindings  := h.bindings.mono fun _ hd => hd.mono hp

theorem Consistent.modifyTerminal {g : NodeTerminalInfo → NodeTerminalInfo} (h : n.Consistent p)
    (hg : ∀ e, n.terminals.get? tm = some e → TerminalOk n.connections n.bindings.map p e →
      TerminalOk n.connections n.bindings.map p (e.modify g)) : (n.modifyTerminal tm g).Consistent p where
  leafs     := h.leafs
  nodes     := h.nodes
  terminals := h.terminals.modify hg
  bindings  := by
    have hm : (n.modifyTerminal tm g).terminals.map = n.terminals.map := Register.map_modify
    rw [hm]
    exact h.bindings

theorem Consistent.modifyBinding {g : NodeBindingInfo → NodeBindingInfo} (h : n.Consistent p)
    (hg : ∀ d, n.bindings.get? bd = some d → BindingOk n.connections n.terminals.map p d →
      BindingOk n.connections n.terminals.map p (d.modify g)) : (n.modifyBinding bd g).Consistent p where
  leafs     := h.leafs
  nodes     := h.nodes
  terminals := by
    have hm : (n.modifyBinding bd g).bindings.map = n.bindings.map := Register.map_modify
    rw [hm]
    exact h.terminals
  bindings  := h.bindings.modify hg

theorem TerminalOk.insertUser (h : TerminalOk conns found p e) (hn : c.remoteIsNode = true)
    (hc : c ∈ conns ∨ (e.id, c) ∈ p.users) :
    TerminalOk conns found p (e.modify fun d => { d with usingNodes := d.usingNodes.insert c f }) where
  leafs   := h.leafs
  nodes   := h.nodes
  users b hb := by
    rw [Element.modify_data, AList.keys_insert, List.mem_cons] at hb
    rcases hb with rfl | hb
    · exact ⟨hn, hc⟩
    · exact h.users b (List.mem_of_mem_erase hb)
  hidden  := h.hidden
  state   := h.state
  inUse _ hu := by
    rw [Element.modify_data, AList.keys_insert] at hu
    exact List.cons_ne_nil _ _ hu.2
  binding := h.binding
  unbound := h.unbound

theorem TerminalOk.eraseUser (h : TerminalOk conns found p e) (hs : e.id ∈ p.states) :
    TerminalOk conns found p (e.modify fun d => { d with usingNodes := d.usingNodes.erase c }) where
  leafs   := h.leafs
  nodes   := h.nodes
  users b hb := by
    rw [Element.modify_data, AList.keys_erase] at hb
    exact h.users b (List.mem_of_mem_erase hb)
  hidden  := h.hidden
  state   := h.state
  inUse hn   := absurd hs hn
  binding := h.binding
  unbound := h.unbound

theorem mem_keys_of_lookup {m : FsmMap} (h : m.lookup c = some f) : c ∈ m.keys :=
  AList.mem_keys.mp (AList.lookup_isSome.mp (Option.isSome_of_eq_some h))

theorem Consistent.get? (h : n.Consistent p) (he : n.terminals.get? tm = some e) :
    TerminalOk n.connections n.bindings.map p e :=
  h.terminals tm e he

theorem Consistent.describe (h : n.Consistent p) (hn : c.remoteIsNode = true)
    (hc : c ∈ n.connections ∨ (tm, c) ∈ p.users) : (n.describe tm x c).1.Consistent p :=
  h.modifyTerminal fun _ he ho => ho.insertUser hn (by rwa [Register.get?_id he])

theorem Consistent.describeToAll {cs : List Conn} (h : n.Consistent p)
    (hc : ∀ c ∈ cs, c ∈ n.nodeConnections) : (n.describeToAll tm x cs).1.Consistent p := by
  induction cs generalizing n
  case nil          => exact h
  case cons c cs ih =>
    obtain ⟨hm, hs⟩ := List.forall_mem_cons.mp hc
    exact ih (h.describe (h.nodes c hm) (.inl (List.mem_append_right _ hm))) hs

theorem Consistent.abandonUsers {cs : List Conn} (h : n.Consistent p) (hs : tm ∈ p.states) :
    (n.abandonUsers tm c cs).Returns fun s => s.1.Consistent p := by
  induction cs generalizing n
  case nil          => exact .pure h
  case cons b cs ih =>
    refine deref_returns.bind fun e he => deref_returns.bind fun f hf => ?_
    refine .ite (fun _ => ih h) fun _ => .bind' fun out => .ite (fun _ => ?_) fun _ => ?_
    · have hu := (h.get? he).users b (mem_keys_of_lookup hf)
      refine (ih (h.modifyTerminal fun d hd ho => ?_)).bind fun r hr => .pure hr
      cases he.symm.trans hd
      exact ho.insertUser hu.1 hu.2
    · refine (ih (h.modifyTerminal fun d hd ho => ?_)).bind fun r hr => .pure hr
      exact ho.eraseUser (Register.get?_id hd ▸ hs)

theorem Consistent.updateUsersForAbandonedTerminal (h : n.Consistent p) (hs : tm ∈ p.states) :
    (n.updateUsersForAbandonedTerminal tm c).Returns fun s => s.1.Consistent p :=
  .bind' fun _ => h.abandonUsers hs

theorem Consistent.updateLastOwningNode (h : n.Consistent p) :
    (n.updateLastOwningNode tm).Returns fun s => s.1.Consistent p := by
  refine deref_returns.bind fun e he => .bind' fun b => deref_returns.bind fun user hb => ?_
  refine .ite (fun _ => .pure h) fun _ => .bind' fun out => .bind' fun _ => .pure ?_
  have hu := (h.get? he).users b (mem_keys_of_lookup hb)
  refine h.modifyTerminal fun d hd ho => ?_
  cases he.symm.trans hd
  exact ho.insertUser hu.1 hu.2

-- The terminal `tm` is open while its owners change.
def Pending.opened (p : Pending) (tm : Id) : Pending :=
  { p with states := insert tm p.states }

theorem Pending.le_opened : p.Le (p.opened tm) :=
  ⟨subset_rfl, subset_rfl, subset_rfl, Set.subset_insert _ _, subset_rfl⟩

theorem TerminalOk.close (h : TerminalOk conns found (p.opened tm) e) (he : e.id ≠ tm) :
    TerminalOk conns found p e :=
  h.imp (fun _ => id) (fun _ => id) (fun hm => hm.resolve_left he) id

theorem BindingOk.close {d : Element NodeBindingInfo} (h : BindingOk conns found (p.opened tm) d) :
    BindingOk conns found p d :=
  h.imp (fun _ => id) id

-- A terminal without owners is not found, so nothing refers to it when it is erased.
theorem Consistent.eraseTerminal (h : n.Consistent (p.opened tm)) (he : n.terminals.get? tm = some e)
    (hh : e.hidden = true) : { n with terminals := n.terminals.erase tm }.Consistent p where
  leafs     := h.leafs
  nodes     := h.nodes
  terminals := by
    intro i e' he'
    rw [Register.get?_erase] at he'
    split at he'
    case isTrue      => cases he'
    case isFalse hne => exact (h.terminals i e' he').close (Register.get?_id he' ▸ hne)
  bindings  := by
    rw [Register.map_erase, Register.map_hide_of_hidden he hh]
    exact h.bindings.mono fun _ hd => hd.close

theorem Consistent.updateState (h : n.Consistent (p.opened tm)) :
    (n.updateState tm).Returns fun s => s.1.Consistent p ∧ (s.2.2 = false → s.1.terminals.get? tm = none) := by
  refine deref_returns.bind fun e he => .ite (fun hu => .pure ?_) fun hu =>
    .pure ⟨?_, fun hf => Bool.noConfusion hf⟩
  case refine_1 =>
    refine ⟨h.eraseTerminal he ((h.get? he).hidden.mpr ⟨hu.1, hu.2.1⟩), fun _ => ?_⟩
    rw [Register.get?_erase, if_pos rfl]
  case refine_2 =>
    have hs : (n.modifyTerminal tm fun d => { d with state := stateOf d }).terminals.map = n.terminals.map :=
      Register.map_modify
    refine ⟨h.leafs, h.nodes, fun i e' he' => ?_, hs ▸ h.bindings.mono fun _ hd => hd.close⟩
    simp only [Node.modifyTerminal, Register.get?_modify] at he'
    split at he'
    case isFalse hne => exact (h.terminals i e' he').close (Register.get?_id he' ▸ hne)
    case isTrue hi   =>
      rw [hi, he, Option.map_some, Option.some.injEq] at he'
      subst he'
      have ho := h.get? he
      exact
        { leafs := ho.leafs, nodes := ho.nodes, users := ho.users, hidden := ho.hidden, state := fun _ => rfl,
          inUse := fun _ hn => hu ⟨hn.1.1, hn.1.2, hn.2⟩, binding := ho.binding, unbound := ho.unbound }

end Yogi.Node
