import YogiModel.Base.Machine
import YogiModel.Core.NodeTerminals

-- All runs of a node
namespace Yogi.Node

open Except (Returns)

variable {n n' : Node} {tm bd i : Id} {c : Conn} {es es' : List Effect} {x : Identifier} {p q : Pending}
variable {d d' : NodeTerminalInfo} {e : Element NodeTerminalInfo} {f : Fsm}
variable {conns : List Conn} {found : Identifier → Option Id}

theorem Consistent.onMessageReceived {m : Message} (h : n.Consistent {}) (hc : c ∈ n.connections) :
    (n.onMessageReceived c m).Returns fun s => s.1.Consistent {} := by
  cases m
  case terminalDescription => exact h.onTerminalDescription hc subset_rfl
  case terminalMapping     => exact h.onTerminalMapping hc
  case terminalRemoved tm  =>
    exact (h.mono Pending.le_owning).removeTerminalOwner (fun _ => h) (Set.notMem_empty _) rfl
  case terminalRemovedAck  => exact h.onTerminalRemovedAck hc
  case bindingDescription  => exact h.onBindingDescription hc
  case bindingRemoved      => exact h.onBindingRemoved rfl
  all_goals exact .error

theorem forEach_returns {P : List Id → Node → Prop} {g : Node → Id → Result}
    (hg : ∀ n i is, P (i :: is) n → (g n i).Returns fun s => P is s.1) (is : List Id) (h : P is n) :
    (forEach g n is).Returns fun s => P [] s.1 := by
  induction is generalizing n
  case nil          => exact .ok h
  case cons i is ih => exact (hg n i is h).bind fun r hr => (ih hr).bind fun s hs => .pure hs

-- The connections change.
theorem Consistent.reconnect {leafs nodes : List Conn} (h : n.Consistent p)
    (hl : ∀ c ∈ leafs, c.remoteIsNode = false) (hn : ∀ c ∈ nodes, c.remoteIsNode = true)
    (ho : ∀ i c, c ∈ n.connections ∨ (i, c) ∈ p.owners → c ∈ leafs ++ nodes ∨ (i, c) ∈ q.owners)
    (hu : ∀ i c, c ∈ n.connections ∨ (i, c) ∈ p.users → c ∈ leafs ++ nodes ∨ (i, c) ∈ q.users)
    (hb : ∀ i c, c ∈ n.connections ∨ (i, c) ∈ p.bindings → c ∈ leafs ++ nodes ∨ (i, c) ∈ q.bindings)
    (hs : p.states ⊆ q.states) (hp : p.pairs ⊆ q.pairs) :
    { n with leafConnections := leafs, nodeConnections := nodes }.Consistent q where
  leafs     := hl
  nodes     := hn
  terminals := h.terminals.mono fun e he => he.imp (ho e.id) (hu e.id) (fun hm => hs hm) fun hm => hp hm
  bindings  := h.bindings.mono fun d hd => hd.imp (hb d.id) fun hm => hp hm

theorem Consistent.onConnectionStarted (h : n.Consistent {}) :
    (n.onConnectionStarted c).Returns fun s => s.1.Consistent {} := by
  refine .ite (fun hn => ?_) fun hn => .bind' fun _ => .pure ?_
  case refine_1 =>
    have hc : n.Consistent { users := {q | q.2 = c} } :=
      h.mono ⟨subset_rfl, Set.empty_subset _, subset_rfl, subset_rfl, subset_rfl⟩
    refine (forEach_returns (P := fun _ n => n.Consistent { users := {q | q.2 = c} }) (fun n tm _ hc => ?_) _ hc).bind
      fun r hr => .bind' fun _ => .pure ?_
    · refine .bind' fun e => .ite (fun _ => .pure hc) fun _ => .bind' fun _ => .pure ?_
      exact hc.describe (x := e.identifier) hn (.inr rfl)
    · have hm {b : Conn} (hb : b ∈ r.1.connections ∨ b = c) :
          b ∈ r.1.leafConnections ++ (r.1.nodeConnections ++ [c]) := by
        rcases hb with hb | rfl
        · exact List.append_assoc .. ▸ List.mem_append_left _ hb
        · simp
      refine hr.reconnect hr.leafs ?_ (fun i b hb => .inl (hm (hb.imp_right fun hf => absurd hf (Set.notMem_empty _))))
        (fun i b hb => .inl (hm hb)) (fun i b hb => .inl (hm (hb.imp_right fun hf => absurd hf (Set.notMem_empty _))))
        subset_rfl subset_rfl
      exact List.forall_mem_append.mpr ⟨hr.nodes, List.forall_mem_singleton.mpr hn⟩
  case refine_2 =>
    have hm {b : Conn} {i : Id} (hb : b ∈ n.connections ∨ (i, b) ∈ (∅ : Set (Id × Conn))) :
        b ∈ (n.leafConnections ++ [c]) ++ n.nodeConnections := by
      rcases hb with hb | hf
      · rcases List.mem_append.mp hb with hb | hb <;> simp [hb]
      · cases hf
    refine h.reconnect ?_ h.nodes (fun i b hb => .inl (hm hb)) (fun i b hb => .inl (hm hb)) (fun i b hb => .inl (hm hb))
      subset_rfl subset_rfl
    exact List.forall_mem_append.mpr ⟨h.leafs, List.forall_mem_singleton.mpr (by simpa using hn)⟩

-- The bodies of the loops of `onConnectionDestroyed`
def leaveBinding (c : Conn) (n : Node) (bd : Id) : Result := do
  let e ← deref (n.bindings.get? bd)
  let m := n.modifyBinding bd fun d => { d with owningLeafs := d.owningLeafs.erase c }
  let called := if (e.data.owningLeafs.lookup c).isSome then
    [.call m (.bindingOwnerRemoved c bd)] else []
  if (e.data.owningLeafs.erase c).keys = [] then
    let m ← m.disassociateBinding bd
    return ({ m with bindings := m.bindings.erase bd }, called)
  else
    return (m, called)

def leaveTerminal (c : Conn) (n : Node) (tm : Id) : Result := do
  let n := n.modifyTerminal tm fun d => { d with usingNodes := d.usingNodes.erase c }
  let called := [.call n (.terminalUserRemoved c tm)]
  let (n, known, alive) ← n.updateState tm
  if alive then
    let r ← n.removeTerminalOwner tm c true
    return (r.1, called ++ known ++ r.2)
  else
    return (n, called ++ known)

-- The connection `c` is still an owner or a user of some terminals and an owner of some bindings.
def leaving (c : Conn) (bindings terminals : Set Id) : Pending where
  owners   := {q | q.1 ∈ terminals ∧ q.2 = c}
  users    := {q | q.1 ∈ terminals ∧ q.2 = c}
  bindings := {q | q.1 ∈ bindings ∧ q.2 = c}

theorem Consistent.left {B T : Set Id} (h : n.Consistent (leaving c (insert bd B) T))
    (hc : ∀ d, n.bindings.get? bd = some d → c ∉ d.data.owningLeafs.keys) : n.Consistent (leaving c B T) where
  leafs     := h.leafs
  nodes     := h.nodes
  terminals := h.terminals.mono fun _ he => he.imp (fun _ => id) (fun _ => id) id id
  bindings  := by
    intro j d hd
    have ho := h.bindings j d hd
    refine { leafs := fun b hb => ⟨(ho.leafs b hb).1, (ho.leafs b hb).2.imp_right fun hm => ?_⟩,
             owned := ho.owned, visible := ho.visible, terminal := ho.terminal }
    refine ⟨hm.1.resolve_left fun hj => hc d ?_ (hm.2 ▸ hb), hm.2⟩
    rwa [← hj, Register.get?_id hd]

theorem Consistent.leaveBinding {B T : Set Id} (h : n.Consistent (leaving c (insert bd B) T)) :
    (Node.leaveBinding c n bd).Returns fun s => s.1.Consistent (leaving c B T) := by
  refine deref_returns.bind fun d hd => ?_
  extract_lets m called
  refine .ite (fun hk => ?_) fun hk => .pure ?_
  case refine_1 =>
    refine (h.disassociateBinding (g := fun d => { d with owningLeafs := d.owningLeafs.erase c }) hd
      (Set.notMem_empty _) fun _ => rfl).bind fun m hm => .pure (hm.left fun d' hd' => ?_)
    rw [Register.get?_erase, if_pos rfl] at hd'
    cases hd'
  case refine_2 =>
    refine (h.modifyBinding fun d' hd' ho => ?_).left fun d' hd' => ?_
    · cases hd.symm.trans hd'
      exact ho.eraseOwner (fun _ _ => id) subset_rfl hk
    · simp only [Node.modifyBinding, Register.get?_modify, if_true, hd, Option.map_some, Option.some.injEq] at hd'
      rw [← hd', Element.modify_data, AList.keys_erase]
      exact fun hm => ((AList.keys_nodup _).mem_erase_iff.mp hm).1 rfl

theorem Consistent.eraseUser {T : Set Id} (h : n.Consistent (leaving c ∅ (insert tm T))) :
    (n.modifyTerminal tm fun d => { d with usingNodes := d.usingNodes.erase c }).Consistent
      (((leaving c ∅ T).owning tm c).opened tm) := by
  have hm : (n.modifyTerminal tm fun d => { d with usingNodes := d.usingNodes.erase c }).terminals.map =
    n.terminals.map := Register.map_modify
  have howns {i : Id} {b : Conn} (hb : b ∈ n.connections ∨ (i, b) ∈ (leaving c ∅ (insert tm T)).owners) :
      b ∈ n.connections ∨ (i, b) ∈ (((leaving c ∅ T).owning tm c).opened tm).owners :=
    hb.imp_right fun hq => hq.1.imp (fun hi => Prod.ext hi hq.2) fun hi => ⟨hi, hq.2⟩
  refine ⟨h.leafs, h.nodes, fun i e he => ?_, hm ▸ h.bindings.mono fun _ hd => hd.imp (fun _ => id) id⟩
  simp only [Node.modifyTerminal, Register.get?_modify] at he
  split at he
  case isFalse hne =>
    refine (h.terminals i e he).imp (fun _ => howns) (fun b => .imp_right fun hq => ?_) (fun hf => hf.elim) id
    exact ⟨hq.1.resolve_left (Register.get?_id he ▸ hne), hq.2⟩
  case isTrue hi   =>
    obtain ⟨e₀, he₀, rfl⟩ := Option.map_eq_some_iff.mp he
    have ho := h.terminals i e₀ he₀
    have hs : e₀.id ∈ (((leaving c ∅ T).owning tm c).opened tm).states := .inl ((Register.get?_id he₀).trans hi)
    exact
      { leafs b hb := ⟨(ho.leafs b hb).1, howns (ho.leafs b hb).2⟩
        nodes b hb := ⟨(ho.nodes b hb).1, howns (ho.nodes b hb).2⟩
        users b hb := by
          rw [Element.modify_data, AList.keys_erase] at hb
          obtain ⟨hne, hb⟩ := (AList.keys_nodup _).mem_erase_iff.mp hb
          exact ⟨(ho.users b hb).1, (ho.users b hb).2.imp_right fun hq => absurd hq.2 hne⟩
        hidden     := ho.hidden
        state hn   := absurd hs hn
        inUse hn   := absurd hs hn
        binding    := ho.binding
        unbound    := ho.unbound }

theorem Consistent.leaveTerminal {T : Set Id} (h : n.Consistent (leaving c ∅ (insert tm T))) :
    (Node.leaveTerminal c n tm).Returns fun s => s.1.Consistent (leaving c ∅ T) := by
  have hu := h.eraseUser
  simp only [Node.leaveTerminal]
  refine hu.updateState.bind fun u h₁ => ?_
  obtain ⟨m₁, known, alive⟩ := u
  refine .ite (fun _ => ?_) fun ha => .pure (h₁.1.disown fun e he => ?_)
  · refine (h₁.1.removeTerminalOwner (fun hf => ?_) (Set.notMem_empty _) rfl).bind fun r hr => .pure hr
    cases hf
  · rw [h₁.2 (Bool.eq_false_iff.mpr ha)] at he
    cases he

theorem leaving_le {B B' T T' : Set Id} (hb : B ⊆ B') (ht : T ⊆ T') : (leaving c B T).Le (leaving c B' T') :=
  ⟨fun _ hq => ⟨ht hq.1, hq.2⟩, fun _ hq => ⟨ht hq.1, hq.2⟩, fun _ hq => ⟨hb hq.1, hq.2⟩, subset_rfl,
    subset_rfl⟩

theorem Consistent.leave (h : n.Consistent {}) :
    (if c.remoteIsNode then { n with nodeConnections := n.nodeConnections.erase c }
      else { n with leafConnections := n.leafConnections.erase c }).Consistent (leaving c Set.univ Set.univ) := by
  have herase {cs : List Conn} {b : Conn} (hb : b ∈ cs) : b ∈ cs.erase c ∨ b = c := by
    by_cases hbc : b = c
    case pos => exact .inr hbc
    case neg => exact .inl ((List.mem_erase_of_ne hbc).mpr hb)
  split
  case isTrue  =>
    have hm {i : Id} {b : Conn} (hb : b ∈ n.connections ∨ (i, b) ∈ (∅ : Set (Id × Conn))) :
        b ∈ n.leafConnections ++ n.nodeConnections.erase c ∨ i ∈ Set.univ ∧ b = c := by
      rcases List.mem_append.mp (hb.resolve_right (Set.notMem_empty _)) with hb | hb
      · exact .inl (List.mem_append_left _ hb)
      · exact (herase hb).imp (List.mem_append_right _) (⟨trivial, ·⟩)
    exact h.reconnect h.leafs (fun b hb => h.nodes b (List.mem_of_mem_erase hb)) (fun _ _ => hm) (fun _ _ => hm)
      (fun _ _ => hm) subset_rfl subset_rfl
  case isFalse =>
    have hm {i : Id} {b : Conn} (hb : b ∈ n.connections ∨ (i, b) ∈ (∅ : Set (Id × Conn))) :
        b ∈ n.leafConnections.erase c ++ n.nodeConnections ∨ i ∈ Set.univ ∧ b = c := by
      rcases List.mem_append.mp (hb.resolve_right (Set.notMem_empty _)) with hb | hb
      · exact (herase hb).imp (List.mem_append_left _) (⟨trivial, ·⟩)
      · exact .inl (List.mem_append_right _ hb)
    exact h.reconnect (fun b hb => h.leafs b (List.mem_of_mem_erase hb)) h.nodes (fun _ _ => hm) (fun _ _ => hm)
      (fun _ _ => hm) subset_rfl subset_rfl

-- Only the entries of the registers have to be left.
theorem Consistent.narrow {B T : Set Id} (h : n.Consistent (leaving c B T)) :
    n.Consistent (leaving c (B ∩ {i | i ∈ n.bindings.ids}) (T ∩ {i | i ∈ n.terminals.ids})) := by
  refine ⟨h.leafs, h.nodes, fun i e he => ?_, fun j d hd => ?_⟩
  case refine_1 =>
    have hi : e.id ∈ n.terminals.ids := Register.mem_ids_iff.mpr ⟨e, (Register.get?_id he).symm ▸ he⟩
    refine (h.terminals i e he).imp (fun b hb => ?_) (fun b hb => ?_) id id
    · exact hb.imp_right fun hq => ⟨⟨hq.1, hi⟩, hq.2⟩
    · exact hb.imp_right fun hq => ⟨⟨hq.1, hi⟩, hq.2⟩
  case refine_2 =>
    have hj : d.id ∈ n.bindings.ids := Register.mem_ids_iff.mpr ⟨d, (Register.get?_id hd).symm ▸ hd⟩
    exact (h.bindings j d hd).imp (fun b hb => hb.imp_right fun hq => ⟨⟨hq.1, hj⟩, hq.2⟩) id

theorem setOf_mem_cons {α : Type} {a : α} {as : List α} : {b | b ∈ a :: as} = insert a {b | b ∈ as} := by
  ext b
  exact List.mem_cons

theorem Consistent.onConnectionDestroyed (h : n.Consistent {}) :
    (n.onConnectionDestroyed c).Returns fun s => s.1.Consistent {} := by
  refine .ite (fun _ => .pure h) fun _ => ?_
  have hstart := h.leave (c := c)
  extract_lets m
  refine (forEach_returns (P := fun bs m => m.Consistent (leaving c {i | i ∈ bs} Set.univ)) (fun n bd bs hb => ?_) _
    (hstart.narrow.mono (leaving_le Set.inter_subset_right (Set.subset_univ _)))).bind fun r hr => ?_
  case refine_1 =>
    rw [setOf_mem_cons] at hb
    exact hb.leaveBinding
  refine (forEach_returns (P := fun ts m => m.Consistent (leaving c ∅ {i | i ∈ ts})) (fun n tm ts ht => ?_) _
    (hr.narrow.mono (leaving_le ?_ Set.inter_subset_right))).bind fun s hs => .pure (hs.mono ?_)
  case refine_1 =>
    rw [setOf_mem_cons] at ht
    exact ht.leaveTerminal
  case refine_2 => exact fun _ hi => absurd hi.1 List.not_mem_nil
  case refine_3 =>
    refine ⟨fun _ hq => ?_, fun _ hq => ?_, fun _ hq => ?_, subset_rfl, subset_rfl⟩
    · exact absurd hq.1 List.not_mem_nil
    · exact absurd hq.1 List.not_mem_nil
    · exact absurd hq.1 (Set.notMem_empty _)

theorem consistent_empty : Consistent {} {} where
  leafs     := fun _ hc => absurd hc List.not_mem_nil
  nodes     := fun _ hc => absurd hc List.not_mem_nil
  terminals := fun _ _ he => Option.noConfusion rfl (heq_of_eq he)
  bindings  := fun _ _ hd => Option.noConfusion rfl (heq_of_eq hd)

theorem Consistent.onEvent {a : Event} (h : n.Consistent {}) (ha : a.Enabled n) :
    (n.onEvent a).Returns fun s => s.1.Consistent {} := by
  cases a
  case connectionStarted   => exact h.onConnectionStarted
  case connectionDestroyed => exact h.onConnectionDestroyed
  case message             => exact h.onMessageReceived ha

def machine : Machine Node Event Fault where
  init    := (· = {})
  enabled := fun n a => a.Enabled n
  step    := fun n a => (n.onEvent a).map Prod.fst

instance (n : Node) (a : Event) : Decidable (machine.enabled n a) :=
  match a with
  | .connectionStarted _   => inferInstanceAs (Decidable True)
  | .connectionDestroyed _ => inferInstanceAs (Decidable True)
  | .message origin _      => inferInstanceAs (Decidable (origin ∈ n.connections))

theorem consistent_of_reachable (h : machine.Reachable n) : n.Consistent {} := by
  refine h.preserves (fun n hn => ?_) fun n a n' hn ha hs => ?_
  · cases hn
    exact consistent_empty
  · obtain ⟨s, ht, rfl⟩ := Except.map_eq_ok.mp hs
    exact hn.onEvent ha s ht

theorem mem_leafs (h : n.Consistent {})
    (hc : c.remoteIsNode = false ∧ (c ∈ n.connections ∨ (i, c) ∈ (∅ : Set _))) :
    c ∈ n.leafConnections := by
  rcases List.mem_append.mp (hc.2.resolve_right (Set.notMem_empty _)) with hm | hm
  · exact hm
  · exact Bool.noConfusion (hc.1.symm.trans (h.nodes c hm))

theorem mem_nodes (h : n.Consistent {})
    (hc : c.remoteIsNode = true ∧ (c ∈ n.connections ∨ (i, c) ∈ (∅ : Set _))) :
    c ∈ n.nodeConnections := by
  rcases List.mem_append.mp (hc.2.resolve_right (Set.notMem_empty _)) with hm | hm
  · exact Bool.noConfusion (hc.1.symm.trans (h.leafs c hm))
  · exact hm

-- Every terminal has owners and users that are connected, or waits for the acknowledgements of its last users.
theorem terminals_connected (h : machine.Reachable n) (he : n.terminals.get? tm = some e) :
    e.data.owningLeafs.keys ⊆ n.leafConnections ∧ e.data.owningNodes.keys ⊆ n.nodeConnections ∧
    e.data.usingNodes.keys ⊆ n.nodeConnections ∧ e.data.state = stateOf e.data ∧
    (e.hidden = true ↔ e.data.owningLeafs.keys = [] ∧ e.data.owningNodes.keys = []) ∧
    (e.hidden = true → e.data.usingNodes.keys ≠ []) := by
  have hn := consistent_of_reachable h
  have ho := hn.get? he
  refine ⟨fun c hc => mem_leafs hn (ho.leafs c hc), fun c hc => mem_nodes hn (ho.nodes c hc),
    fun c hc => mem_nodes hn (ho.users c hc), ho.state (Set.notMem_empty _), ho.hidden, fun hh hu => ?_⟩
  exact ho.inUse (Set.notMem_empty _) ⟨ho.hidden.mp hh, hu⟩

def leafA : Conn := ⟨0, false⟩
def nodeB : Conn := ⟨1, true⟩

theorem reachable_of_run (as : List Event) (n : Node) (h : machine.run {} as = some n) : machine.Reachable n :=
  .of_run (.init rfl) h

-- A leaf has a terminal and a binding with the same identifier, and another node is told about the terminal.
def shared : List Event := [
  .connectionStarted leafA, .connectionStarted nodeB,
  .message leafA (.terminalDescription ⟨1, "a", false⟩ 4),
  .message leafA (.bindingDescription ⟨1, "a", false⟩ 5)]

theorem terminals_connected_shared :
    ∃ n e, machine.run {} shared = some n ∧ n.terminals.get? 1 = some e ∧
    e.data.owningLeafs.keys ⊆ n.leafConnections ∧ e.data.owningNodes.keys ⊆ n.nodeConnections ∧
    e.data.usingNodes.keys ⊆ n.nodeConnections ∧ e.data.state = stateOf e.data ∧
    (e.hidden = true ↔ e.data.owningLeafs.keys = [] ∧ e.data.owningNodes.keys = []) ∧
    (e.hidden = true → e.data.usingNodes.keys ≠ []) := by
  have h : ((machine.run {} shared).bind (·.terminals.get? 1)).isSome = true := rfl
  obtain ⟨e, he⟩ := Option.isSome_iff_exists.mp h
  obtain ⟨n, hn, he⟩ := Option.bind_eq_some_iff.mp he
  exact ⟨n, e, hn, he, terminals_connected (reachable_of_run shared n hn) he⟩

theorem found_of_ne_zero {found : Option Id} (h : found.getD 0 ≠ 0) : found = some (found.getD 0) := by
  cases found
  case none   => exact absurd rfl h
  case some i => rfl

theorem Consistent.binding_found (h : n.Consistent {}) (he : n.terminals.get? tm = some e) (hb : e.data.binding ≠ 0) :
    e.hidden = false ∧ n.bindings.map e.identifier = some e.data.binding := by
  have ho := h.get? he
  have hh : e.hidden = false := Bool.eq_false_iff.mpr fun hh => hb (ho.unbound hh)
  have hf := ho.binding hh (Set.notMem_empty _)
  rw [hf] at hb ⊢
  exact ⟨hh, found_of_ne_zero hb⟩

theorem Consistent.terminal_found {d : Element NodeBindingInfo} (h : n.Consistent {})
    (hd : n.bindings.get? bd = some d) (ht : d.data.terminal ≠ 0) :
    n.terminals.map d.identifier = some d.data.terminal := by
  have hf := (h.bindings bd d hd).terminal (Set.notMem_empty _)
  rw [hf] at ht ⊢
  exact found_of_ne_zero ht

-- Terminals and bindings refer to each other if and only if they have the same identifier.
theorem associated_iff (h : machine.Reachable n) :
    (∀ tm e, n.terminals.get? tm = some e → e.data.binding ≠ 0 →
      ∃ d, n.bindings.get? e.data.binding = some d ∧ d.data.terminal = tm) ∧
    (∀ bd d, n.bindings.get? bd = some d → d.data.terminal ≠ 0 →
      ∃ e, n.terminals.get? d.data.terminal = some e ∧ e.data.binding = bd) ∧
    ∀ tm e bd d, n.terminals.get? tm = some e → n.bindings.get? bd = some d →
      (e.data.binding = bd ↔ e.hidden = false ∧ e.identifier = d.identifier) := by
  have hn := consistent_of_reachable h
  have hterminal {tm bd e d} (he : n.terminals.get? tm = some e) (hh : e.hidden = false)
      (hd : n.bindings.get? bd = some d) (hx : d.identifier = e.identifier) : d.data.terminal = tm := by
    rw [(hn.bindings bd d hd).terminal (Set.notMem_empty _), n.terminals.map_iff.mpr ⟨e, he, hx.symm, hh⟩]
    rfl
  have hbinding {tm bd e d} (he : n.terminals.get? tm = some e) (hh : e.hidden = false)
      (hd : n.bindings.get? bd = some d) (hx : d.identifier = e.identifier) : e.data.binding = bd := by
    rw [(hn.get? he).binding hh (Set.notMem_empty _),
      n.bindings.map_iff.mpr ⟨d, hd, hx, (hn.bindings bd d hd).visible⟩]
    rfl
  refine ⟨fun tm e he hb => ?_, fun bd d hd ht => ?_, fun tm e bd d he hd => ⟨fun hb => ?_, fun hx => ?_⟩⟩
  case refine_1 =>
    obtain ⟨hh, hm⟩ := hn.binding_found he hb
    obtain ⟨d, hd, hx, _⟩ := n.bindings.map_iff.mp hm
    exact ⟨d, hd, hterminal he hh hd hx⟩
  case refine_2 =>
    obtain ⟨e, he, hx, hh⟩ := n.terminals.map_iff.mp (hn.terminal_found hd ht)
    exact ⟨e, he, hbinding he hh hd hx.symm⟩
  case refine_3 =>
    obtain ⟨hh, hm⟩ := hn.binding_found he (hb ▸ Register.get?_ne_zero hd)
    obtain ⟨d', hd', hx, _⟩ := n.bindings.map_iff.mp hm
    cases hd.symm.trans (hb ▸ hd')
    exact ⟨hh, hx.symm⟩
  case refine_4 => exact hbinding he hx.1 hd hx.2.symm

theorem associated_iff_shared :
    ∃ n, machine.run {} shared = some n ∧ n.bindings.ids = [1] ∧
    (∀ tm e, n.terminals.get? tm = some e → e.data.binding ≠ 0 →
      ∃ d, n.bindings.get? e.data.binding = some d ∧ d.data.terminal = tm) ∧
    (∀ bd d, n.bindings.get? bd = some d → d.data.terminal ≠ 0 →
      ∃ e, n.terminals.get? d.data.terminal = some e ∧ e.data.binding = bd) ∧
    ∀ tm e bd d, n.terminals.get? tm = some e → n.bindings.get? bd = some d →
      (e.data.binding = bd ↔ e.hidden = false ∧ e.identifier = d.identifier) :=
  ⟨_, rfl, rfl, associated_iff (reachable_of_run shared _ rfl)⟩

-- Nothing is left of connections that have been closed.
theorem nothing_left (h : machine.Reachable n) (hl : n.leafConnections = []) (hn : n.nodeConnections = []) :
    n.terminals.ids = [] ∧ n.bindings.ids = [] := by
  have hc := consistent_of_reachable h
  refine ⟨List.eq_nil_iff_forall_not_mem.mpr fun tm ht => ?_, List.eq_nil_iff_forall_not_mem.mpr fun bd hb => ?_⟩
  case refine_1 =>
    obtain ⟨e, he⟩ := Register.mem_ids_iff.mp ht
    obtain ⟨hleafs, hnodes, husers, _⟩ := terminals_connected h he
    rw [hl, List.subset_nil] at hleafs
    rw [hn, List.subset_nil] at hnodes husers
    exact (hc.get? he).inUse (Set.notMem_empty _) ⟨⟨hleafs, hnodes⟩, husers⟩
  case refine_2 =>
    obtain ⟨d, hd⟩ := Register.mem_ids_iff.mp hb
    refine (hc.bindings bd d hd).owned (List.eq_nil_iff_forall_not_mem.mpr fun c hm => ?_)
    have := mem_leafs hc ((hc.bindings bd d hd).leafs c hm)
    rw [hl] at this
    cases this

def closed : List Event :=
  shared ++ [.connectionDestroyed leafA, .connectionDestroyed nodeB]

theorem nothing_left_closed :
    ∃ n, machine.run {} closed = some n ∧ n.terminals.ids = [] ∧ n.bindings.ids = [] := by
  have h : (machine.run {} closed).map (fun n => (n.leafConnections, n.nodeConnections)) = some ([], []) := rfl
  obtain ⟨n, hn, hc⟩ := Option.map_eq_some_iff.mp h
  simp only [Prod.mk.injEq] at hc
  exact ⟨n, hn, nothing_left (reachable_of_run closed n hn) hc.1 hc.2⟩

end Yogi.Node
