import YogiModel.Core.NodeInvariant

-- The nodes that are told about the terminals of a node
namespace Yogi.Node

open Except (Returns)

-- The states of a node that is told about a terminal
def UserState : FsmState → Prop
  | .unusedUnconfirmed | .mappedConfirmed | .awaitConfirmation | .awaitAck => True
  | _                                                                      => False

-- All nodes that have to know a terminal are its users, except for one that is its only owner.
structure UsersOk (who : Conn → Prop) (e : Element NodeTerminalInfo) : Prop where
  states   : ∀ c f, e.data.usingNodes.lookup c = some f → UserState f.state
  informed : e.hidden = false → ∀ c, who c →
    c ∈ e.data.usingNodes.keys ∨ e.data.owningLeafs.keys = [] ∧ e.data.owningNodes.keys = [c]

structure Served (nodes : List Conn) (who : Id → Conn → Prop) (n : Node) : Prop where
  nodes : n.nodeConnections = nodes
  users : n.terminals.All fun e => UsersOk (who e.id) e

variable {n n' : Node} {tm bd i : Id} {c b : Conn} {es es' : List Effect} {x : Identifier} {p : Pending}
variable {d d' : NodeTerminalInfo} {e : Element NodeTerminalInfo} {f : Fsm} {out : Fsm.Outcome}
variable {nodes : List Conn} {who who' : Id → Conn → Prop}

theorem userState_reset {hidden : Bool} (h : hidden = false) : UserState (Fsm.reset f hidden).fsm.state := by
  rw [h]
  trivial

theorem userState_destroyed (hf : UserState f.state) (h : f.processObjectDestroyed = .ok out) :
    UserState out.fsm.state ∧ out.alive = true := by
  cases hs : f.state <;> simp only [hs, UserState] at hf <;>
    simp only [Fsm.processObjectDestroyed, hs, reduceCtorEq] at h
  all_goals
    cases h
    exact ⟨trivial, rfl⟩

theorem userState_mapping (h : Fsm.processRcvdMapping f i = .ok out) : UserState out.fsm.state := by
  cases hs : f.state <;> simp only [Fsm.processRcvdMapping, hs, reduceCtorEq] at h
  case awaitConfirmation =>
    split at h <;> cases h <;> trivial
  case mappedUnconfirmed =>
    split at h <;> cases h
    trivial
  case unusedUnconfirmed =>
    cases h
    trivial

theorem userState_removedAck (hf : UserState f.state) (h : f.processRcvdRemovedAck = .ok out) :
    UserState out.fsm.state ∧ out.alive = false := by
  cases hs : f.state <;> simp only [Fsm.processRcvdRemovedAck, hs, reduceCtorEq] at h
  split at h <;> cases h
  exact ⟨hf, rfl⟩

theorem Served.mono (h : n.Served nodes who) (hw : ∀ i c, who' i c → who i c) : n.Served nodes who' where
  nodes := h.nodes
  users := h.users.mono fun e he => { he with informed := fun hh c hc => he.informed hh c (hw e.id c hc) }

theorem Served.modifyTerminal {g : NodeTerminalInfo → NodeTerminalInfo} (h : n.Served nodes who)
    (hg : ∀ e, n.terminals.get? tm = some e → UsersOk (who e.id) e → UsersOk (who e.id) (e.modify g)) :
    (n.modifyTerminal tm g).Served nodes who where
  nodes := h.nodes
  users := h.users.modify hg

theorem Served.modifyBinding {g : NodeBindingInfo → NodeBindingInfo} (h : n.Served nodes who) :
    (n.modifyBinding bd g).Served nodes who :=
  ⟨h.nodes, h.users⟩

-- What does not change the users and the owners of a terminal
theorem UsersOk.modify {w : Conn → Prop} {g : NodeTerminalInfo → NodeTerminalInfo} (h : UsersOk w e)
    (hu : (g e.data).usingNodes = e.data.usingNodes) (hl : (g e.data).owningLeafs = e.data.owningLeafs)
    (hn : (g e.data).owningNodes = e.data.owningNodes) : UsersOk w (e.modify g) where
  states   := by
    rw [Element.modify_data, hu]
    exact h.states
  informed := by
    rw [Element.modify_data, hu, hl, hn]
    exact h.informed

theorem UsersOk.insertUser {w : Conn → Prop} (h : UsersOk w e) (hf : UserState f.state) :
    UsersOk w (e.modify fun d => { d with usingNodes := d.usingNodes.insert c f }) where
  states b f' hb := by
    rw [Element.modify_data] at hb
    by_cases hbc : b = c
    case pos =>
      rw [hbc, AList.lookup_insert, Option.some.injEq] at hb
      exact hb ▸ hf
    case neg =>
      rw [AList.lookup_insert_ne hbc] at hb
      exact h.states b f' hb
  informed hh b hb := by
    rw [Element.modify_data, AList.keys_insert]
    refine (h.informed hh b hb).imp_left fun hm => ?_
    by_cases hbc : b = c
    case pos => exact hbc ▸ List.mem_cons_self
    case neg => exact List.mem_cons_of_mem _ ((List.mem_erase_of_ne hbc).mpr hm)

theorem UsersOk.eraseUser {w : Conn → Prop} (h : UsersOk w e)
    (hc : e.hidden = false → w c → e.data.owningLeafs.keys = [] ∧ e.data.owningNodes.keys = [c]) :
    UsersOk w (e.modify fun d => { d with usingNodes := d.usingNodes.erase c }) where
  states b f hb := by
    rw [Element.modify_data] at hb
    by_cases hbc : b = c
    case pos =>
      rw [hbc, AList.lookup_erase] at hb
      cases hb
    case neg =>
      rw [AList.lookup_erase_ne hbc] at hb
      exact h.states b f hb
  informed hh b hb := by
    rw [Element.modify_data, AList.keys_erase]
    by_cases hbc : b = c
    case pos =>
      subst hbc
      exact .inr (hc hh hb)
    case neg => exact (h.informed hh b hb).imp_left (List.mem_erase_of_ne hbc).mpr

theorem Served.describe (h : n.Served nodes who) : (n.describe tm x c).1.Served nodes who :=
  h.modifyTerminal fun _ _ ho => ho.insertUser (userState_reset rfl)

theorem Served.describeToAll {cs : List Conn} (h : n.Served nodes who) :
    (n.describeToAll tm x cs).1.Served nodes who := by
  induction cs generalizing n
  case nil          => exact h
  case cons c cs ih => exact ih h.describe

-- No user goes away when a terminal is abandoned, because all of them have to acknowledge that.
theorem Served.abandonUsers {cs : List Conn} (h : n.Served nodes who) :
    (n.abandonUsers tm c cs).Returns fun s => s.1.Served nodes who := by
  induction cs generalizing n
  case nil          => exact .pure h
  case cons b cs ih =>
    refine deref_returns.bind fun e he => deref_returns.bind fun f hf => ?_
    refine .ite (fun _ => ih h) fun _ => Returns.bind (fun _ => id) fun out hout => ?_
    obtain ⟨hs, ha⟩ := userState_destroyed ((h.users tm e he).states b f hf) hout
    refine .ite (fun _ => ?_) fun hna => absurd ha hna
    exact (ih (h.modifyTerminal fun _ _ ho => ho.insertUser hs)).bind fun r hr => .pure hr

theorem Served.updateUsersForAbandonedTerminal (h : n.Served nodes who) :
    (n.updateUsersForAbandonedTerminal tm c).Returns fun s => s.1.Served nodes who :=
  .bind' fun _ => h.abandonUsers

theorem Served.updateLastOwningNode (h : n.Served nodes who) :
    (n.updateLastOwningNode tm).Returns fun s => s.1.Served nodes who := by
  refine deref_returns.bind fun e he => .bind' fun b => deref_returns.bind fun user hb => ?_
  refine .ite (fun _ => .pure h) fun _ => Returns.bind (fun _ => id) fun out hout => .bind' fun _ => .pure ?_
  have hs := (userState_destroyed ((h.users tm e he).states b user hb) hout).1
  exact h.modifyTerminal fun _ _ ho => ho.insertUser hs

theorem Served.updateState (h : n.Served nodes who) :
    (n.updateState tm).Returns fun s => s.1.Served nodes who := by
  refine .bind' fun e => .ite (fun _ => .pure ⟨h.nodes, h.users.erase⟩) fun _ => .pure ?_
  exact h.modifyTerminal fun _ _ ho => ho.modify rfl rfl rfl

theorem Served.disassociateTerminal (h : n.Served nodes who) :
    (n.disassociateTerminal tm).Returns fun m => m.Served nodes who := by
  refine .bind' fun e => .ite (fun _ => .bind' fun d => .pure ?_) fun _ => .pure h
  exact h.modifyBinding.modifyTerminal fun _ _ ho => ho.modify rfl rfl rfl

theorem Served.disassociateBinding (h : n.Served nodes who) :
    (n.disassociateBinding bd).Returns fun m => m.Served nodes who := by
  refine .bind' fun e => .ite (fun _ => .bind' fun d => .pure ?_) fun _ => .pure h
  exact (h.modifyTerminal fun _ _ ho => ho.modify rfl rfl rfl).modifyBinding

theorem Served.associateTerminal (h : n.Served nodes who) :
    (n.associateTerminal tm).Returns fun s => s.1.Served nodes who := by
  refine .bind' fun e => .ite (fun _ => ?_) fun _ => ?_
  · split
    · exact .error
    · exact .bind' fun _ => .pure h
  · split
    · exact .pure h
    · exact .pure (h.modifyBinding.modifyTerminal fun _ _ ho => ho.modify rfl rfl rfl)

theorem Served.associateBinding (h : n.Served nodes who) :
    (n.associateBinding bd).Returns fun s => s.1.Served nodes who := by
  refine .bind' fun e => .ite (fun _ => ?_) fun _ => ?_
  · split
    · exact .error
    · exact .bind' fun _ => .pure h
  · split
    · exact .pure h
    · exact .pure (h.modifyTerminal fun _ _ ho => ho.modify rfl rfl rfl).modifyBinding

theorem UsersOk.dropOwner {w : Conn → Prop} (h : UsersOk w e) (hc : c ∈ ownersMap e.data c)
    (hu : ¬Unowned (Node.dropOwner c e.data)) : UsersOk w (e.modify (Node.dropOwner c)) where
  states        := by
    rw [Element.modify_data, dropOwner_users]
    exact h.states
  informed hh b hb := by
    rw [Element.modify_data, dropOwner_users]
    refine .inl ((h.informed hh b hb).resolve_right fun ho => hu ((unowned_dropOwner_iff hc).mpr (.inr ?_)))
    simp only [stateOf, ho.1, ho.2]

-- Nobody has to know a terminal that has been hidden.
theorem Served.hide (h : n.Served nodes who) :
    { n with terminals := (n.terminals.modify tm (Node.dropOwner c)).hide tm }.Served nodes who where
  nodes := h.nodes
  users := by
    intro i e he
    rw [Register.get?_hide] at he
    split at he
    case isFalse hi =>
      rw [Register.get?_modify, if_neg hi] at he
      exact h.users i e he
    case isTrue hi  =>
      rw [Register.get?_modify, if_pos hi, Option.map_map, Option.map_eq_some_iff] at he
      obtain ⟨e, he, rfl⟩ := he
      refine { states := fun b f hb => (h.users i e he).states b f ?_, informed := fun hh => Bool.noConfusion hh }
      rwa [← dropOwner_users (c := c)]

theorem Served.terminalOwnerRemoved (h : n.Served nodes who) (he : n.terminals.get? tm = some e)
    (hc : c ∈ ownersMap e.data c) (hs : e.data.state = stateOf e.data) :
    ((n.modifyTerminal tm (Node.dropOwner c)).terminalOwnerRemoved tm c).Returns fun s => s.1.Served nodes who := by
  refine deref_returns.bind fun e' he' => ?_
  extract_lets bindingId next
  have hnext (s : Node × List Effect) (hs : s.1.Served nodes who) :
      (next s).Returns fun s => s.1.Served nodes who := by
    refine hs.updateState.bind fun u h₂ => ?_
    obtain ⟨n₂, known, alive⟩ := u
    refine .ite (fun _ => .ite (fun _ => .pure h₂) fun _ => .bind' fun bd => .pure h₂) fun _ => ?_
    refine .bind' fun e₂ => ?_
    extract_lets last
    have hlast (t : Node × List Effect) (ht : t.1.Served nodes who) :
        (last t).Returns fun s => s.1.Served nodes who := by
      refine .bind' fun _ => ?_
      extract_lets finish
      exact .ite (fun _ => ht.disassociateTerminal.bind fun m hm => .pure hm) fun _ => .pure ht
    refine .ite (fun _ => h₂.updateLastOwningNode.bind hlast) fun _ => ?_
    exact (Returns.pure (P := fun t : Node × List Effect => t.1.Served nodes who) h₂).bind hlast
  have hst : e'.data.state = e.data.state := by
    simp only [Node.modifyTerminal, Register.get?_modify, he, if_true, Option.map_some, Option.some.injEq] at he'
    rw [← he', Element.modify_data, dropOwner_state]
  rw [hst, hs]
  have hu := unowned_dropOwner_iff hc
  have hmore (hu : ¬Unowned (Node.dropOwner c e.data)) :
      Returns ((pure (n.modifyTerminal tm (Node.dropOwner c), []) : Result) >>= next) fun s =>
        s.1.Served nodes who := by
    refine (Returns.pure (P := fun s : Node × List Effect => s.1.Served nodes who) ?_).bind hnext
    refine h.modifyTerminal fun e' he' ho => ?_
    cases he.symm.trans he'
    exact ho.dropOwner hc hu
  have hlast : Returns (Node.disassociateTerminal
      { n with terminals := (n.terminals.modify tm (Node.dropOwner c)).hide tm } tm >>= fun m =>
      m.updateUsersForAbandonedTerminal tm c >>= next) fun s => s.1.Served nodes who :=
    h.hide.disassociateTerminal.bind fun m hm => hm.updateUsersForAbandonedTerminal.bind hnext
  split
  case h_1    => exact hlast
  case h_2    => exact hlast
  case h_3 hs => exact hmore (by rw [hu, hs]; simp)
  case h_4 hs => exact hmore (by rw [hu, hs]; simp)
  case h_5 hs => exact hmore (by rw [hu, hs]; simp)
  case h_6    => exact .error
  case h_7    => exact .error

theorem insertOwner_leafs_keys (h : c ∈ ownersMap d c) :
    (setOwnersMap d c ((ownersMap d c).insert c f)).owningLeafs.keys.Perm d.owningLeafs.keys := by
  cases hn : c.remoteIsNode
  case true  =>
    simp only [setOwnersMap, hn, if_true]
    exact .refl _
  case false =>
    simp only [ownersMap, hn, Bool.false_eq_true, if_false] at h
    simp only [setOwnersMap, ownersMap, hn, Bool.false_eq_true, if_false]
    exact keys_insert_perm h

theorem insertOwner_nodes_keys (h : c ∈ ownersMap d c) :
    (setOwnersMap d c ((ownersMap d c).insert c f)).owningNodes.keys.Perm d.owningNodes.keys := by
  cases hn : c.remoteIsNode
  case false =>
    simp only [setOwnersMap, hn, Bool.false_eq_true, if_false]
    exact .refl _
  case true  =>
    simp only [ownersMap, hn, if_true] at h
    simp only [setOwnersMap, ownersMap, hn, if_true]
    exact keys_insert_perm h

theorem UsersOk.insertOwner {w : Conn → Prop} (h : UsersOk w e) (hc : c ∈ ownersMap e.data c) :
    UsersOk w (e.modify fun d => setOwnersMap d c ((ownersMap d c).insert c f)) where
  states        := by
    rw [Element.modify_data, insertOwner_users]
    exact h.states
  informed hh b hb := by
    rw [Element.modify_data, insertOwner_users]
    refine (h.informed hh b hb).imp_right fun ho => ⟨?_, ?_⟩
    · have hp := insertOwner_leafs_keys (f := f) hc
      rw [ho.1] at hp
      exact hp.eq_nil
    · have hp := insertOwner_nodes_keys (f := f) hc
      rw [ho.2] at hp
      exact List.perm_singleton.mp hp

theorem Served.removeTerminalOwner {broken : Bool} (h : n.Served nodes who)
    (hs : ∀ e, n.terminals.get? tm = some e → e.data.state = stateOf e.data) :
    (n.removeTerminalOwner tm c broken).Returns fun s => s.1.Served nodes who := by
  refine deref_returns.bind fun e he => ?_
  split
  case h_1 hl   => exact .ite (fun _ => .pure h) fun _ => .error
  case h_2 f hl =>
    have hc : c ∈ ownersMap e.data c := mem_keys_of_lookup hl
    have hr := h.terminalOwnerRemoved he hc (hs e he)
    refine .ite (fun _ => hr) fun _ => .bind' fun out => .ite (fun _ => .pure ?_) fun _ => hr.bind fun r hr => .pure hr
    refine h.modifyTerminal fun e' he' ho => ?_
    cases he.symm.trans he'
    exact ho.insertOwner hc

-- More nodes have to know a terminal, and they do so.
theorem Served.widen (h : n.Served nodes who) (tm : Id) (hi : ∀ i b, i ≠ tm → who' i b → who i b)
    (ht : ∀ e, n.terminals.get? tm = some e → e.hidden = false → ∀ b, who' tm b → who tm b ∨
      b ∈ e.data.usingNodes.keys ∨ e.data.owningLeafs.keys = [] ∧ e.data.owningNodes.keys = [b]) :
    n.Served nodes who' where
  nodes := h.nodes
  users := by
    intro i e he
    have ho := h.users i e he
    have hid := Register.get?_id he
    refine { states := ho.states, informed := fun hh b hb => ?_ }
    by_cases htm : i = tm
    case neg => exact ho.informed hh b (hi e.id b (hid ▸ htm) hb)
    case pos =>
      have hid' : e.id = tm := hid.trans htm
      rw [hid'] at hb
      exact (ht e (htm ▸ he) hh b hb).elim (fun hw => ho.informed hh b (hid' ▸ hw)) id

theorem mem_users_insert {m : FsmMap} (h : b ∈ m.keys ∨ b = c) : b ∈ (m.insert c f).keys := by
  rw [AList.keys_insert]
  by_cases hbc : b = c
  case pos => exact hbc ▸ List.mem_cons_self
  case neg => exact List.mem_cons_of_mem _ ((List.mem_erase_of_ne hbc).mpr (h.resolve_right hbc))

theorem Served.describe_to (h : n.Served nodes who) :
    (n.describe tm x c).1.Served nodes fun i b => who i b ∨ i = tm ∧ b = c := by
  refine h.describe.widen tm (fun i b hi hb => hb.resolve_right fun hb => hi hb.1) fun e he _ b hb => ?_
  refine hb.imp_right fun hb => .inl ?_
  simp only [Node.describe, Node.modifyTerminal, Register.get?_modify, if_true, Option.map_eq_some_iff] at he
  obtain ⟨e, _, rfl⟩ := he
  exact mem_users_insert (.inr hb.2)

theorem Served.describeToAll_to {cs : List Conn} (h : n.Served nodes who) :
    (n.describeToAll tm x cs).1.Served nodes fun i b => who i b ∨ i = tm ∧ b ∈ cs := by
  induction cs generalizing n who
  case nil          => exact h.mono fun i b hb => hb.resolve_right fun hb => List.not_mem_nil hb.2
  case cons c cs ih =>
    refine (ih h.describe_to).mono fun i b hb => ?_
    rcases hb with hb | ⟨hi, hb⟩
    · exact .inl (.inl hb)
    · exact (List.mem_cons.mp hb).elim (fun hb => .inl (.inr ⟨hi, hb⟩)) fun hb => .inr ⟨hi, hb⟩

-- The new owner `c` of a terminal does not have to be told about it, nor does its only owner up to now.
theorem Served.informUsers (h : n.Served nodes fun i b => i ≠ tm ∧ b ∈ nodes) (he : n.terminals.get? tm = some e)
    (hnew : e.data.state = .justCreated →
      c ∈ nodes → e.data.owningLeafs.keys = [] ∧ e.data.owningNodes.keys = [c])
    (hold : e.data.state ≠ .justCreated → ∀ b ∈ nodes, b ∈ e.data.usingNodes.keys ∨
      e.data.state = .owners0Leafs1Nodes ∧ ∀ k ∈ e.data.owningNodes.keys, k ≠ c → k = b) :
    (n.informUsers tm c).Returns fun s => s.1.Served nodes fun _ b => b ∈ nodes := by
  refine deref_returns.bind fun e' he' => ?_
  cases he.symm.trans he'
  have hall (hs : e.data.state ≠ .justCreated) (hs' : e.data.state ≠ .owners0Leafs1Nodes) :
      n.Served nodes fun _ b => b ∈ nodes := by
    refine h.widen tm (fun i b hi hb => ⟨hi, hb⟩) fun e' he' _ b hb => .inr (.inl ?_)
    cases he.symm.trans he'
    exact (hold hs b hb).resolve_right fun ho => hs' ho.1
  split
  case h_1 hs =>
    refine .pure ?_
    have hi := Register.get?_id he
    refine h.describeToAll_to.widen tm (fun i b hi hb => .inl ⟨hi, hb⟩) fun e' he' _ b hb => ?_
    have ht : Told e (n.describeToAll tm e.identifier (n.nodeConnections.filter (· ≠ c))).1 :=
      told_describeToAll ⟨_, hi ▸ he⟩ hi
    obtain ⟨users, ht⟩ := ht
    rw [hi] at ht
    cases he'.symm.trans ht
    by_cases hbc : b = c
    case pos => exact .inr (.inr (hbc ▸ hnew hs (hbc ▸ hb)))
    case neg => exact .inl (.inr ⟨rfl, List.mem_filter.mpr ⟨h.nodes ▸ hb, decide_eq_true hbc⟩⟩)
  case h_2 hs => exact .pure (hall (by simp [hs]) (by simp [hs]))
  case h_3 hs => exact .pure (hall (by simp [hs]) (by simp [hs]))
  case h_4 hs => exact .pure (hall (by simp [hs]) (by simp [hs]))
  case h_5 hs => exact .pure (hall (by simp [hs]) (by simp [hs]))
  case h_6 hs =>
    refine deref_returns.bind fun owner ho => .ite (fun _ => .pure ?_) fun hl => .pure ?_
    all_goals
      have hk := List.mem_of_find?_eq_some ho
      have hne : owner ≠ c := by simpa using List.find?_some ho
      have hb {b : Conn} (hb : b ∈ nodes) : b ∈ e.data.usingNodes.keys ∨ b = owner :=
        (hold (by simp [hs]) b hb).imp_right fun hb => (hb.2 owner hk hne).symm
    case refine_1 =>
      refine h.describe_to.widen tm (fun i b hi hb => .inl ⟨hi, hb⟩) fun e' he' _ b hm => ?_
      simp only [Node.describe, Node.modifyTerminal, Register.get?_modify, if_true, he, Option.map_some,
        Option.some.injEq] at he'
      exact .inr (.inl (he' ▸ mem_users_insert (hb hm)))
    case refine_2 =>
      refine h.widen tm (fun i b hi hb => ⟨hi, hb⟩) fun e' he' _ b hm => .inr (.inl ?_)
      cases he.symm.trans he'
      refine (hb hm).elim id fun hbo => hbo ▸ ?_
      obtain ⟨f, hf⟩ := Option.ne_none_iff_exists'.mp fun hn => hl (Option.isNone_iff_eq_none.mpr hn)
      exact mem_keys_of_lookup hf
  case h_7 => exact .error

theorem Served.insertTerminal (h : n.Served nodes who) (hf : n.terminals.find? x = none) :
    { n with terminals := (n.terminals.insert x {}).1 }.Served nodes
      fun i b => i ≠ (n.terminals.insert x {}).2.1 ∧ who i b where
  nodes := h.nodes
  users := by
    obtain ⟨_, _, _, hg⟩ := Register.insert_of_find?_none (d := ({} : NodeTerminalInfo)) hf
    intro i e he
    rw [hg] at he
    split at he
    case isFalse hi =>
      have ho := h.users i e he
      exact { states := ho.states, informed := fun hh b hb => ho.informed hh b hb.2 }
    case isTrue hi  =>
      rw [Option.some.injEq] at he
      subst he
      exact
        { states := fun b f hb => by cases hb
          informed := fun _ b hb => absurd rfl hb.1 }

theorem Served.insertTerminal_some (h : n.Served nodes who) (hf : n.terminals.find? x = some e) :
    { n with terminals := (n.terminals.insert x {}).1 }.Served nodes who where
  nodes := h.nodes
  users := fun i e' he' => h.users i e' ((Register.insert_of_find?_some hf).2 i ▸ he')

theorem stateOf_eq_owners0Leafs1Nodes :
    stateOf d = .owners0Leafs1Nodes ↔ d.owningLeafs.keys = [] ∧ ∃ c, d.owningNodes.keys = [c] := by
  simp only [stateOf]
  generalize d.owningLeafs.keys = a, d.owningNodes.keys = b
  rcases a with _ | ⟨_, _ | ⟨_, _⟩⟩ <;> rcases b with _ | ⟨_, _ | ⟨_, _⟩⟩ <;> simp

theorem UsersOk.setOwner {w : Conn → Prop} (h : UsersOk w e) (hw : ∀ b, ¬w b) :
    UsersOk w (e.modify fun d => setOwnersMap d c ((ownersMap d c).insert c f)) where
  states        := by
    rw [Element.modify_data, insertOwner_users]
    exact h.states
  informed _ b hb := absurd hb (hw b)

-- The terminal is either new or has been known before.
theorem Served.inserted (h : n.Consistent {}) (hs : n.Served nodes fun _ b => b ∈ nodes)
    (he : (n.terminals.insert x {}).1.get? (n.terminals.insert x {}).2.1 = some e) :
    { n with terminals := (n.terminals.insert x {}).1 }.Served nodes
      (fun i b => i ≠ (n.terminals.insert x {}).2.1 ∧ b ∈ nodes) ∧
    (e.data = {} ∨ e.data.state = stateOf e.data ∧ e.hidden = false ∧ UsersOk (· ∈ nodes) e ∧
      { n with terminals := (n.terminals.insert x {}).1 }.Served nodes fun _ b => b ∈ nodes) := by
  cases hf : n.terminals.find? x
  case none   =>
    refine ⟨hs.insertTerminal hf, .inl ?_⟩
    rw [(Register.insert_of_find?_none hf).2.2.2, if_pos rfl, Option.some.injEq] at he
    exact he ▸ rfl
  case some d =>
    have hs' := hs.insertTerminal_some hf
    refine ⟨hs'.mono fun i b hb => hb.2, .inr ⟨?_, ?_, hs'.users _ e he, hs'⟩⟩
    · exact ((h.insertTerminal_some hf).get? he).state (Set.notMem_empty _)
    · rw [(Register.insert_of_find?_some hf).2, (Register.insert_of_find?_some hf).1] at he
      obtain ⟨hd, _, hh⟩ := Register.find?_eq_some_iff.mp hf
      cases hd.symm.trans he
      exact hh

theorem keys_of_new (hc : c.remoteIsNode = true) :
    (setOwnersMap {} c ((ownersMap {} c).insert c f)).owningLeafs.keys = [] ∧
    (setOwnersMap {} c ((ownersMap {} c).insert c f)).owningNodes.keys = [c] := by
  simp only [setOwnersMap, ownersMap, hc, if_true, AList.keys_insert]
  exact ⟨rfl, rfl⟩

theorem not_mem_ownersMap_new : c ∉ ownersMap {} c := by
  simp only [ownersMap]
  split <;> exact AList.notMem_empty _

theorem Served.onTerminalDescription (h : n.Consistent {}) (hs : n.Served nodes fun _ b => b ∈ nodes) :
    (n.onTerminalDescription x i c).Returns fun s => s.1.Served nodes fun _ b => b ∈ nodes := by
  have hins {e} (he : (n.terminals.insert x {}).1.get? (n.terminals.insert x {}).2.1 = some e) := hs.inserted h he
  simp only [Node.onTerminalDescription]
  generalize n.terminals.insert x {} = inserted at *
  obtain ⟨ts, tm, ins⟩ := inserted
  refine deref_returns.bind fun e he => Returns.bind (fun _ => id) fun out hout => ?_
  obtain ⟨hserved, hcase⟩ := hins he
  have hout' : c ∉ ownersMap e.data c → oldMappedId out.calls = 0 := fun hm =>
    oldMappedId_of_new (i := i) (by rwa [AList.lookup_eq_none.mpr hm] at hout)
  refine .ite (fun ho => .pure ?_) fun _ => ?_
  case refine_1 =>
    have hm := by_contra fun hm => ho (hout' hm)
    rcases hcase with hd | ⟨_, _, _, hs'⟩
    · exact absurd (hd ▸ hm) not_mem_ownersMap_new
    · refine hs'.modifyTerminal fun e' he' hu => ?_
      cases he.symm.trans he'
      exact hu.insertOwner hm
  case refine_2 =>
    have he' : (Node.modifyTerminal { n with terminals := ts } tm fun d =>
        setOwnersMap d c ((ownersMap d c).insert c out.fsm)).terminals.get? tm =
        some (e.modify fun d => setOwnersMap d c ((ownersMap d c).insert c out.fsm)) := by
      have he' : ts.get? tm = some e := he
      simp only [Node.modifyTerminal, Register.get?_modify, if_true, he', Option.map_some]
    have hset : (Node.modifyTerminal { n with terminals := ts } tm fun d =>
        setOwnersMap d c ((ownersMap d c).insert c out.fsm)).Served nodes fun i b => i ≠ tm ∧ b ∈ nodes :=
      hserved.modifyTerminal fun e he ho => ho.setOwner fun b hb => hb.1 (Register.get?_id he)
    refine (hset.informUsers he' (fun hj hc => ?_) fun hj b hb => ?_).bind fun s h₁ =>
      h₁.associateTerminal.bind fun t h₂ => .bind' fun _ => h₂.updateState.bind fun u h₃ => .pure h₃
    case refine_1 =>
      rw [Element.modify_data, insertOwner_state] at hj
      have hd := hcase.resolve_right fun ho => stateOf_ne_justCreated (ho.1 ▸ hj)
      rw [Element.modify_data, hd]
      exact keys_of_new (h.nodes c (hs.nodes ▸ hc))
    case refine_2 =>
      rw [Element.modify_data, insertOwner_state] at hj ⊢
      rw [insertOwner_users]
      obtain ⟨hst, hh, hu, _⟩ := hcase.resolve_left fun hd => hj (hd ▸ rfl)
      refine (hu.informed hh b hb).imp_right fun ho => ⟨?_, fun k hk hkc => ?_⟩
      · exact hst.trans (stateOf_eq_owners0Leafs1Nodes.mpr ⟨ho.1, b, ho.2⟩)
      · have hm := (mem_insertOwner_nodes hk).resolve_right fun hk => hkc hk.1
        rwa [ho.2, List.mem_singleton] at hm

theorem Served.onTerminalMapping (hs : n.Served nodes who) :
    (n.onTerminalMapping tm i c).Returns fun s => s.1.Served nodes who := by
  refine .bind' fun _ => .bind' fun e => .ite (fun _ => .error) fun _ => Returns.bind (fun _ => id) fun out hout => ?_
  exact .ite (fun _ => .error) fun _ => .pure (hs.modifyTerminal fun _ _ ho => ho.insertUser (userState_mapping hout))

theorem Served.onTerminalRemovedAck (h : n.Consistent {}) (hs : n.Served nodes who) :
    (n.onTerminalRemovedAck tm c).Returns fun s => s.1.Served nodes who := by
  refine .bind' fun _ => deref_returns.bind fun e he => ?_
  have ho := h.get? he
  have hst := ho.state (Set.notMem_empty _)
  extract_lets user describe _ acknowledge next
  have hd : Returns describe fun s => s.1.Served nodes who := .bind' fun _ => .pure hs.describe
  have ha (hx : e.hidden = false → e.data.owningLeafs.keys = [] ∧ e.data.owningNodes.keys = [c]) :
      Returns acknowledge fun s => s.1.Served nodes who := by
    refine deref_returns.bind fun f hf => Returns.bind (fun _ => id) fun out hout => ?_
    obtain ⟨hu, hal⟩ := userState_removedAck ((hs.users tm e he).states c f hf) hout
    refine .ite (fun _ => ?_) fun _ => .pure (hs.modifyTerminal fun e' he' hu => ?_)
    · exact .pure (hs.modifyTerminal fun _ _ ho => ho.insertUser hu)
    · cases he.symm.trans he'
      exact hu.eraseUser fun hh _ => hx hh
  have hnext (s : Node × List Effect) (hs : s.1.Served nodes who) :
      (next s).Returns fun s => s.1.Served nodes who := by
    refine .bind' fun e => ?_
    extract_lets last
    have hlast (n' : Node) (hn' : n'.Served nodes who) : (last n').Returns fun s => s.1.Served nodes who :=
      hn'.updateState.bind fun u hu => .pure hu
    exact .ite (fun _ => hs.disassociateTerminal.bind hlast) fun _ => hlast _ hs
  split
  case h_1    => exact .error
  case h_2    => exact hd.bind hnext
  case h_3    => exact hd.bind hnext
  case h_4    => exact hd.bind hnext
  case h_5    => exact hd.bind hnext
  case h_6 hs =>
    refine .ite (fun _ => hd.bind hnext) fun hl => (ha fun _ => ?_).bind hnext
    obtain ⟨f, hf⟩ := Option.ne_none_iff_exists'.mp fun hn => hl (Option.isNone_iff_eq_none.mpr hn)
    obtain ⟨hl, k, hk⟩ := stateOf_eq_owners0Leafs1Nodes.mp (hst.symm.trans hs)
    have hm := mem_keys_of_lookup hf
    rw [hk, List.mem_singleton] at hm
    exact ⟨hl, hm ▸ hk⟩
  case h_7 hs =>
    refine (ha fun hh => ?_).bind hnext
    have hu := stateOf_eq_awaitAcks_iff.mp (hst.symm.trans hs)
    exact Bool.noConfusion (hh.symm.trans (ho.hidden.mpr hu))

theorem Served.onBindingDescription (hs : n.Served nodes who) :
    (n.onBindingDescription x i c).Returns fun s => s.1.Served nodes who := by
  refine .bind' fun _ => ?_
  simp only []
  refine .bind' fun e => .bind' fun out => ?_
  have h₂ (r : Register NodeBindingInfo) : { n with bindings := r }.Served nodes who := ⟨hs.nodes, hs.users⟩
  refine .ite (fun _ => .pure (h₂ _)) fun _ => (h₂ _).associateBinding.bind fun s hs => ?_
  obtain ⟨n₁, tm⟩ := s
  cases tm
  case none    => exact .pure hs
  case some tm => exact .bind' fun e => .ite (fun _ => .pure hs) fun _ => .pure hs

theorem Served.onBindingRemoved (hs : n.Served nodes who) :
    (n.onBindingRemoved i c).Returns fun s => s.1.Served nodes who := by
  refine .bind' fun _ => .bind' fun e => .bind' fun owner => .bind' fun out => ?_
  refine .ite (fun _ => .pure hs.modifyBinding) fun _ => .ite (fun _ => ?_) fun _ => .pure hs.modifyBinding
  exact hs.modifyBinding.disassociateBinding.bind fun m hm => .pure ⟨hm.nodes, hm.users⟩

theorem Served.onMessageReceived {m : Message} (h : n.Consistent {}) (hs : n.Served nodes fun _ b => b ∈ nodes) :
    (n.onMessageReceived c m).Returns fun s => s.1.Served nodes fun _ b => b ∈ nodes := by
  cases m
  case terminalDescription => exact hs.onTerminalDescription h
  case terminalMapping     => exact hs.onTerminalMapping
  case terminalRemoved     => exact hs.removeTerminalOwner fun e he => (h.get? he).state (Set.notMem_empty _)
  case terminalRemovedAck  => exact hs.onTerminalRemovedAck h
  case bindingDescription  => exact hs.onBindingDescription
  case bindingRemoved      => exact hs.onBindingRemoved
  all_goals exact .error

theorem Served.onConnectionStarted (h : n.Served nodes fun _ b => b ∈ nodes) (hd : nodes.Nodup) :
    (n.onConnectionStarted c).Returns fun s => ∃ nodes : List Conn, nodes.Nodup ∧
      s.1.Served nodes fun _ b => b ∈ nodes := by
  refine .ite (fun hn => ?_) fun hn => .bind' fun _ => .pure ⟨nodes, hd, h.nodes, h.users⟩
  have hstart : n.Served nodes fun i b => b ∈ nodes ∨ i ∉ n.terminals.ids ∧ b = c := by
    refine ⟨h.nodes, fun i e he => ?_⟩
    have ho := h.users i e he
    have hi : e.id ∈ n.terminals.ids := Register.mem_ids_iff.mpr ⟨e, (Register.get?_id he).symm ▸ he⟩
    exact { ho with informed := fun hh b hb => ho.informed hh b (hb.resolve_right fun hb => hb.1 hi) }
  refine (forEach_returns (P := fun is n => n.Served nodes fun i b => b ∈ nodes ∨ i ∉ is ∧ b = c)
    (fun n tm is hs => ?_) _ hstart).bind fun r hr => assert_returns.bind fun _ hc => .pure ⟨nodes ++ [c], ?_, ?_⟩
  case refine_1 =>
    have hother {i : Id} {b : Conn} (hi : i ≠ tm) (hb : b ∈ nodes ∨ i ∉ is ∧ b = c) :
        b ∈ nodes ∨ i ∉ tm :: is ∧ b = c :=
      hb.imp_right fun hb => ⟨fun hm => (List.mem_cons.mp hm).elim hi hb.1, hb.2⟩
    refine deref_returns.bind fun e he => .ite (fun hh => .pure ?_) fun _ => .bind' fun _ => .pure ?_
    · refine hs.widen tm (fun i b => hother) fun e' he' hh' => ?_
      cases he.symm.trans he'
      exact Bool.noConfusion (hh.symm.trans hh')
    · refine (hs.describe_to (x := e.identifier)).widen tm (fun i b hi hb => .inl (hother hi hb)) fun e' _ _ b hb => ?_
      exact .inl (hb.imp .inl fun hb => ⟨rfl, hb.2⟩)
  case refine_2 =>
    have hc : c ∉ r.1.nodeConnections := by simpa using hc
    exact hd.append (List.nodup_singleton c) fun b hb hbc => hc (hr.nodes ▸ List.mem_singleton.mp hbc ▸ hb)
  case refine_3 =>
    refine ⟨congrArg (· ++ [c]) hr.nodes, hr.users.mono fun e ho => { ho with informed := fun hh b hb => ?_ }⟩
    refine ho.informed hh b ((List.mem_append.mp hb).imp_right fun hb => ?_)
    exact ⟨List.not_mem_nil, List.mem_singleton.mp hb⟩

-- The state of a terminal is the one that its owners determine.
theorem updateState_state : (n.updateState tm).Returns fun s =>
    ∀ e, s.1.terminals.get? tm = some e → e.data.state = stateOf e.data := by
  refine .bind' fun e => .ite (fun _ => .pure fun e he => ?_) fun _ => .pure fun e he => ?_
  · rw [Register.get?_erase, if_pos rfl] at he
    cases he
  · simp only [modifyTerminal, Register.get?_modify, if_true, Option.map_eq_some_iff] at he
    obtain ⟨e, _, rfl⟩ := he
    rfl

theorem Served.eraseUser (h : n.Served nodes who) (hc : ∀ i, ¬who i c) :
    (n.modifyTerminal tm fun d => { d with usingNodes := d.usingNodes.erase c }).Served nodes who :=
  h.modifyTerminal fun e _ ho => ho.eraseUser fun _ hw => absurd hw (hc e.id)

-- The connection is not one of the nodes any more.
theorem Served.leave (h : n.Consistent {}) (hs : n.Served nodes fun _ b => b ∈ nodes) (hd : nodes.Nodup) :
    ∃ nodes' : List Conn, c ∉ nodes' ∧ nodes'.Nodup ∧
      (if c.remoteIsNode then { n with nodeConnections := n.nodeConnections.erase c }
        else { n with leafConnections := n.leafConnections.erase c }).Served nodes' fun _ b => b ∈ nodes' := by
  split
  case isTrue    =>
    refine ⟨nodes.erase c, hd.not_mem_erase, hd.erase c, congrArg (·.erase c) hs.nodes, ?_⟩
    exact hs.users.mono fun e ho => { ho with informed := fun hh b hb => ho.informed hh b (List.mem_of_mem_erase hb) }
  case isFalse hn =>
    refine ⟨nodes, fun hc => hn (h.nodes c (hs.nodes ▸ hc)), hd, hs.nodes, hs.users⟩

theorem Served.leaveBinding (h : n.Served nodes who) :
    (Node.leaveBinding c n bd).Returns fun s => s.1.Served nodes who := by
  refine .bind' fun d => ?_
  extract_lets m called
  refine .ite (fun _ => ?_) fun _ => .pure h.modifyBinding
  exact h.modifyBinding.disassociateBinding.bind fun m hm => .pure ⟨hm.nodes, hm.users⟩

theorem Served.leaveTerminal (h : n.Served nodes who) (hc : ∀ i, ¬who i c) :
    (Node.leaveTerminal c n tm).Returns fun s => s.1.Served nodes who := by
  have hu : (n.modifyTerminal tm fun d => { d with usingNodes := d.usingNodes.erase c }).Served nodes who :=
    h.eraseUser hc
  have hstate : (Node.updateState _ tm).Returns fun s => s.1.Served nodes who ∧
      ∀ e, s.1.terminals.get? tm = some e → e.data.state = stateOf e.data :=
    fun s hs => ⟨hu.updateState s hs, updateState_state s hs⟩
  simp only [Node.leaveTerminal]
  refine hstate.bind fun u h₁ => ?_
  obtain ⟨m₁, known, alive⟩ := u
  exact .ite (fun _ => (h₁.1.removeTerminalOwner h₁.2).bind fun r hr => .pure hr) fun _ => .pure h₁.1

theorem Served.onConnectionDestroyed (h : n.Consistent {}) (hs : n.Served nodes fun _ b => b ∈ nodes)
    (hd : nodes.Nodup) : (n.onConnectionDestroyed c).Returns fun s => ∃ nodes : List Conn, nodes.Nodup ∧
      s.1.Served nodes fun _ b => b ∈ nodes := by
  refine .ite (fun _ => .pure ⟨nodes, hd, hs⟩) fun _ => ?_
  obtain ⟨nodes, hc, hd, hstart⟩ := hs.leave (c := c) h hd
  extract_lets m
  refine (forEach_returns (P := fun _ m => m.Served nodes fun _ b => b ∈ nodes) (fun n bd bs hb => hb.leaveBinding)
    _ hstart).bind fun r hr => ?_
  exact (forEach_returns (P := fun _ m => m.Served nodes fun _ b => b ∈ nodes)
    (fun n tm ts ht => ht.leaveTerminal fun _ => hc) _ hr).bind fun s hs => .pure ⟨nodes, hd, hs⟩

-- Every node that is connected is told about all terminals but those that only it owns.
def Informed (n : Node) : Prop :=
  ∃ nodes : List Conn, nodes.Nodup ∧ n.Served nodes fun _ b => b ∈ nodes

theorem Informed.onEvent {a : Event} (h : n.Consistent {}) (hs : n.Informed) :
    (n.onEvent a).Returns fun s => s.1.Informed := by
  obtain ⟨nodes, hd, hs⟩ := hs
  cases a
  case connectionStarted   => exact hs.onConnectionStarted hd
  case connectionDestroyed => exact hs.onConnectionDestroyed h hd
  case message             => exact (hs.onMessageReceived h).imp fun s hs => ⟨nodes, hd, hs⟩

theorem informed_of_reachable (h : machine.Reachable n) : n.Informed := by
  induction h
  case init hn          =>
    cases hn
    exact ⟨[], List.nodup_nil, rfl, fun i e he => by cases he⟩
  case step hr _ hs ih =>
    obtain ⟨s, ht, rfl⟩ := Except.map_eq_ok.mp hs
    exact Informed.onEvent (consistent_of_reachable hr) ih s ht

-- A node that is connected is told about every terminal, unless nobody else owns it.
theorem nodes_informed (h : machine.Reachable n) (he : n.terminals.get? tm = some e) (hh : e.hidden = false)
    (hc : c ∈ n.nodeConnections) :
    c ∈ e.data.usingNodes.keys ∨ e.data.owningLeafs.keys = [] ∧ e.data.owningNodes.keys = [c] := by
  obtain ⟨nodes, _, hs⟩ := informed_of_reachable h
  exact (hs.users tm e he).informed hh c (hs.nodes ▸ hc)

theorem nodes_informed_shared :
    ∃ n e, machine.run {} shared = some n ∧ n.terminals.get? 1 = some e ∧
    (nodeB ∈ e.data.usingNodes.keys ∨ e.data.owningLeafs.keys = [] ∧ e.data.owningNodes.keys = [nodeB]) := by
  have h : ((machine.run {} shared).map fun n => ((n.terminals.get? 1).map (·.hidden), n.nodeConnections)) =
    some (some false, [nodeB]) := rfl
  obtain ⟨n, hn, hg⟩ := Option.map_eq_some_iff.mp h
  simp only [Prod.mk.injEq, Option.map_eq_some_iff] at hg
  obtain ⟨⟨e, he, hh⟩, hc⟩ := hg
  exact ⟨n, e, hn, he, nodes_informed (reachable_of_run shared n hn) he hh (hc ▸ List.mem_singleton_self nodeB)⟩

end Yogi.Node
