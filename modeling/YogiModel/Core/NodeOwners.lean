import YogiModel.Core.NodeConsistency

-- The removal of owners of terminals
namespace Yogi.Node

open Except (Returns)

variable {n n' : Node} {tm bd i : Id} {c : Conn} {es es' : List Effect} {x : Identifier} {p q : Pending}
variable {d d' : NodeTerminalInfo} {e : Element NodeTerminalInfo} {f : Fsm}
variable {conns : List Conn} {found : Identifier → Option Id}

def dropOwner (c : Conn) (d : NodeTerminalInfo) : NodeTerminalInfo :=
  setOwnersMap d c ((ownersMap d c).erase c)

theorem erase_eq_nil_iff {a : List Conn} (h : c ∈ a) : a.erase c = [] ↔ a.length = 1 := by
  rw [← List.length_eq_zero_iff, List.length_erase_of_mem h]
  have := List.length_pos_of_mem h
  omega

-- The last owner has been removed.
theorem unowned_dropOwner_iff (h : c ∈ ownersMap d c) :
    Unowned (dropOwner c d) ↔ stateOf d = .owners1Leafs0Nodes ∨ stateOf d = .owners0Leafs1Nodes := by
  simp only [ownersMap] at h
  simp only [Unowned, dropOwner, setOwnersMap, ownersMap, stateOf]
  split at h
  case isTrue hn  =>
    have hm : c ∈ d.owningNodes.keys := h
    simp only [hn, if_true, AList.keys_erase, erase_eq_nil_iff hm]
    generalize d.owningLeafs.keys = a, d.owningNodes.keys = b at hm
    rcases a with _ | ⟨_, _ | ⟨_, _⟩⟩ <;> rcases b with _ | ⟨_, _ | ⟨_, _⟩⟩ <;> simp at hm ⊢
  case isFalse hn =>
    have hm : c ∈ d.owningLeafs.keys := h
    simp only [hn, Bool.false_eq_true, if_false, AList.keys_erase, erase_eq_nil_iff hm]
    generalize d.owningLeafs.keys = a, d.owningNodes.keys = b at hm
    rcases a with _ | ⟨_, _ | ⟨_, _⟩⟩ <;> rcases b with _ | ⟨_, _ | ⟨_, _⟩⟩ <;> simp at hm ⊢

theorem not_unowned (h : c ∈ ownersMap d c) : ¬Unowned d := by
  intro hu
  simp only [ownersMap] at h
  split at h
  case isTrue  => exact absurd (hu.2 ▸ h : c ∈ ([] : List Conn)) List.not_mem_nil
  case isFalse => exact absurd (hu.1 ▸ h : c ∈ ([] : List Conn)) List.not_mem_nil

theorem dropOwner_binding : (dropOwner c d).binding = d.binding := by
  simp only [dropOwner, setOwnersMap]
  split <;> rfl

theorem dropOwner_users : (dropOwner c d).usingNodes = d.usingNodes := by
  simp only [dropOwner, setOwnersMap]
  split <;> rfl

theorem mem_dropOwner_leafs {b : Conn} (h : b ∈ (dropOwner c d).owningLeafs.keys) :
    b ∈ d.owningLeafs.keys ∧ (c.remoteIsNode = false → b ≠ c) := by
  cases hc : c.remoteIsNode
  case true  =>
    simp only [dropOwner, setOwnersMap, hc, if_true] at h
    exact ⟨h, fun ht => Bool.noConfusion ht⟩
  case false =>
    simp only [dropOwner, setOwnersMap, ownersMap, hc, Bool.false_eq_true, if_false, AList.keys_erase] at h
    obtain ⟨hne, hm⟩ := (AList.keys_nodup _).mem_erase_iff.mp h
    exact ⟨hm, fun _ => hne⟩

theorem mem_dropOwner_nodes {b : Conn} (h : b ∈ (dropOwner c d).owningNodes.keys) :
    b ∈ d.owningNodes.keys ∧ (c.remoteIsNode = true → b ≠ c) := by
  cases hc : c.remoteIsNode
  case false =>
    simp only [dropOwner, setOwnersMap, hc, Bool.false_eq_true, if_false] at h
    exact ⟨h, fun ht => Bool.noConfusion ht⟩
  case true  =>
    simp only [dropOwner, setOwnersMap, ownersMap, hc, if_true, AList.keys_erase] at h
    obtain ⟨hne, hm⟩ := (AList.keys_nodup _).mem_erase_iff.mp h
    exact ⟨hm, fun _ => hne⟩

-- The connection `c` is still an owner of the terminal `tm`.
def Pending.owning (p : Pending) (tm : Id) (c : Conn) : Pending :=
  { p with owners := insert (tm, c) p.owners }

theorem Pending.le_owning : p.Le (p.owning tm c) :=
  ⟨Set.subset_insert _ _, subset_rfl, subset_rfl, subset_rfl, subset_rfl⟩

theorem mem_owning {b : Conn} {k : Bool}
    (h : b.remoteIsNode = k ∧ (b ∈ conns ∨ (i, b) ∈ (p.owning tm c).owners))
    (hb : (i, b) ≠ (tm, c)) : b.remoteIsNode = k ∧ (b ∈ conns ∨ (i, b) ∈ p.owners) :=
  ⟨h.1, h.2.imp_right fun hm => hm.resolve_left hb⟩

theorem TerminalOk.disown (h : TerminalOk conns found (p.owning tm c) e) (he : e.id ≠ tm) :
    TerminalOk conns found p e :=
  h.imp (fun _ => .imp_right fun hm => hm.resolve_left fun hp => he (Prod.ext_iff.mp hp).1) (fun _ => id) id id

theorem BindingOk.disown {d : Element NodeBindingInfo} (h : BindingOk conns found (p.owning tm c) d) :
    BindingOk conns found p d :=
  h.imp (fun _ => id) id

theorem TerminalOk.dropOwner_leafs (h : TerminalOk conns found (p.owning tm c) e) :
    ∀ b ∈ (dropOwner c e.data).owningLeafs.keys,
      b.remoteIsNode = false ∧ (b ∈ conns ∨ (e.id, b) ∈ p.owners) := by
  intro b hb
  obtain ⟨hm, hne⟩ := mem_dropOwner_leafs hb
  refine mem_owning (h.leafs b hm) fun hp => ?_
  have hbc : b = c := (Prod.ext_iff.mp hp).2
  exact hne (hbc ▸ (h.leafs b hm).1) hbc

theorem TerminalOk.dropOwner_nodes (h : TerminalOk conns found (p.owning tm c) e) :
    ∀ b ∈ (dropOwner c e.data).owningNodes.keys,
      b.remoteIsNode = true ∧ (b ∈ conns ∨ (e.id, b) ∈ p.owners) := by
  intro b hb
  obtain ⟨hm, hne⟩ := mem_dropOwner_nodes hb
  refine mem_owning (h.nodes b hm) fun hp => ?_
  have hbc : b = c := (Prod.ext_iff.mp hp).2
  exact hne (hbc ▸ (h.nodes b hm).1) hbc

-- Another owner is left.
theorem Consistent.dropOwner (h : n.Consistent (p.owning tm c)) (he : n.terminals.get? tm = some e)
    (hc : c ∈ ownersMap e.data c) (hu : ¬Unowned (Node.dropOwner c e.data)) :
    (n.modifyTerminal tm (Node.dropOwner c)).Consistent (p.opened tm) := by
  have hm : (n.modifyTerminal tm (Node.dropOwner c)).terminals.map = n.terminals.map := Register.map_modify
  refine ⟨h.leafs, h.nodes, fun i e' he' => ?_, hm ▸ h.bindings.mono fun _ hd => hd.disown.mono Pending.le_opened⟩
  simp only [Node.modifyTerminal, Register.get?_modify] at he'
  split at he'
  case isFalse hne => exact ((h.terminals i e' he').disown (Register.get?_id he' ▸ hne)).mono Pending.le_opened
  case isTrue hi   =>
    rw [hi, he, Option.map_some, Option.some.injEq] at he'
    subst he'
    have ho := h.get? he
    have hs : e.id ∈ (p.opened tm).states := .inl (Register.get?_id he)
    exact
      { leafs   := ho.dropOwner_leafs
        nodes   := ho.dropOwner_nodes
        users b := by
          rw [Element.modify_data, dropOwner_users]
          exact ho.users b
        hidden  := iff_of_false (fun hh => not_unowned hc (ho.hidden.mp hh)) hu
        state hn   := absurd hs hn
        inUse hn   := absurd hs hn
        binding := by
          rw [Element.modify_data, dropOwner_binding]
          exact ho.binding
        unbound := by
          rw [Element.modify_data, dropOwner_binding]
          exact ho.unbound }

-- A terminal that has lost its last owner and its binding
theorem TerminalOk.hide (h : TerminalOk conns found (p.owning tm c) e) (he : e.id = tm)
    (hu : Unowned (Node.dropOwner c e.data)) :
    TerminalOk conns found (p.opened tm)
      { e with hidden := true, data := { Node.dropOwner c e.data with binding := 0 } } where
  leafs      := h.dropOwner_leafs
  nodes      := h.dropOwner_nodes
  users b    := by
    rw [dropOwner_users]
    exact h.users b
  hidden     := iff_of_true rfl hu
  state hn   := absurd (.inl he) hn
  inUse hn   := absurd (.inl he) hn
  binding hh := Bool.noConfusion hh
  unbound _  := rfl

-- The node after a terminal has been hidden, and its binding has been told if there is one
theorem Consistent.hideTerminal {bindings : Register NodeBindingInfo} {terminals : Register NodeTerminalInfo}
    (h : n.Consistent (p.owning tm c)) (he : n.terminals.get? tm = some e)
    (hc : c ∈ ownersMap e.data c) (hu : Unowned (Node.dropOwner c e.data))
    (ht : ∀ i, terminals.get? i = if i = tm then
      some { e with hidden := true, data := { Node.dropOwner c e.data with binding := 0 } } else n.terminals.get? i)
    (htm : terminals.map = Function.update n.terminals.map e.identifier none)
    (hb : bindings = if e.data.binding = 0 then n.bindings else
      n.bindings.modify e.data.binding ({ · with terminal := 0 }))
    (hx : e.identifier ∉ p.pairs) :
    { n with terminals := terminals, bindings := bindings }.Consistent (p.opened tm) := by
  have ho := h.get? he
  have hh : e.hidden = false := Bool.eq_false_iff.mpr fun hh => not_unowned hc (ho.hidden.mp hh)
  have hbm : bindings.map = n.bindings.map := by
    rw [hb]
    split
    · rfl
    · exact Register.map_modify
  refine ⟨h.leafs, h.nodes, fun i e' he' => ?terminals, fun j d hd => ?bindings⟩
  case terminals =>
    rw [hbm]
    simp only [ht] at he'
    split at he'
    case isFalse hne => exact ((h.terminals i e' he').disown (Register.get?_id he' ▸ hne)).mono Pending.le_opened
    case isTrue      => exact Option.some.inj he' ▸ ho.hide (Register.get?_id he) hu
  case bindings =>
    have hbind := ho.binding hh hx
    -- the only binding with the identifier of the terminal is its binding
    have hj {d : Element NodeBindingInfo} (hd : n.bindings.get? j = some d) (hi : d.identifier = e.identifier) :
        e.data.binding = j := by
      rw [hbind, n.bindings.map_iff.mpr ⟨d, hd, hi, (h.bindings j d hd).visible⟩, Option.getD_some]
    have hne {d : Element NodeBindingInfo} (hd : n.bindings.get? j = some d) (hi : d.identifier ≠ e.identifier) :
        BindingOk n.connections terminals.map (p.opened tm) d := by
      have hdo : BindingOk _ _ (p.opened tm) d := (h.bindings j d hd).disown.mono Pending.le_opened
      refine { leafs := hdo.leafs, owned := hdo.owned, visible := hdo.visible, terminal := ?_ }
      rw [htm, Function.update_of_ne hi]
      exact hdo.terminal
    rw [hb] at hd
    split at hd
    case isTrue h₀  =>
      exact hne hd fun hi => Register.get?_ne_zero hd (h₀ ▸ hj hd hi).symm
    case isFalse h₀ =>
      rw [Register.get?_modify] at hd
      split at hd
      case isFalse hn => exact hne hd fun hi => hn (hj hd hi).symm
      case isTrue hn  =>
        obtain ⟨d₀, hd₀, rfl⟩ := Option.map_eq_some_iff.mp hd
        have hdo : BindingOk _ _ (p.opened tm) d₀ := (h.bindings j d₀ hd₀).disown.mono Pending.le_opened
        refine { leafs := hdo.leafs, owned := hdo.owned, visible := hdo.visible, terminal := fun _ => ?_ }
        have hm : n.bindings.map e.identifier = some j := by
          cases hm : n.bindings.map e.identifier
          case none   => exact absurd (by rw [hbind, hm, Option.getD_none]) h₀
          case some k => rw [hn, hbind, hm, Option.getD_some]
        obtain ⟨d₁, hd₁, hx₁, _⟩ := n.bindings.map_iff.mp hm
        cases hd₀.symm.trans hd₁
        rw [Element.modify_identifier, hx₁, htm, Function.update_self]
        rfl

theorem dropOwner_state : (dropOwner c d).state = d.state := by
  simp only [dropOwner, setOwnersMap]
  split <;> rfl

theorem Consistent.disassociateTerminal_of_hidden (h : n.Consistent p) (he : n.terminals.get? tm = some e)
    (hh : e.hidden = true) : n.disassociateTerminal tm = .ok n := by
  simp only [disassociateTerminal, he, deref, Except.ok_bind, (h.get? he).unbound hh, ne_eq, not_true, if_false]
  rfl

-- The last owner of a terminal is removed.
theorem Consistent.disassociateTerminal (h : n.Consistent (p.owning tm c)) (he : n.terminals.get? tm = some e)
    (hc : c ∈ ownersMap e.data c) (hu : Unowned (Node.dropOwner c e.data)) (hx : e.identifier ∉ p.pairs) :
    (Node.disassociateTerminal
      { n with terminals := (n.terminals.modify tm (Node.dropOwner c)).hide tm } tm).Returns
      fun m => m.Consistent (p.opened tm) := by
  have ho := h.get? he
  have hh : e.hidden = false := Bool.eq_false_iff.mpr fun hh => not_unowned hc (ho.hidden.mp hh)
  have hg : (n.terminals.modify tm (Node.dropOwner c)).get? tm = some (e.modify (Node.dropOwner c)) := by
    rw [Register.get?_modify, if_pos rfl, he, Option.map_some]
  have hm := Register.map_hide hg hh
  rw [Register.map_modify] at hm
  have hg' (i : Id) : ((n.terminals.modify tm (Node.dropOwner c)).hide tm).get? i = if i = tm then
      some { e with hidden := true, data := Node.dropOwner c e.data } else n.terminals.get? i := by
    rw [Register.get?_hide]
    split
    case isTrue hi   =>
      rw [hi, hg]
      rfl
    case isFalse hne => rw [Register.get?_modify, if_neg hne]
  refine deref_returns.bind fun e' he' => ?_
  rw [hg', if_pos rfl, Option.some.injEq] at he'
  subst he'
  simp only [dropOwner_binding]
  refine .ite (fun h₀ => at!_returns.bind fun d hd => .pure ?_) fun h₀ => .pure ?_
  case refine_1 =>
    have hi : d.id = e.data.binding := Register.get?_id hd
    refine h.hideTerminal he hc hu (fun i => ?_) (Register.map_modify.trans hm) ?_ hx
    · simp only [Node.modifyBinding, Register.get?_modify, hg']
      split <;> rfl
    · rw [if_neg h₀, ← hi]
      rfl
  case refine_2 =>
    have h₀' : e.data.binding = 0 := not_not.mp h₀
    refine h.hideTerminal he hc hu (fun i => ?_) hm (if_pos h₀').symm hx
    rw [hg', ← h₀', ← dropOwner_binding (d := e.data) (c := c)]

theorem Consistent.terminalOwnerRemoved (h : n.Consistent (p.owning tm c)) (he : n.terminals.get? tm = some e)
    (hc : c ∈ ownersMap e.data c) (ht : tm ∉ p.states) (hx : p.pairs = ∅) :
    ((n.modifyTerminal tm (Node.dropOwner c)).terminalOwnerRemoved tm c).Returns fun s => s.1.Consistent p := by
  have hi := Register.get?_id he
  have hs : e.data.state = stateOf e.data := (h.get? he).state (hi ▸ ht)
  have hp : e.identifier ∉ p.pairs := hx ▸ Set.notMem_empty _
  refine deref_returns.bind fun e' he' => ?_
  extract_lets bindingId next
  have hnext (s : Node × List Effect) (hs : s.1.Consistent (p.opened tm)) :
      (next s).Returns fun s => s.1.Consistent p := by
    refine hs.updateState.bind fun u h₂ => ?_
    obtain ⟨n₂, known, alive⟩ := u
    replace h₂ := h₂.1
    refine .ite (fun _ => .ite (fun _ => .pure h₂) fun _ => .bind' fun bd => .pure h₂) fun _ => ?_
    refine deref_returns.bind fun e₂ he₂ => ?_
    have ho := h₂.get? he₂
    have ht₂ : e₂.id ∉ p.states := Register.get?_id he₂ ▸ ht
    extract_lets last
    refine .ite (fun hs => h₂.updateLastOwningNode.bind fun t h₃ => .bind' fun _ => ?_) fun _ => ?_
    case refine_1 =>
      have hh : e₂.hidden ≠ true := fun hh => by
        rw [ho.state ht₂, stateOf_eq_awaitAcks_iff.mpr (ho.hidden.mp hh)] at hs
        cases hs
      exact .ite (fun hh' => absurd hh' hh) fun _ => .pure h₃
    case refine_2 =>
      refine (Returns.pure (P := (· = (n₂, []))) rfl).bind fun t h₃ => .bind' fun _ => ?_
      subst h₃
      refine .ite (fun hh => ?_) fun _ => .pure h₂
      rw [h₂.disassociateTerminal_of_hidden he₂ hh]
      exact .pure h₂
  have hst : e'.data.state = e.data.state := by
    simp only [Node.modifyTerminal, Register.get?_modify, he, if_true, Option.map_some, Option.some.injEq] at he'
    rw [← he', Element.modify_data, dropOwner_state]
  rw [hst, hs]
  have hu := unowned_dropOwner_iff hc
  have hlast (hu : Unowned (Node.dropOwner c e.data)) : Returns (Node.disassociateTerminal
      { n with terminals := (n.terminals.modify tm (Node.dropOwner c)).hide tm } tm >>= fun m =>
      m.updateUsersForAbandonedTerminal tm c >>= next) fun s => s.1.Consistent p := by
    refine (h.disassociateTerminal he hc hu hp).bind fun m hm => ?_
    exact (hm.updateUsersForAbandonedTerminal (.inl rfl)).bind hnext
  have hmore (hu : ¬Unowned (Node.dropOwner c e.data)) :
      Returns ((pure (n.modifyTerminal tm (Node.dropOwner c), []) : Result) >>= next) fun s => s.1.Consistent p :=
    (Returns.pure (P := fun s : Node × List Effect => s.1.Consistent (p.opened tm))
      (h.dropOwner he hc hu)).bind hnext
  split
  case h_1 hs => exact hlast (hu.mpr (.inl hs))
  case h_2 hs => exact hlast (hu.mpr (.inr hs))
  case h_3 hs => exact hmore (by rw [hu, hs]; simp)
  case h_4 hs => exact hmore (by rw [hu, hs]; simp)
  case h_5 hs => exact hmore (by rw [hu, hs]; simp)
  case h_6    => exact .error
  case h_7    => exact .error

theorem keys_insert_perm {m : FsmMap} (h : c ∈ m) : (m.insert c f).keys.Perm m.keys := by
  rw [AList.keys_insert]
  exact (List.perm_cons_erase h).symm

-- What replaces an owner by another state of the same owner
theorem TerminalOk.insertOwner (h : TerminalOk conns found p e) (hc : c ∈ ownersMap e.data c) :
    TerminalOk conns found p (e.modify fun d => setOwnersMap d c ((ownersMap d c).insert c f)) := by
  have replaced {d : NodeTerminalInfo} (hl : d.owningLeafs.keys.Perm e.data.owningLeafs.keys)
      (hn : d.owningNodes.keys.Perm e.data.owningNodes.keys) (hu : d.usingNodes = e.data.usingNodes)
      (hb : d.binding = e.data.binding) (hs : d.state = e.data.state) :
      TerminalOk conns found p { e with data := d } := by
    have ho : Unowned d ↔ Unowned e.data := by
      rw [← stateOf_eq_awaitAcks_iff, stateOf_congr hl.length_eq hn.length_eq, stateOf_eq_awaitAcks_iff]
    exact
      { leafs b hm := h.leafs b (hl.mem_iff.mp hm)
        nodes b hm := h.nodes b (hn.mem_iff.mp hm)
        users      := hu ▸ h.users
        hidden     := h.hidden.trans ho.symm
        state m    := (hs.trans (h.state m)).trans (stateOf_congr hl.length_eq hn.length_eq).symm
        inUse m    := by
          rw [ho, hu]
          exact h.inUse m
        binding    := hb ▸ h.binding
        unbound    := hb ▸ h.unbound }
  cases hn : c.remoteIsNode
  case true  =>
    simp only [ownersMap, hn, if_true] at hc
    simp only [Element.modify, setOwnersMap, ownersMap, hn, if_true]
    exact replaced (.refl _) (keys_insert_perm hc) rfl rfl rfl
  case false =>
    simp only [ownersMap, hn, Bool.false_eq_true, if_false] at hc
    simp only [Element.modify, setOwnersMap, ownersMap, hn, Bool.false_eq_true, if_false]
    exact replaced (keys_insert_perm hc) (.refl _) rfl rfl rfl

theorem TerminalOk.disown_of_not_mem (h : TerminalOk conns found (p.owning tm c) e)
    (hc : c ∉ ownersMap e.data c) : TerminalOk conns found p e where
  leafs b hb := mem_owning (h.leafs b hb) fun hp => by
    have hbc : b = c := (Prod.ext_iff.mp hp).2
    rw [ownersMap, ← hbc, (h.leafs b hb).1] at hc
    exact hc hb
  nodes b hb := mem_owning (h.nodes b hb) fun hp => by
    have hbc : b = c := (Prod.ext_iff.mp hp).2
    rw [ownersMap, ← hbc, (h.nodes b hb).1] at hc
    exact hc hb
  users      := h.users
  hidden     := h.hidden
  state      := h.state
  inUse      := h.inUse
  binding    := h.binding
  unbound    := h.unbound

theorem Consistent.disown (h : n.Consistent (p.owning tm c))
    (hc : ∀ e, n.terminals.get? tm = some e → c ∉ ownersMap e.data c) : n.Consistent p where
  leafs     := h.leafs
  nodes     := h.nodes
  bindings  := h.bindings.mono fun _ hd => hd.disown
  terminals := by
    intro i e he
    by_cases hi : i = tm
    case neg => exact (h.terminals i e he).disown (Register.get?_id he ▸ hi)
    case pos => exact (h.terminals i e he).disown_of_not_mem (hc e (hi ▸ he))

theorem Consistent.removeTerminalOwner {broken : Bool} (h : n.Consistent (p.owning tm c))
    (hb : broken = false → n.Consistent p) (ht : tm ∉ p.states) (hx : p.pairs = ∅) :
    (n.removeTerminalOwner tm c broken).Returns fun s => s.1.Consistent p := by
  refine deref_returns.bind fun e he => ?_
  split
  case h_1 hl =>
    refine .ite (fun _ => .pure (h.disown fun e' he' => ?_)) fun _ => .error
    cases he.symm.trans he'
    exact AList.lookup_eq_none.mp hl
  case h_2 f hl =>
    have hc : c ∈ ownersMap e.data c := mem_keys_of_lookup hl
    refine .ite (fun _ => h.terminalOwnerRemoved he hc ht hx) fun hbr => .bind' fun out => ?_
    refine .ite (fun _ => .pure ?_) fun _ => (h.terminalOwnerRemoved he hc ht hx).bind fun r hr => .pure hr
    refine (hb (Bool.eq_false_iff.mpr hbr)).modifyTerminal fun e' he' ho => ?_
    cases he.symm.trans he'
    exact ho.insertOwner hc

end Yogi.Node
