import YogiModel.Core.NodeConsistency

-- The bindings of a node
namespace Yogi.Node

open Except (Returns)

variable {n n' : Node} {tm bd i : Id} {c : Conn} {es es' : List Effect} {x : Identifier} {p q : Pending}
variable {d d' : NodeTerminalInfo} {e : Element NodeTerminalInfo} {f : Fsm}
variable {conns : List Conn} {found : Identifier → Option Id}

-- The node after a binding has been erased, and its terminal has been told if there is one
theorem Consistent.eraseBinding {d : Element NodeBindingInfo} {terminals : Register NodeTerminalInfo}
    {bindings : Register NodeBindingInfo} (h : n.Consistent p) (hd : n.bindings.get? bd = some d)
    (hx : d.identifier ∉ p.pairs)
    (hb : ∀ j, bindings.get? j = if j = bd then none else n.bindings.get? j)
    (hbm : bindings.map = Function.update n.bindings.map d.identifier none)
    (ht : terminals = if d.data.terminal = 0 then n.terminals else
      n.terminals.modify d.data.terminal ({ · with binding := 0 })) :
    { n with terminals := terminals, bindings := bindings }.Consistent p := by
  have ho := h.bindings bd d hd
  have htm : terminals.map = n.terminals.map := by
    rw [ht]
    split
    · rfl
    · exact Register.map_modify
  refine ⟨h.leafs, h.nodes, fun i e he => ?terminals, fun j d' hd' => ?bindings⟩
  case bindings =>
    simp only [hb] at hd'
    rw [htm]
    split at hd'
    case isTrue  => cases hd'
    case isFalse => exact h.bindings j d' hd'
  case terminals =>
    have hbind := ho.terminal hx
    -- the only visible terminal with the identifier of the binding is its terminal
    have hi {e : Element NodeTerminalInfo} (he : n.terminals.get? i = some e) (hh : e.hidden = false)
        (hi : e.identifier = d.identifier) : d.data.terminal = i := by
      rw [hbind, n.terminals.map_iff.mpr ⟨e, he, hi, hh⟩, Option.getD_some]
    have hne {e : Element NodeTerminalInfo} (he : n.terminals.get? i = some e)
        (hi : e.hidden = false → e.identifier ≠ d.identifier) :
        TerminalOk n.connections bindings.map p e := by
      have he := h.terminals i e he
      refine { he with binding := fun hh hm => ?_ }
      rw [hbm, Function.update_of_ne (hi hh)]
      exact he.binding hh hm
    rw [ht] at he
    split at he
    case isTrue h₀  => exact hne he fun hh hid => Register.get?_ne_zero he (h₀ ▸ hi he hh hid).symm
    case isFalse h₀ =>
      rw [Register.get?_modify] at he
      split at he
      case isFalse hn => exact hne he fun hh hid => hn (hi he hh hid).symm
      case isTrue hn  =>
        obtain ⟨e₀, he₀, rfl⟩ := Option.map_eq_some_iff.mp he
        have heo := h.terminals i e₀ he₀
        have hm : n.terminals.map d.identifier = some i := by
          cases hm : n.terminals.map d.identifier
          case none   => exact absurd (by rw [hbind, hm, Option.getD_none]) h₀
          case some k => rw [hn, hbind, hm, Option.getD_some]
        obtain ⟨e₁, he₁, hx₁, hh₁⟩ := n.terminals.map_iff.mp hm
        cases he₀.symm.trans he₁
        exact
          { leafs := heo.leafs, nodes := heo.nodes, users := heo.users, hidden := heo.hidden, state := heo.state,
            inUse := heo.inUse
            binding := fun _ _ => by
              rw [Element.modify_identifier, hx₁, hbm, Function.update_self]
              rfl
            unbound := fun _ => rfl }

-- The last owner of a binding is removed.
theorem Consistent.disassociateBinding {d : Element NodeBindingInfo} {g : NodeBindingInfo → NodeBindingInfo}
    (h : n.Consistent p) (hd : n.bindings.get? bd = some d) (hx : d.identifier ∉ p.pairs)
    (hg : ∀ d, (g d).terminal = d.terminal) :
    ((n.modifyBinding bd g).disassociateBinding bd).Returns fun m =>
      { m with bindings := m.bindings.erase bd }.Consistent p := by
  have hv : d.hidden = false := (h.bindings bd d hd).visible
  refine deref_returns.bind fun d' hd' => ?_
  simp only [Node.modifyBinding, Register.get?_modify, hd, if_true, Option.map_some, Option.some.injEq] at hd'
  subst hd'
  simp only [Element.modify_data, hg]
  refine .ite (fun h₀ => at!_returns.bind fun e he => .pure ?_) fun h₀ => .pure ?_
  case refine_1 =>
    have hi : e.id = d.data.terminal := Register.get?_id he
    refine h.eraseBinding hd hx (fun j => ?_) ?_ ?_
    · simp only [Node.modifyTerminal, Node.modifyBinding, Register.get?_erase, Register.get?_modify]
      split <;> rfl
    · have hg' : ((n.bindings.modify bd g).modify bd fun d => { d with terminal := 0 }).get? bd =
          some ((d.modify g).modify fun d => { d with terminal := 0 }) := by
        simp only [Register.get?_modify, hd, if_true, Option.map_some]
      rw [Register.map_erase]
      exact (Register.map_hide hg' hv).trans (by rw [Register.map_modify, Register.map_modify]; rfl)
    · rw [if_neg h₀, ← hi]
      rfl
  case refine_2 =>
    refine h.eraseBinding hd hx (fun j => ?_) ?_ (if_pos (not_not.mp h₀)).symm
    · simp only [Node.modifyBinding, Register.get?_erase, Register.get?_modify]
      split <;> rfl
    · have hg' : (n.bindings.modify bd g).get? bd = some (d.modify g) := by
        simp only [Register.get?_modify, hd, if_true, Option.map_some]
      rw [Register.map_erase]
      exact (Register.map_hide hg' hv).trans (by rw [Register.map_modify]; rfl)

-- The terminal and the binding with the identifier `x` are not associated yet.
def Pending.pairing (p : Pending) (x : Identifier) : Pending :=
  { p with pairs := insert x p.pairs }

theorem Consistent.pair (h : n.Consistent (p.pairing x))
    (ht : ∀ i e, n.terminals.get? i = some e → e.hidden = false → e.identifier = x →
      e.data.binding = (n.bindings.map x).getD 0)
    (hb : ∀ j d, n.bindings.get? j = some d → d.identifier = x → d.data.terminal = (n.terminals.map x).getD 0) :
    n.Consistent p where
  leafs     := h.leafs
  nodes     := h.nodes
  terminals := by
    intro i e he
    have ho := h.terminals i e he
    refine { ho with binding := fun hh hm => ?_ }
    by_cases hx : e.identifier = x
    case pos => exact hx ▸ ht i e he hh hx
    case neg => exact ho.binding hh fun hp => hm (hp.resolve_left hx)
  bindings  := by
    intro j d hd
    have ho := h.bindings j d hd
    refine { ho with terminal := fun hm => ?_ }
    by_cases hx : d.identifier = x
    case pos => exact hx ▸ hb j d hd hx
    case neg => exact ho.terminal fun hp => hm (hp.resolve_left hx)

theorem Consistent.associate {d : Element NodeBindingInfo} (h : n.Consistent (p.pairing x))
    (he : n.terminals.get? tm = some e) (hh : e.hidden = false) (hxe : e.identifier = x)
    (hd : n.bindings.get? bd = some d) (hxd : d.identifier = x) :
    ((n.modifyBinding bd ({ · with terminal := tm })).modifyTerminal tm ({ · with binding := bd })).Consistent p := by
  have hv : d.hidden = false := (h.bindings bd d hd).visible
  have hmb : n.bindings.map x = some bd := n.bindings.map_iff.mpr ⟨d, hd, hxd, hv⟩
  have hmt : n.terminals.map x = some tm := n.terminals.map_iff.mpr ⟨e, he, hxe, hh⟩
  have hd' : (n.modifyBinding bd ({ · with terminal := tm })).Consistent (p.pairing x) := by
    refine h.modifyBinding fun d' hd' ho => { ho with terminal := fun hm => absurd (.inl ?_) hm }
    cases hd.symm.trans hd'
    exact hxd
  have he' : (Node.modifyTerminal (n.modifyBinding bd ({ · with terminal := tm })) tm
      ({ · with binding := bd })).Consistent (p.pairing x) := by
    refine hd'.modifyTerminal fun e' he' ho => ?_
    cases he.symm.trans he'
    exact
      { ho with
        binding := fun _ hm => absurd (.inl hxe) hm
        unbound := fun ht => Bool.noConfusion (hh.symm.trans ht) }
  refine he'.pair (fun i e₁ he₁ hh₁ hx₁ => ?_) fun j d₁ hd₁ hx₁ => ?_
  case refine_1 =>
    simp only [Node.modifyTerminal, Node.modifyBinding, Register.get?_modify, Register.map_modify, hmb] at he₁ ⊢
    split at he₁
    case isTrue hi  =>
      obtain ⟨_, _, rfl⟩ := Option.map_eq_some_iff.mp he₁
      rfl
    case isFalse hi => exact absurd (Register.visible_unique he₁ he (hx₁.trans hxe.symm) hh₁ hh) hi
  case refine_2 =>
    simp only [Node.modifyTerminal, Node.modifyBinding, Register.get?_modify, Register.map_modify, hmt] at hd₁ ⊢
    split at hd₁
    case isTrue hj  =>
      obtain ⟨_, _, rfl⟩ := Option.map_eq_some_iff.mp hd₁
      rfl
    case isFalse hj =>
      exact absurd (Register.visible_unique hd₁ hd (hx₁.trans hxd.symm) (h.bindings j d₁ hd₁).visible hv) hj

theorem Consistent.associateTerminal (h : n.Consistent (p.pairing x)) (he : n.terminals.get? tm = some e)
    (hh : e.hidden = false) (hx : e.identifier = x) (h₀ : e.data.binding ≠ 0 → n.Consistent p) :
    (n.associateTerminal tm).Returns fun s => s.1.Consistent p := by
  refine deref_returns.bind fun e' he' => ?_
  cases he.symm.trans he'
  refine .ite (fun hb => ?_) fun hb => ?_
  case refine_1 =>
    split
    · exact .error
    · exact .bind' fun _ => .pure (h₀ hb)
  case refine_2 =>
    rw [hx]
    split
    case h_1 hf   =>
      refine .pure (h.pair (fun i e₁ he₁ hh₁ hx₁ => ?_) fun j d hd hxd => ?_)
      · have hi := Register.visible_unique he₁ he (hx₁.trans hx.symm) hh₁ hh
        cases he.symm.trans (hi ▸ he₁)
        rw [Register.map_eq_none hf, not_not.mp hb]
        rfl
      · have hhd := Register.find?_eq_none_iff.mp hf j d hd hxd
        rw [(h.bindings j d hd).visible] at hhd
        cases hhd
    case h_2 d hf =>
      obtain ⟨hd, hxd, _⟩ := Register.find?_eq_some_iff.mp hf
      exact .pure (h.associate he hh hx hd hxd)

theorem Consistent.associateBinding {d : Element NodeBindingInfo} (h : n.Consistent (p.pairing x))
    (hd : n.bindings.get? bd = some d) (hx : d.identifier = x) (h₀ : d.data.terminal ≠ 0 → n.Consistent p) :
    (n.associateBinding bd).Returns fun s => s.1.Consistent p := by
  have hv : d.hidden = false := (h.bindings bd d hd).visible
  refine deref_returns.bind fun d' hd' => ?_
  cases hd.symm.trans hd'
  refine .ite (fun hb => ?_) fun hb => ?_
  case refine_1 =>
    split
    · exact .error
    · exact .bind' fun _ => .pure (h₀ hb)
  case refine_2 =>
    rw [hx]
    split
    case h_1 hf   =>
      refine .pure (h.pair (fun i e he hh hxe => ?_) fun j d₁ hd₁ hx₁ => ?_)
      · have hhe := Register.find?_eq_none_iff.mp hf i e he hxe
        rw [hh] at hhe
        cases hhe
      · have hj := Register.visible_unique hd₁ hd (hx₁.trans hx.symm) (h.bindings j d₁ hd₁).visible hv
        cases hd.symm.trans (hj ▸ hd₁)
        rw [Register.map_eq_none hf, not_not.mp hb]
        rfl
    case h_2 e hf =>
      obtain ⟨he, hxe, hh⟩ := Register.find?_eq_some_iff.mp hf
      exact .pure (h.associate he hh hxe hd hx)

theorem BindingOk.insertOwner {d : Element NodeBindingInfo} (h : BindingOk conns found p d)
    (hn : c.remoteIsNode = false) (hc : c ∈ conns ∨ (d.id, c) ∈ p.bindings) :
    BindingOk conns found p (d.modify fun d => { d with owningLeafs := d.owningLeafs.insert c f }) where
  leafs b hb := by
    rw [Element.modify_data, AList.keys_insert, List.mem_cons] at hb
    rcases hb with rfl | hb
    · exact ⟨hn, hc⟩
    · exact h.leafs b (List.mem_of_mem_erase hb)
  owned hk := by
    rw [Element.modify_data, AList.keys_insert] at hk
    exact List.cons_ne_nil _ _ hk
  visible  := h.visible
  terminal := h.terminal

-- An owner is removed that may not belong to a connection any more.
theorem BindingOk.eraseOwner {d : Element NodeBindingInfo} (h : BindingOk conns found p d)
    (hq : ∀ b, b ≠ c → (d.id, b) ∈ p.bindings → (d.id, b) ∈ q.bindings) (hp : p.pairs ⊆ q.pairs)
    (hk : (d.data.owningLeafs.erase c).keys ≠ []) :
    BindingOk conns found q (d.modify fun d => { d with owningLeafs := d.owningLeafs.erase c }) where
  leafs b hb := by
    rw [Element.modify_data, AList.keys_erase] at hb
    obtain ⟨hne, hm⟩ := (AList.keys_nodup _).mem_erase_iff.mp hb
    exact ⟨(h.leafs b hm).1, (h.leafs b hm).2.imp_right (hq b hne)⟩
  owned      := hk
  visible    := h.visible
  terminal m := h.terminal fun hm => m (hp hm)

theorem Consistent.insertBinding (h : n.Consistent p) (hn : c.remoteIsNode = false) (hc : c ∈ n.connections)
    (hf : n.bindings.find? x = none) :
    (Node.modifyBinding { n with bindings := (n.bindings.insert x {}).1 } (n.bindings.insert x {}).2.1
      fun d => { d with owningLeafs := d.owningLeafs.insert c f }).Consistent (p.pairing x) := by
  obtain ⟨_, _, hnew, hg⟩ := Register.insert_of_find?_none (d := ({} : NodeBindingInfo)) hf
  have hm := Register.map_insert_none (d := ({} : NodeBindingInfo)) hf
  generalize n.bindings.insert x {} = inserted at hnew hg hm
  obtain ⟨bs, bd, _⟩ := inserted
  refine ⟨h.leafs, h.nodes, fun i e he => ?_, fun j d hd => ?_⟩
  case refine_1 =>
    have ho := h.terminals i e he
    refine { ho with binding := fun hh hx => ?_, state := ho.state, inUse := ho.inUse }
    have hm' : bs.map = Function.update n.bindings.map x (some bd) := hm
    simp only [Node.modifyBinding, Register.map_modify]
    rw [hm', Function.update_of_ne fun hx' => hx (.inl hx')]
    exact ho.binding hh fun hp => hx (.inr hp)
  case refine_2 =>
    simp only [Node.modifyBinding, Register.get?_modify, hg] at hd
    split at hd
    case isFalse => exact (h.bindings j d hd).imp (fun _ => id) fun hp => .inr hp
    case isTrue  =>
      rw [Option.map_some, Option.some.injEq] at hd
      subst hd
      refine { leafs := fun b hb => ?_, owned := fun hk => ?_, visible := rfl,
               terminal := fun hp => absurd (.inl rfl) hp }
      · rw [Element.modify_data, AList.keys_insert, List.mem_cons] at hb
        cases hb.resolve_right (by simp)
        exact ⟨hn, .inl hc⟩
      · rw [Element.modify_data, AList.keys_insert] at hk
        exact List.cons_ne_nil _ _ hk

-- An insertion changes nothing if there already is an element.
theorem Consistent.insertBinding_some {d : Element NodeBindingInfo} (h : n.Consistent p)
    (hf : n.bindings.find? x = some d) : { n with bindings := (n.bindings.insert x {}).1 }.Consistent p where
  leafs     := h.leafs
  nodes     := h.nodes
  terminals := by
    rw [Register.map_insert_some hf]
    exact h.terminals
  bindings  := fun j d' hd' => h.bindings j d' ((Register.insert_of_find?_some hf).2 j ▸ hd')

theorem Consistent.insertTerminal_some (h : n.Consistent p) (hf : n.terminals.find? x = some e) :
    { n with terminals := (n.terminals.insert x {}).1 }.Consistent p where
  leafs     := h.leafs
  nodes     := h.nodes
  terminals := fun i e' he' => h.terminals i e' ((Register.insert_of_find?_some hf).2 i ▸ he')
  bindings  := by
    rw [Register.map_insert_some hf]
    exact h.bindings

theorem assert_returns {b : Bool} : (assert b).Returns fun _ => b = true := by
  cases b
  case true  => exact .ok rfl
  case false => exact .error

-- The first description from a connection does not replace a mapping.
theorem oldMappedId_of_new {out : Fsm.Outcome} (h : Fsm.processRcvdDescription {} i = .ok out) :
    oldMappedId out.calls = 0 := by
  cases h
  rfl

theorem Pending.le_pairing : p.Le (p.pairing x) :=
  ⟨subset_rfl, subset_rfl, subset_rfl, subset_rfl, Set.subset_insert _ _⟩

theorem Consistent.onBindingDescription (h : n.Consistent p) (hc : c ∈ n.connections) :
    (n.onBindingDescription x i c).Returns fun s => s.1.Consistent p := by
  refine assert_returns.bind fun _ hn => ?_
  have hn' : c.remoteIsNode = false := by simpa using hn
  have hid {d} := Register.insert_identifier (r := n.bindings) (x := x) (d := {}) (e := d)
  -- there is either a new binding or there was one already
  have hins : (∀ f, (Node.modifyBinding { n with bindings := (n.bindings.insert x {}).1 } (n.bindings.insert x {}).2.1
        fun d => { d with owningLeafs := d.owningLeafs.insert c f }).Consistent p) ∨
      (∀ f, (Node.modifyBinding { n with bindings := (n.bindings.insert x {}).1 } (n.bindings.insert x {}).2.1
        fun d => { d with owningLeafs := d.owningLeafs.insert c f }).Consistent (p.pairing x)) ∧
      ∀ d, (n.bindings.insert x {}).1.get? (n.bindings.insert x {}).2.1 = some d → d.data = {} := by
    cases hf : n.bindings.find? x
    case some d =>
      refine .inl fun f => (h.insertBinding_some hf).modifyBinding fun d' hd' ho => ?_
      exact ho.insertOwner hn' (.inl hc)
    case none   =>
      refine .inr ⟨fun f => h.insertBinding hn' hc hf, fun d hd => ?_⟩
      rw [(Register.insert_of_find?_none hf).2.2.2, if_pos rfl, Option.some.injEq] at hd
      exact hd ▸ rfl
  generalize n.bindings.insert x {} = inserted at *
  obtain ⟨bs, bd, _⟩ := inserted
  refine deref_returns.bind fun d hd => Returns.bind (fun _ => id) fun out hout => ?_
  have hd₂ : (Node.modifyBinding { n with bindings := bs } bd fun d =>
      { d with owningLeafs := d.owningLeafs.insert c out.fsm }).bindings.get? bd =
      some (d.modify fun d => { d with owningLeafs := d.owningLeafs.insert c out.fsm }) := by
    have hd' : bs.get? bd = some d := hd
    simp only [Node.modifyBinding, Register.get?_modify, if_true, hd', Option.map_some]
  have hx : d.identifier = x := hid (d := d) hd
  have key : (oldMappedId out.calls ≠ 0 → (Node.modifyBinding { n with bindings := bs } bd fun d =>
        { d with owningLeafs := d.owningLeafs.insert c out.fsm }).Consistent p) ∧
      ((Node.modifyBinding { n with bindings := bs } bd fun d =>
        { d with owningLeafs := d.owningLeafs.insert c out.fsm }).associateBinding bd).Returns
        fun s => s.1.Consistent p := by
    rcases hins with hins | ⟨hins, hnew⟩
    case inl =>
      have h₂ := hins out.fsm
      exact ⟨fun _ => h₂, (h₂.mono Pending.le_pairing).associateBinding hd₂ hx fun _ => h₂⟩
    case inr =>
      have hdata := hnew d hd
      rw [hdata] at hout
      refine ⟨fun ho => absurd (oldMappedId_of_new hout) ho, ?_⟩
      refine (hins _).associateBinding hd₂ hx fun ht => absurd ?_ ht
      rw [Element.modify_data, hdata]
  refine .ite (fun ho => .pure (key.1 ho)) fun _ => key.2.bind fun s hs => ?_
  obtain ⟨n₁, tm⟩ := s
  cases tm
  case none    => exact .pure hs
  case some tm => exact .bind' fun e => .ite (fun _ => .pure hs) fun _ => .pure hs

theorem Consistent.onBindingRemoved (h : n.Consistent p) (hp : p.pairs = ∅) :
    (n.onBindingRemoved bd c).Returns fun s => s.1.Consistent p := by
  refine .bind' fun _ => deref_returns.bind fun d hd => deref_returns.bind fun f hf => .bind' fun out => ?_
  have hc := (h.bindings bd d hd).leafs c (mem_keys_of_lookup hf)
  refine .ite (fun _ => .pure ?_) fun _ => .ite (fun hk => ?_) fun hk => .pure ?_
  case refine_1 =>
    refine h.modifyBinding fun d' hd' ho => ?_
    cases hd.symm.trans hd'
    exact ho.insertOwner hc.1 hc.2
  case refine_2 =>
    refine (h.disassociateBinding hd (hp ▸ Set.notMem_empty _) fun _ => ?_).bind fun m hm => .pure hm
    rfl
  case refine_3 =>
    refine h.modifyBinding fun d' hd' ho => ?_
    cases hd.symm.trans hd'
    exact ho.eraseOwner (fun _ _ => id) subset_rfl hk

end Yogi.Node
