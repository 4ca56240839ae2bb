import YogiModel.Core.NodeStart
import YogiModel.Core.NodeUsers

-- Connections can always be started and destroyed.
namespace Yogi.Node

open Except (Returns Succeeds)

variable {n n' : Node} {tm bd i : Id} {c b : Conn} {es es' : List Effect} {x : Identifier} {p : Pending}
variable {d d' : NodeTerminalInfo} {e : Element NodeTerminalInfo} {f : Fsm} {out : Fsm.Outcome}
variable {nodes : List Conn} {who who' : Id → Conn → Prop}

theorem deref_succeeds {α : Type} {o : Option α} {a : α} (h : o = some a) : (deref o).Succeeds (· = a) :=
  ⟨a, by rw [h]; rfl, rfl⟩

theorem at!_succeeds {α : Type} {r : Register α} {e : Element α} (h : r.get? i = some e) :
    (at! r i).Succeeds (· = e) :=
  ⟨e, by simp only [at!, h], rfl⟩

theorem stateOf_eq_owners1Leafs0Nodes :
    stateOf d = .owners1Leafs0Nodes ↔ (∃ c, d.owningLeafs.keys = [c]) ∧ d.owningNodes.keys = [] := by
  simp only [stateOf]
  generalize d.owningLeafs.keys = a, d.owningNodes.keys = b
  rcases a with _ | ⟨_, _ | ⟨_, _⟩⟩ <;> rcases b with _ | ⟨_, _ | ⟨_, _⟩⟩ <;> simp

-- No other terminal is changed and no binding is removed.
structure Only (tm : Id) (n n' : Node) : Prop where
  terminals : ∀ i, i ≠ tm → n'.terminals.get? i = n.terminals.get? i
  bindings  : ∀ i, (n.bindings.get? i).isSome → (n'.bindings.get? i).isSome

theorem Only.refl : n.Only tm n :=
  ⟨fun _ _ => rfl, fun _ => id⟩

theorem Only.trans {m : Node} (h : n.Only tm m) (h' : m.Only tm n') : n.Only tm n' :=
  ⟨fun i hi => (h'.terminals i hi).trans (h.terminals i hi), fun i hi => h'.bindings i (h.bindings i hi)⟩

theorem only_modifyTerminal {g : NodeTerminalInfo → NodeTerminalInfo} : n.Only tm (n.modifyTerminal tm g) :=
  ⟨fun _ hi => by simp only [modifyTerminal, Register.get?_modify, if_neg hi], fun _ => id⟩

theorem isSome_modifyBinding {g : NodeBindingInfo → NodeBindingInfo} (h : (n.bindings.get? i).isSome) :
    ((n.modifyBinding bd g).bindings.get? i).isSome := by
  simp only [modifyBinding, Register.get?_modify]
  split
  · rwa [Option.isSome_map]
  · exact h

theorem only_modifyBinding {g : NodeBindingInfo → NodeBindingInfo} : n.Only tm (n.modifyBinding bd g) :=
  ⟨fun _ _ => rfl, fun _ => isSome_modifyBinding⟩

theorem only_erase : n.Only tm { n with terminals := n.terminals.erase tm } :=
  ⟨fun _ hi => by simp only [Register.get?_erase, if_neg hi], fun _ => id⟩

theorem only_hide : n.Only tm { n with terminals := n.terminals.hide tm } :=
  ⟨fun _ hi => by simp only [Register.get?_hide, if_neg hi], fun _ => id⟩

theorem exists_lookup {m : FsmMap} (h : b ∈ m.keys) : ∃ f, m.lookup b = some f :=
  Option.isSome_iff_exists.mp (AList.lookup_isSome.mpr (AList.mem_keys.mpr h))

theorem told_of_get? (he : n.terminals.get? tm = some e) : Told e n := by
  have hi := Register.get?_id he
  subst hi
  exact ⟨e.data.usingNodes, he⟩

theorem Told.get? (h : Told e n) (hi : e.id = tm) :
    ∃ users, n.terminals.get? tm = some { e with data := { e.data with usingNodes := users } } :=
  hi ▸ h

theorem abandonUsers_succeeds {cs : List Conn} (hs : n.Served nodes who) (he : n.terminals.get? tm = some e)
    (hk : ∀ b ∈ cs, b ∈ e.data.usingNodes.keys) :
    (n.abandonUsers tm c cs).Succeeds fun s => n.Only tm s.1 ∧ Told e s.1 := by
  have hi := Register.get?_id he
  induction cs generalizing n e
  case nil          => exact .pure ⟨.refl, told_of_get? he⟩
  case cons b cs ih =>
    obtain ⟨hb, hcs⟩ := List.forall_mem_cons.mp hk
    obtain ⟨f, hf⟩ := exists_lookup hb
    have hu := (hs.users tm e he).states b f hf
    refine (deref_succeeds he).bind fun e' he' => ?_
    subst he'
    refine (deref_succeeds hf).bind fun f' hf' => ?_
    subst hf'
    refine .ite (fun _ => ih hs he hcs hi) fun hd => ?_
    obtain ⟨out, hout⟩ := Fsm.exists_processObjectDestroyed (Bool.eq_false_iff.mpr fun h => hd (.inr h))
    obtain ⟨hus, ha⟩ := userState_destroyed hu hout
    rw [hout, Except.ok_bind]
    refine .ite (fun _ => ?_) fun hna => absurd ha hna
    have hs' : (n.modifyTerminal tm fun d => { d with usingNodes := d.usingNodes.insert b out.fsm }).Served nodes who :=
      hs.modifyTerminal fun _ _ ho => ho.insertUser hus
    have he' : (n.modifyTerminal tm fun d => { d with usingNodes := d.usingNodes.insert b out.fsm }).terminals.get? tm =
        some (e'.modify fun d => { d with usingNodes := d.usingNodes.insert b out.fsm }) := by
      simp only [modifyTerminal, Register.get?_modify, if_true, he, Option.map_some]
    refine (ih hs' he' (fun k hk => mem_users_insert (.inl (hcs k hk))) hi).bind fun r hr => .pure ?_
    exact ⟨only_modifyTerminal.trans hr.1, hr.2⟩

theorem updateUsersForAbandonedTerminal_succeeds (hs : n.Served nodes who) (he : n.terminals.get? tm = some e) :
    (n.updateUsersForAbandonedTerminal tm c).Succeeds fun s => n.Only tm s.1 ∧ Told e s.1 := by
  refine (deref_succeeds he).bind fun e' he' => ?_
  subst he'
  exact abandonUsers_succeeds hs he fun b hb => hb

theorem updateState_succeeds (he : n.terminals.get? tm = some e) :
    (n.updateState tm).Succeeds fun s => n.Only tm s.1 ∧
      (s.2.2 = true → s.1.terminals.get? tm = some (e.modify fun d => { d with state := stateOf d })) := by
  refine (deref_succeeds he).bind fun e' he' => ?_
  subst he'
  refine .ite (fun _ => .pure ⟨only_erase, fun h => Bool.noConfusion h⟩) fun _ => .pure ?_
  refine ⟨only_modifyTerminal, fun _ => ?_⟩
  simp only [modifyTerminal, Register.get?_modify, if_true, he, Option.map_some]

theorem updateLastOwningNode_succeeds {k : Conn} (he : n.terminals.get? tm = some e)
    (hk : e.data.owningNodes.keys = [k]) (hf : e.data.usingNodes.lookup k = some f) (hu : UserState f.state) :
    (n.updateLastOwningNode tm).Succeeds fun s => n.Only tm s.1 ∧ Told e s.1 := by
  have hi := Register.get?_id he
  subst hi
  refine (deref_succeeds he).bind fun e' he' => ?_
  subst he'
  refine (deref_succeeds (by rw [hk]; rfl)).bind fun k' hk' => ?_
  subst hk'
  refine (deref_succeeds hf).bind fun f' hf' => ?_
  subst hf'
  refine .ite (fun _ => .pure ⟨.refl, told_of_get? he⟩) fun hd => ?_
  obtain ⟨out, hout⟩ := Fsm.exists_processObjectDestroyed (Bool.eq_false_iff.mpr hd)
  have ha := (userState_destroyed hu hout).2
  rw [hout, Except.ok_bind, ha]
  refine .pure ⟨only_modifyTerminal, e'.data.usingNodes.insert k' out.fsm, ?_⟩
  simp only [modifyTerminal, Register.get?_modify, if_true, he, Option.map_some]
  rfl

theorem releaseBindings_succeeds (he : n.terminals.get? tm = some e) (hs : e.data.state = stateOf e.data)
    (hb : bd ≠ 0 → (n.bindings.get? bd).isSome) : (n.releaseBindings tm bd c).Succeeds fun _ => True := by
  refine .ite (fun _ => .pure trivial) fun h₀ => ?_
  obtain ⟨d, hd⟩ := Option.isSome_iff_exists.mp (hb h₀)
  refine (deref_succeeds he).bind fun e' he' => (at!_succeeds hd).bind fun d' hd' => ?_
  subst he'
  refine .ite (fun h₁ => ?_) fun _ => .ite (fun _ => .pure trivial) fun _ => .pure trivial
  obtain ⟨⟨k, hk⟩, _⟩ := stateOf_eq_owners1Leafs0Nodes.mp (hs.symm.trans h₁)
  refine (deref_succeeds (by rw [hk]; rfl)).bind fun leaf _ => ?_
  split
  · exact .pure trivial
  · exact .pure trivial

theorem disassociateTerminal_succeeds (he : n.terminals.get? tm = some e)
    (hb : e.data.binding ≠ 0 → (n.bindings.get? e.data.binding).isSome) :
    (n.disassociateTerminal tm).Succeeds fun m => n.Only tm m ∧
      m.terminals.get? tm = some { e with data := { e.data with binding := 0 } } := by
  refine (deref_succeeds he).bind fun e' he' => ?_
  subst he'
  refine .ite (fun h₀ => ?_) fun h₀ => .pure ⟨.refl, ?_⟩
  · obtain ⟨d, hd⟩ := Option.isSome_iff_exists.mp (hb h₀)
    refine (at!_succeeds hd).bind fun d' _ => .pure ⟨only_modifyBinding.trans only_modifyTerminal, ?_⟩
    simp only [modifyTerminal, modifyBinding, Register.get?_modify, if_true, he, Option.map_some]
    rfl
  · rw [he, ← not_not.mp h₀]

theorem isSome_binding (h : TerminalOk n.connections n.bindings.map p e) (hh : e.hidden = false) (hx : p.pairs = ∅)
    (hb : e.data.binding ≠ 0) : (n.bindings.get? e.data.binding).isSome := by
  have hf := h.binding hh (hx ▸ Set.notMem_empty _)
  rw [hf] at hb
  obtain ⟨d, hd, _⟩ := n.bindings.map_iff.mp (found_of_ne_zero hb)
  exact Option.isSome_of_eq_some (hf ▸ hd)

-- The owner `k` that is left is told about the terminal, because it has not been its only owner.
theorem last_owner_uses {k : Conn} {w : Conn → Prop} (hu : UsersOk w e) (hh : e.hidden = false)
    (hc : c ∈ ownersMap e.data c) (hkc : k ≠ c) (hw : w k) :
    ∃ f, e.data.usingNodes.lookup k = some f ∧ UserState f.state := by
  have hm := (hu.informed hh k hw).resolve_right fun ho => hkc ?_
  case refine_1 =>
    simp only [ownersMap] at hc
    split at hc
    case isFalse =>
      have hc : c ∈ e.data.owningLeafs.keys := hc
      rw [ho.1] at hc
      cases hc
    case isTrue  =>
      have hc : c ∈ e.data.owningNodes.keys := hc
      rw [ho.2, List.mem_singleton] at hc
      exact hc.symm
  obtain ⟨f, hf⟩ := exists_lookup hm
  exact ⟨f, hf, hu.states k f hf⟩

theorem terminalOwnerRemoved_succeeds (h : n.Consistent (p.owning tm c)) (hs : n.Served nodes who)
    (he : n.terminals.get? tm = some e) (hc : c ∈ ownersMap e.data c) (ht : tm ∉ p.states) (hx : p.pairs = ∅)
    (hw : ∀ k ∈ e.data.owningNodes.keys, k ≠ c → who tm k) :
    ((n.modifyTerminal tm (Node.dropOwner c)).terminalOwnerRemoved tm c).Succeeds fun s => n.Only tm s.1 := by
  have hid := Register.get?_id he
  have ho := h.get? he
  have hst : e.data.state = stateOf e.data := ho.state (hid ▸ ht)
  have hh : e.hidden = false := Bool.eq_false_iff.mpr fun hh => not_unowned hc (ho.hidden.mp hh)
  have hb := isSome_binding ho hh hx
  have hg : (n.modifyTerminal tm (Node.dropOwner c)).terminals.get? tm = some (e.modify (Node.dropOwner c)) := by
    simp only [modifyTerminal, Register.get?_modify, if_true, he, Option.map_some]
  refine (deref_succeeds hg).bind fun e' he' => ?_
  subst he'
  extract_lets bindingId next
  have hbid : bindingId = e.data.binding := dropOwner_binding
  have hnext (s : Node × List Effect) (e₁ : Element NodeTerminalInfo) (hg : s.1.terminals.get? tm = some e₁)
      (hon : n.Only tm s.1) (hb₁ : e₁.data.binding ≠ 0 → (s.1.bindings.get? e₁.data.binding).isSome)
      (hlast : ∀ k, stateOf e₁.data = .owners0Leafs1Nodes → e₁.data.owningNodes.keys = [k] →
        ∃ f, e₁.data.usingNodes.lookup k = some f ∧ UserState f.state) :
      (next s).Succeeds fun s => n.Only tm s.1 := by
    refine (updateState_succeeds hg).bind fun u h₂ => ?_
    obtain ⟨n₂, known, alive⟩ := u
    obtain ⟨hon₂, hg₂⟩ := h₂
    have hbn (i : Id) (hi : (s.1.bindings.get? i).isSome) := hon₂.bindings i hi
    refine .ite (fun _ => .ite (fun _ => .pure (hon.trans hon₂)) fun h₀ => ?_) fun ha => ?_
    case refine_1 =>
      obtain ⟨d, hd⟩ := Option.isSome_iff_exists.mp (hbn _ (hon.bindings _ (hbid ▸ hb (hbid ▸ h₀))))
      exact (at!_succeeds hd).bind fun _ _ => .pure (hon.trans hon₂)
    case refine_2 =>
      have hg₂ := hg₂ (by simpa using ha)
      refine (deref_succeeds hg₂).bind fun e₂ he₂ => ?_
      extract_lets last
      have hlast' (t : Node × List Effect) (hon₃ : n₂.Only tm t.1) (ht : Told e₂ t.1) :
          (last t).Succeeds fun s => n.Only tm s.1 := by
        subst he₂
        obtain ⟨users, hg₃⟩ := ht.get? (Register.get?_id hg₂)
        have hb₃ (i : Id) (hi : (s.1.bindings.get? i).isSome) := hon₃.bindings i (hbn i hi)
        refine (releaseBindings_succeeds hg₃ rfl fun h₀ => ?_).bind fun bindings _ => ?_
        · exact hb₃ _ (hon.bindings _ (hbid ▸ hb (hbid ▸ h₀)))
        extract_lets finish
        refine .ite (fun _ => ?_) fun _ => .pure (hon.trans (hon₂.trans hon₃))
        refine (disassociateTerminal_succeeds hg₃ fun h₀ => hb₃ _ (hb₁ h₀)).bind fun m hm => .pure ?_
        exact hon.trans (hon₂.trans (hon₃.trans hm.1))
      refine .ite (fun h₁ => ?_) fun _ => ?_
      · subst he₂
        obtain ⟨_, k, hk⟩ := stateOf_eq_owners0Leafs1Nodes.mp h₁
        obtain ⟨f, hf, hu⟩ := hlast k h₁ hk
        exact (updateLastOwningNode_succeeds hg₂ hk hf hu).bind fun t ht => hlast' t ht.1 ht.2
      · exact (Succeeds.pure (P := (· = (n₂, []))) rfl).bind fun t ht =>
          hlast' t (ht ▸ .refl) (ht ▸ he₂ ▸ told_of_get? hg₂)
  have hlast (hu : Unowned (Node.dropOwner c e.data)) : Succeeds (Node.disassociateTerminal
      { n with terminals := (n.terminals.modify tm (Node.dropOwner c)).hide tm } tm >>= fun m =>
      m.updateUsersForAbandonedTerminal tm c >>= next) fun s => n.Only tm s.1 := by
    have hg₁ : ((n.terminals.modify tm (Node.dropOwner c)).hide tm).get? tm =
        some { e.modify (Node.dropOwner c) with hidden := true } := by
      rw [Register.get?_hide, if_pos rfl, Register.get?_modify, if_pos rfl, he]
      rfl
    have hon : n.Only tm { n with terminals := (n.terminals.modify tm (Node.dropOwner c)).hide tm } :=
      only_modifyTerminal.trans only_hide
    refine ((disassociateTerminal_succeeds hg₁ fun h₀ => ?_).and hs.hide.disassociateTerminal).bind fun m hm => ?_
    case refine_1 =>
      simp only [Element.modify_data, dropOwner_binding] at h₀ ⊢
      exact hb h₀
    case refine_2 =>
      obtain ⟨⟨hon₁, hg₂⟩, hs₁⟩ := hm
      refine (updateUsersForAbandonedTerminal_succeeds hs₁ hg₂).bind fun s h₃ => ?_
      obtain ⟨users, hg₃⟩ := h₃.2.get? hid
      refine hnext s _ hg₃ (hon.trans (hon₁.trans h₃.1)) (fun h₀ => absurd rfl h₀) fun k h₁ _ => ?_
      obtain ⟨_, k, hk⟩ := stateOf_eq_owners0Leafs1Nodes.mp h₁
      exact absurd (hu.2.symm.trans hk) (List.cons_ne_nil _ _).symm
  have hmore : Succeeds ((pure (n.modifyTerminal tm (Node.dropOwner c), []) : Result) >>= next) fun s =>
      n.Only tm s.1 := by
    refine (Succeeds.pure (P := (· = (n.modifyTerminal tm (Node.dropOwner c), []))) rfl).bind fun s hs => ?_
    subst hs
    refine hnext (_, []) _ hg only_modifyTerminal (fun h₀ => ?_) fun k _ hk => ?_
    case refine_1 =>
      rw [Element.modify_data, dropOwner_binding] at h₀ ⊢
      exact hb h₀
    case refine_2 =>
      obtain ⟨hm, hne⟩ := mem_dropOwner_nodes (hk ▸ List.mem_singleton_self k)
      have hkc : k ≠ c := fun hkc => hne (hkc ▸ (ho.nodes k hm).1) hkc
      rw [Element.modify_data, dropOwner_users]
      exact last_owner_uses (hs.users tm e he) hh hc hkc (hid.symm ▸ hw k hm hkc)
  have hst' : (e.modify (Node.dropOwner c)).data.state = stateOf e.data := dropOwner_state.trans hst
  rw [hst']
  have hu := unowned_dropOwner_iff hc
  split
  case h_1 hs => exact hlast (hu.mpr (.inl hs))
  case h_2 hs => exact hlast (hu.mpr (.inr hs))
  case h_3    => exact hmore
  case h_4    => exact hmore
  case h_5    => exact hmore
  case h_6 hs => exact absurd (stateOf_eq_awaitAcks_iff.mp hs) (not_unowned hc)
  case h_7 hs => exact absurd hs stateOf_ne_justCreated

theorem removeTerminalOwner_succeeds (h : n.Consistent (p.owning tm c)) (hs : n.Served nodes who)
    (he : n.terminals.get? tm = some e) (ht : tm ∉ p.states) (hx : p.pairs = ∅)
    (hw : ∀ k ∈ e.data.owningNodes.keys, k ≠ c → who tm k) :
    (n.removeTerminalOwner tm c true).Succeeds fun s => n.Only tm s.1 := by
  refine (deref_succeeds he).bind fun e' he' => ?_
  subst he'
  split
  case h_1      => exact .pure .refl
  case h_2 f hf => exact terminalOwnerRemoved_succeeds h hs he (mem_keys_of_lookup hf) ht hx hw

theorem forEach_succeeds {P : List Id → Node → Prop} {g : Node → Id → Result}
    (hg : ∀ n i is, P (i :: is) n → (g n i).Succeeds fun s => P is s.1) (is : List Id) (h : P is n) :
    (forEach g n is).Succeeds fun s => P [] s.1 := by
  induction is generalizing n
  case nil          => exact .pure h
  case cons i is ih => exact (hg n i is h).bind fun r hr => (ih hr).bind fun s hs => .pure hs

-- What is left of a register after a loop has visited some of its elements
def Left {α : Type} (is : List Id) (r : Register α) : Prop :=
  is.Nodup ∧ ∀ i ∈ is, (r.get? i).isSome

theorem left_ids {α : Type} {r : Register α} : Left r.ids r :=
  ⟨Register.ids_nodup, fun _ hi => Option.isSome_iff_exists.mpr (Register.mem_ids_iff.mp hi)⟩

theorem Left.next {α : Type} {is : List Id} {r r' : Register α} (h : Left (i :: is) r)
    (hr : ∀ j, j ≠ i → (r.get? j).isSome → (r'.get? j).isSome) : Left is r' := by
  obtain ⟨hi, hd⟩ := List.nodup_cons.mp h.1
  exact ⟨hd, fun j hj => hr j (fun hji => hi (hji ▸ hj)) (h.2 j (List.mem_cons_of_mem _ hj))⟩

theorem isSome_terminal {d : Element NodeBindingInfo} {p : Pending}
    (h : BindingOk n.connections n.terminals.map p d) (hx : p.pairs = ∅) (ht : d.data.terminal ≠ 0) :
    (n.terminals.get? d.data.terminal).isSome := by
  have hf := h.terminal (hx ▸ Set.notMem_empty _)
  rw [hf] at ht
  obtain ⟨e, he, _⟩ := n.terminals.map_iff.mp (found_of_ne_zero ht)
  exact Option.isSome_of_eq_some (hf ▸ he)

theorem leaveBinding_succeeds {is : List Id} (h : n.Consistent p) (hx : p.pairs = ∅)
    (hl : Left (bd :: is) n.bindings) : (leaveBinding c n bd).Succeeds fun s => Left is s.1.bindings := by
  obtain ⟨d, hd⟩ := Option.isSome_iff_exists.mp (hl.2 bd List.mem_cons_self)
  refine (deref_succeeds hd).bind fun d' hd' => ?_
  subst hd'
  extract_lets m called
  have hm (j : Id) (hj : (n.bindings.get? j).isSome) : (m.bindings.get? j).isSome :=
    isSome_modifyBinding hj
  have hg : m.bindings.get? bd = some (d'.modify fun d => { d with owningLeafs := d.owningLeafs.erase c }) := by
    simp only [m, modifyBinding, Register.get?_modify, if_true, hd, Option.map_some]
  refine .ite (fun _ => ?_) fun _ => .pure (hl.next fun j _ hj => hm j hj)
  have hdis : (m.disassociateBinding bd).Succeeds fun m' => ∀ j, (m.bindings.get? j).isSome →
      (m'.bindings.get? j).isSome := by
    refine (deref_succeeds hg).bind fun d₁ hd₁ => ?_
    subst hd₁
    refine .ite (fun h₀ => ?_) fun _ => .pure fun j hj => hj
    obtain ⟨e, he⟩ := Option.isSome_iff_exists.mp (isSome_terminal (h.bindings bd d' hd) hx h₀)
    exact (at!_succeeds (show m.terminals.get? _ = some e from he)).bind fun _ _ =>
      .pure fun j hj => isSome_modifyBinding hj
  refine hdis.bind fun m' hm' => .pure (hl.next fun j hji hj => ?_)
  rw [Register.get?_erase, if_neg hji]
  exact hm' j (hm j hj)

theorem leaveTerminal_succeeds {is : List Id} {T : Set Id} (h : n.Consistent (leaving c ∅ (insert tm T)))
    (hs : n.Served nodes fun _ b => b ∈ nodes) (hc : c ∉ nodes) (hl : Left (tm :: is) n.terminals) :
    (leaveTerminal c n tm).Succeeds fun s => Left is s.1.terminals := by
  obtain ⟨e, he⟩ := Option.isSome_iff_exists.mp (hl.2 tm List.mem_cons_self)
  have hg : (n.modifyTerminal tm fun d => { d with usingNodes := d.usingNodes.erase c }).terminals.get? tm =
      some (e.modify fun d => { d with usingNodes := d.usingNodes.erase c }) := by
    simp only [modifyTerminal, Register.get?_modify, if_true, he, Option.map_some]
  have hleft {m : Node} (hm : n.Only tm m) : Left is m.terminals :=
    hl.next fun j hji hj => (hm.terminals j hji).symm ▸ hj
  have hserved : (n.modifyTerminal tm fun d => { d with usingNodes := d.usingNodes.erase c }).Served nodes
      fun _ b => b ∈ nodes := hs.eraseUser fun _ => hc
  simp only [leaveTerminal]
  refine (((updateState_succeeds hg).and h.eraseUser.updateState).and hserved.updateState).bind fun u hu => ?_
  obtain ⟨m, known, alive⟩ := u
  obtain ⟨⟨⟨hon, hg₂⟩, hcon, _⟩, hserved⟩ := hu
  have hon := only_modifyTerminal.trans hon
  refine .ite (fun ha => ?_) fun _ => .pure (hleft hon)
  refine (removeTerminalOwner_succeeds hcon hserved (hg₂ ha) (Set.notMem_empty _) rfl fun k hk hkc => ?_).bind
    fun r hr => .pure (hleft (hon.trans hr))
  obtain ⟨hn, hm⟩ := (hcon.get? (hg₂ ha)).nodes k hk
  have hm : k ∈ m.connections := hm.resolve_right fun hq => hkc (hq.elim (fun hq => (Prod.ext_iff.mp hq).2) And.right)
  have hm := (List.mem_append.mp hm).resolve_left fun hl => Bool.noConfusion (hn.symm.trans (hcon.leafs k hl))
  exact hserved.nodes ▸ hm

theorem onConnectionDestroyed_succeeds (h : n.Consistent {}) (hs : n.Informed) :
    (n.onConnectionDestroyed c).Succeeds fun _ => True := by
  obtain ⟨nodes, hd, hs⟩ := hs
  refine .ite (fun _ => .pure trivial) fun _ => ?_
  obtain ⟨nodes, hc, _, hserved⟩ := hs.leave (c := c) h hd
  have hstart := h.leave (c := c)
  extract_lets m
  refine (forEach_succeeds (P := fun bs m => m.Consistent (leaving c {i | i ∈ bs} Set.univ) ∧
    (m.Served nodes fun _ b => b ∈ nodes) ∧ Left bs m.bindings) (g := leaveBinding c) (fun n bd bs hb => ?_)
    m.bindings.ids ⟨hstart.narrow.mono (leaving_le Set.inter_subset_right (Set.subset_univ _)), hserved,
      left_ids⟩).bind fun r hr => ?_
  case refine_1 =>
    obtain ⟨hcon, hserved, hl⟩ := hb
    rw [setOf_mem_cons] at hcon
    exact (((leaveBinding_succeeds hcon rfl hl).and hcon.leaveBinding).and hserved.leaveBinding).imp
      fun s hs => ⟨hs.1.2, hs.2, hs.1.1⟩
  refine (forEach_succeeds (P := fun ts m => m.Consistent (leaving c ∅ {i | i ∈ ts}) ∧
    (m.Served nodes fun _ b => b ∈ nodes) ∧ Left ts m.terminals) (g := leaveTerminal c) (fun n tm ts ht => ?_)
    r.1.terminals.ids ⟨hr.1.narrow.mono (leaving_le ?_ Set.inter_subset_right), hr.2.1, left_ids⟩).bind
    fun s _ => .pure trivial
  case refine_1 =>
    obtain ⟨hcon, hserved, hl⟩ := ht
    rw [setOf_mem_cons] at hcon
    exact (((leaveTerminal_succeeds hcon hserved hc hl).and hcon.leaveTerminal).and
      (hserved.leaveTerminal fun _ => hc)).imp fun s hs => ⟨hs.1.2, hs.2, hs.1.1⟩
  case refine_2 => exact fun _ hi => absurd hi.1 List.not_mem_nil

theorem onConnectionStarted_succeeds (h : n.Consistent {}) (hc : c ∉ n.connections) :
    (n.onConnectionStarted c).Succeeds fun _ => True := by
  have hs : n.Startable c :=
    { leafs := fun hm => hc (List.mem_append_left _ hm)
      nodes := fun hm => hc (List.mem_append_right _ hm)
      users := fun e he _ => by
        by_contra hn
        obtain ⟨f, hf⟩ := Option.ne_none_iff_exists'.mp hn
        have hm := mem_nodes h ((h.get? (Register.mem_elements_iff.mp he)).users c (mem_keys_of_lookup hf))
        exact hc (List.mem_append_right _ hm) }
  obtain ⟨n', _, es, hn⟩ := (hs.sends (F := False)).done le_rfl
  exact ⟨(n', es), hn, trivial⟩

-- What has been received before never prevents a connection from being started or destroyed.
theorem connections_change (h : machine.Reachable n) :
    (∃ s, n.onConnectionDestroyed c = .ok s) ∧
    (c ∉ n.connections → ∃ s, n.onConnectionStarted c = .ok s) := by
  have hcon := consistent_of_reachable h
  refine ⟨?_, fun hc => ?_⟩
  · obtain ⟨s, hs, _⟩ := onConnectionDestroyed_succeeds (c := c) hcon (informed_of_reachable h)
    exact ⟨s, hs⟩
  · obtain ⟨s, hs, _⟩ := onConnectionStarted_succeeds hcon hc
    exact ⟨s, hs⟩

theorem connections_change_shared :
    ∃ n, machine.run {} shared = some n ∧ (∃ s, n.onConnectionDestroyed leafA = .ok s) ∧
    (leafA ∉ n.connections → ∃ s, n.onConnectionStarted leafA = .ok s) :=
  ⟨_, rfl, connections_change (reachable_of_run shared _ rfl)⟩

end Yogi.Node
