import YogiModel.Core.NodeBindings
import YogiModel.Core.NodeOwners

-- The terminals of a node
namespace Yogi.Node

open Except (Returns)

variable {n n' : Node} {tm bd i : Id} {c : Conn} {es es' : List Effect} {x : Identifier} {p q : Pending}
variable {d d' : NodeTerminalInfo} {e : Element NodeTerminalInfo} {f : Fsm}
variable {conns : List Conn} {found : Identifier → Option Id}

theorem mem_insertOwner_leafs {b : Conn}
    (h : b ∈ (setOwnersMap d c ((ownersMap d c).insert c f)).owningLeafs.keys) :
    b ∈ d.owningLeafs.keys ∨ b = c ∧ c.remoteIsNode = false := by
  cases hc : c.remoteIsNode
  case true  =>
    simp only [setOwnersMap, hc, if_true] at h
    exact .inl h
  case false =>
    simp only [setOwnersMap, ownersMap, hc, Bool.false_eq_true, if_false, AList.keys_insert, List.mem_cons] at h
    exact h.symm.imp List.mem_of_mem_erase (⟨·, rfl⟩)

theorem mem_insertOwner_nodes {b : Conn}
    (h : b ∈ (setOwnersMap d c ((ownersMap d c).insert c f)).owningNodes.keys) :
    b ∈ d.owningNodes.keys ∨ b = c ∧ c.remoteIsNode = true := by
  cases hc : c.remoteIsNode
  case false =>
    simp only [setOwnersMap, hc, Bool.false_eq_true, if_false] at h
    exact .inl h
  case true  =>
    simp only [setOwnersMap, ownersMap, hc, if_true, AList.keys_insert, List.mem_cons] at h
    exact h.symm.imp List.mem_of_mem_erase (⟨·, rfl⟩)

theorem not_unowned_insertOwner : ¬Unowned (setOwnersMap d c ((ownersMap d c).insert c f)) := by
  cases hc : c.remoteIsNode
  case false =>
    simp only [Unowned, setOwnersMap, ownersMap, hc, Bool.false_eq_true, if_false, AList.keys_insert]
    exact fun h => List.cons_ne_nil _ _ h.1
  case true  =>
    simp only [Unowned, setOwnersMap, ownersMap, hc, if_true, AList.keys_insert]
    exact fun h => List.cons_ne_nil _ _ h.2

theorem insertOwner_users : (setOwnersMap d c ((ownersMap d c).insert c f)).usingNodes = d.usingNodes := by
  simp only [setOwnersMap]
  split <;> rfl

theorem insertOwner_binding : (setOwnersMap d c ((ownersMap d c).insert c f)).binding = d.binding := by
  simp only [setOwnersMap]
  split <;> rfl

theorem insertOwner_state : (setOwnersMap d c ((ownersMap d c).insert c f)).state = d.state := by
  simp only [setOwnersMap]
  split <;> rfl

-- What gives a visible terminal another owner
theorem TerminalOk.addOwner (h : TerminalOk conns found p e) (hi : e.id = tm) (hh : e.hidden = false)
    (hc : c ∈ conns) : TerminalOk conns found (p.opened tm)
      (e.modify fun d => setOwnersMap d c ((ownersMap d c).insert c f)) where
  leafs b hb := by
    rcases mem_insertOwner_leafs hb with hb | ⟨rfl, hn⟩
    · exact h.leafs b hb
    · exact ⟨hn, .inl hc⟩
  nodes b hb := by
    rcases mem_insertOwner_nodes hb with hb | ⟨rfl, hn⟩
    · exact h.nodes b hb
    · exact ⟨hn, .inl hc⟩
  users      := by
    rw [Element.modify_data, insertOwner_users]
    exact h.users
  hidden     := iff_of_false (by simp [hh]) not_unowned_insertOwner
  state hs   := absurd (.inl hi) hs
  inUse hs   := absurd (.inl hi) hs
  binding    := by
    rw [Element.modify_data, insertOwner_binding]
    exact h.binding
  unbound    := by
    rw [Element.modify_data, insertOwner_binding]
    exact h.unbound

theorem TerminalOk.new (hc : c ∈ conns) : TerminalOk conns found ((p.opened tm).pairing x)
    ⟨x, tm, false, setOwnersMap {} c ((ownersMap {} c).insert c f)⟩ where
  leafs b hb    := by
    rcases mem_insertOwner_leafs hb with hb | ⟨rfl, hn⟩
    · cases hb
    · exact ⟨hn, .inl hc⟩
  nodes b hb    := by
    rcases mem_insertOwner_nodes hb with hb | ⟨rfl, hn⟩
    · cases hb
    · exact ⟨hn, .inl hc⟩
  users b hb    := by
    rw [insertOwner_users] at hb
    cases hb
  hidden        := iff_of_false (by simp) not_unowned_insertOwner
  state hs      := absurd (.inl rfl) hs
  inUse hs      := absurd (.inl rfl) hs
  binding _ hx  := absurd (.inl rfl) hx
  unbound hh    := Bool.noConfusion hh

theorem Consistent.insertTerminal (h : n.Consistent p) (hc : c ∈ n.connections)
    (hf : n.terminals.find? x = none) :
    (Node.modifyTerminal { n with terminals := (n.terminals.insert x {}).1 } (n.terminals.insert x {}).2.1
      fun d => setOwnersMap d c ((ownersMap d c).insert c f)).Consistent
      ((p.opened (n.terminals.insert x {}).2.1).pairing x) := by
  obtain ⟨_, _, hnew, hg⟩ := Register.insert_of_find?_none (d := ({} : NodeTerminalInfo)) hf
  have hm := Register.map_insert_none (d := ({} : NodeTerminalInfo)) hf
  generalize n.terminals.insert x {} = inserted at hnew hg hm
  obtain ⟨ts, tm, _⟩ := inserted
  refine ⟨h.leafs, h.nodes, fun i e he => ?_, fun j d hd => ?_⟩
  case refine_1 =>
    simp only [Node.modifyTerminal, Register.get?_modify, hg] at he
    split at he
    case isFalse => exact ((h.terminals i e he).mono Pending.le_opened).mono Pending.le_pairing
    case isTrue  =>
      rw [Option.map_some, Option.some.injEq] at he
      subst he
      exact .new hc
  case refine_2 =>
    have ho := h.bindings j d hd
    refine { leafs := ho.leafs, owned := ho.owned, visible := ho.visible, terminal := fun hx => ?_ }
    have hm' : ts.map = Function.update n.terminals.map x (some tm) := hm
    simp only [Node.modifyTerminal, Register.map_modify]
    rw [hm', Function.update_of_ne fun hx' => hx (.inl hx')]
    exact ho.terminal fun hp => hx (.inr hp)

-- Users are told, which changes nothing but the users of the terminal.
def Told (e : Element NodeTerminalInfo) (n : Node) : Prop :=
  ∃ users, n.terminals.get? e.id = some { e with data := { e.data with usingNodes := users } }

theorem told_describe {e' : Element NodeTerminalInfo} (h : Told e' n) (hi : e'.id = tm) :
    Told e' (n.describe tm x c).1 := by
  obtain ⟨users, hg⟩ := h
  refine ⟨users.insert c (Fsm.reset {} false).fsm, ?_⟩
  simp only [describe, modifyTerminal, Register.get?_modify, hi, if_true]
  rw [← hi, hg]
  rfl

theorem told_describeToAll {cs : List Conn} (h : Told e n) (hi : e.id = tm) :
    Told e (n.describeToAll tm x cs).1 := by
  induction cs generalizing n
  case nil          => exact h
  case cons c cs ih => exact ih (told_describe h hi)

theorem Consistent.informUsers (h : n.Consistent p) (he : n.terminals.get? tm = some e) (hp : p.owners ⊆ p.users) :
    (n.informUsers tm c).Returns fun s => s.1.Consistent p ∧ Told e s.1 := by
  have hi := Register.get?_id he
  have ht : Told e n := ⟨_, hi ▸ he⟩
  refine deref_returns.bind fun e' he' => ?_
  cases he.symm.trans he'
  split
  · refine .pure ⟨h.describeToAll fun c hc => (List.mem_filter.mp hc).1, told_describeToAll ht hi⟩
  · exact .pure ⟨h, ht⟩
  · exact .pure ⟨h, ht⟩
  · exact .pure ⟨h, ht⟩
  · exact .pure ⟨h, ht⟩
  · refine deref_returns.bind fun owner ho => .ite (fun _ => .pure ?_) fun _ => .pure ⟨h, ht⟩
    obtain ⟨hn, hm⟩ := (h.get? he).nodes owner (List.mem_of_find?_eq_some ho)
    exact ⟨h.describe hn (hm.imp_right fun hm => hi ▸ hp hm), told_describe ht hi⟩
  · exact .error

-- The terminal with a new or changed owner
structure Described (p : Pending) (n : Node) (tm : Id) (x : Identifier) (c : Conn) (d : NodeTerminalInfo)
    (f : Fsm) : Prop where
  consistent : n.Consistent ((p.opened tm).pairing x)
  entry      : ∃ e, n.terminals.get? tm = some e ∧ e.hidden = false ∧ e.identifier = x ∧
    e.data = setOwnersMap d c ((ownersMap d c).insert c f)
  known      : d.binding ≠ 0 → n.Consistent (p.opened tm)
  owner      : c ∈ ownersMap d c → n.Consistent p

theorem Consistent.described (h : n.Consistent p) (hc : c ∈ n.connections) {e : Element NodeTerminalInfo}
    (he : (n.terminals.insert x {}).1.get? (n.terminals.insert x {}).2.1 = some e) :
    Described p (Node.modifyTerminal { n with terminals := (n.terminals.insert x {}).1 } (n.terminals.insert x {}).2.1
      fun d => setOwnersMap d c ((ownersMap d c).insert c f)) (n.terminals.insert x {}).2.1 x c e.data f := by
  have hentry (hh : e.hidden = false) : ∃ e', (Node.modifyTerminal
      { n with terminals := (n.terminals.insert x {}).1 } (n.terminals.insert x {}).2.1 fun d =>
        setOwnersMap d c ((ownersMap d c).insert c f)).terminals.get? (n.terminals.insert x {}).2.1 = some e' ∧
      e'.hidden = false ∧ e'.identifier = x ∧
      e'.data = setOwnersMap e.data c ((ownersMap e.data c).insert c f) := by
    have hx : e.identifier = x := Register.insert_identifier he
    refine ⟨e.modify fun d => setOwnersMap d c ((ownersMap d c).insert c f), ?_, hh, hx, rfl⟩
    simp only [Node.modifyTerminal, Register.get?_modify, if_true, he, Option.map_some]
  cases hf : n.terminals.find? x
  case none   =>
    have hd : e.hidden = false ∧ e.data = {} := by
      rw [(Register.insert_of_find?_none hf).2.2.2, if_pos rfl, Option.some.injEq] at he
      exact he ▸ ⟨rfl, rfl⟩
    refine ⟨h.insertTerminal hc hf, hentry hd.1, fun hb => absurd (by rw [hd.2]) hb, fun ho => ?_⟩
    rw [hd.2, ownersMap] at ho
    split at ho <;> cases ho
  case some d =>
    have hs := h.insertTerminal_some hf
    have hd : e.hidden = false := by
      rw [(Register.insert_of_find?_some hf).2, (Register.insert_of_find?_some hf).1] at he
      obtain ⟨hd, _, hh⟩ := Register.find?_eq_some_iff.mp hf
      cases hd.symm.trans he
      exact hh
    have hopen : (Node.modifyTerminal { n with terminals := (n.terminals.insert x {}).1 } (n.terminals.insert x {}).2.1
        fun d => setOwnersMap d c ((ownersMap d c).insert c f)).Consistent
        (p.opened (n.terminals.insert x {}).2.1) := by
      refine (hs.mono Pending.le_opened).modifyTerminal fun e' he' _ => ?_
      cases he.symm.trans he'
      exact ((hs.get? he).addOwner (Register.get?_id he) hd hc)
    refine ⟨hopen.mono Pending.le_pairing, hentry hd, fun _ => hopen, fun hm => ?_⟩
    refine hs.modifyTerminal fun e' he' ho => ?_
    cases he.symm.trans he'
    exact ho.insertOwner hm

theorem Consistent.onTerminalDescription (h : n.Consistent p) (hc : c ∈ n.connections) (hp : p.owners ⊆ p.users) :
    (n.onTerminalDescription x i c).Returns fun s => s.1.Consistent p := by
  have hins {e} {f} (he : (n.terminals.insert x {}).1.get? (n.terminals.insert x {}).2.1 = some e) :=
    h.described (f := f) hc he
  simp only [Node.onTerminalDescription]
  generalize n.terminals.insert x {} = inserted at *
  obtain ⟨ts, tm, _⟩ := inserted
  refine deref_returns.bind fun e he => Returns.bind (fun _ => id) fun out hout => ?_
  obtain ⟨hcons, ⟨e', he', hh, hx, hd⟩, hknown, howner⟩ := hins (f := out.fsm) he
  refine .ite (fun ho => .pure ?_) fun _ => ?_
  case refine_1 =>
    refine howner (by_contra fun hm => ho (oldMappedId_of_new (i := i) ?_))
    rwa [AList.lookup_eq_none.mpr hm] at hout
  case refine_2 =>
    have hb : e'.data.binding = e.data.binding := by rw [hd, insertOwner_binding]
    -- the terminal is either new and has no binding or there is nothing to be associated
    have hinform : (Node.informUsers (Node.modifyTerminal { n with terminals := ts } tm fun d =>
        setOwnersMap d c ((ownersMap d c).insert c out.fsm)) tm c).Returns fun s =>
        s.1.Consistent ((p.opened tm).pairing x) ∧ Told e' s.1 ∧
          (e.data.binding ≠ 0 → s.1.Consistent (p.opened tm)) := by
      intro s hs
      obtain ⟨h₁, ht⟩ := hcons.informUsers he' hp s hs
      exact ⟨h₁, ht, fun hb => ((hknown hb).informUsers he' hp s hs).1⟩
    refine hinform.bind fun s hs => ?_
    obtain ⟨h₁, ⟨users, ht⟩, h₂⟩ := hs
    rw [Register.get?_id he'] at ht
    refine (h₁.associateTerminal ht hh hx fun hb' => h₂ (hb ▸ hb')).bind fun t h₃ => .bind' fun bindings => ?_
    exact h₃.updateState.bind fun u hu => .pure hu.1

theorem Consistent.onTerminalMapping (h : n.Consistent p) (hc : c ∈ n.connections) :
    (n.onTerminalMapping tm i c).Returns fun s => s.1.Consistent p := by
  refine assert_returns.bind fun _ hn => .bind' fun e => .ite (fun _ => .error) fun _ => .bind' fun out => ?_
  exact .ite (fun _ => .error) fun _ => .pure (h.modifyTerminal fun _ _ ho => ho.insertUser hn (.inl hc))

theorem Consistent.onTerminalRemovedAck (h : n.Consistent p) (hc : c ∈ n.connections) :
    (n.onTerminalRemovedAck tm c).Returns fun s => s.1.Consistent p := by
  refine assert_returns.bind fun _ hn => deref_returns.bind fun e he => ?_
  extract_lets user describe _ acknowledge next
  have hd : Returns describe fun s => s.1.Consistent (p.opened tm) :=
    .bind' fun _ => .pure ((h.mono Pending.le_opened).describe hn (.inl hc))
  have ha : Returns acknowledge fun s => s.1.Consistent (p.opened tm) := by
    refine .bind' fun f => .bind' fun out => .ite (fun _ => .pure ?_) fun _ => .pure ?_
    · exact (h.mono Pending.le_opened).modifyTerminal fun _ _ ho => ho.insertUser hn (.inl hc)
    · exact (h.mono Pending.le_opened).modifyTerminal fun _ hg ho => ho.eraseUser (.inl (Register.get?_id hg))
  have hnext (s : Node × List Effect) (hs : s.1.Consistent (p.opened tm)) :
      (next s).Returns fun s => s.1.Consistent p := by
    refine deref_returns.bind fun e he => ?_
    extract_lets last
    have hlast (n' : Node) (hn' : n'.Consistent (p.opened tm)) : (last n').Returns fun s => s.1.Consistent p :=
      hn'.updateState.bind fun u hu => .pure hu.1
    refine .ite (fun hu => ?_) fun _ => hlast _ hs
    rw [hs.disassociateTerminal_of_hidden he ((hs.get? he).hidden.mpr ⟨hu.1, hu.2.1⟩)]
    exact hlast _ hs
  split
  · exact .error
  · exact hd.bind hnext
  · exact hd.bind hnext
  · exact hd.bind hnext
  · exact hd.bind hnext
  · exact .ite (fun _ => hd.bind hnext) fun _ => ha.bind hnext
  · exact ha.bind hnext

end Yogi.Node
