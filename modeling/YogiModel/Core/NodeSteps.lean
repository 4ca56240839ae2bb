import YogiModel.Core.NodeView

-- Everything that a node does is a sequence of the steps of what inheriting classes see of it.
namespace Yogi.Node

open Except (Returns)
open NodeView (Step Steps)

variable {n n' m : Node} {tm bd i : Id} {c b : Conn} {es es' : List Effect} {x : Identifier} {p : Pending}
variable {d : NodeTerminalInfo} {e : Element NodeTerminalInfo} {f : Fsm} {v : NodeView}
variable {nodes : List Conn} {who : Id → Conn → Prop}

-- Nothing but the connection `c` may be left of connections that have been destroyed.
structure Alive (c : Conn) (v : NodeView) : Prop where
  owners   : ∀ tm b f, b ≠ c → (v.terminals tm).owners b = some f → b ∈ v.connections
  users    : ∀ tm b, b ≠ c → b ∈ (v.terminals tm).users → b ∈ v.connections
  bindings : ∀ bd b f, b ≠ c → v.bindings bd b = some f → b ∈ v.connections

def Tells (v : NodeView) (es : List Effect) : Prop :=
  ∀ e ∈ es, e.Tells v

@[simp] theorem tells_nil : Tells v [] := by
  simp [Tells]

@[simp] theorem tells_append : Tells v (es ++ es') ↔ Tells v es ∧ Tells v es' :=
  List.forall_mem_append

@[simp] theorem tells_cons {e : Effect} : Tells v (e :: es) ↔ e.Tells v ∧ Tells v es :=
  List.forall_mem_cons

theorem tells_map_send {α : Type} {f : α → Conn} {m : α → Message} {as : List α}
    (h : ∀ a ∈ as, f a ∈ v.connections) : Tells v (as.map fun a => .send (f a) (m a)) := by
  intro e he
  obtain ⟨a, ha, rfl⟩ := List.mem_map.mp he
  exact h a ha

theorem tells_post {r : Role} {own remote : Id} {cs : List Fsm.Call} (h : c ∈ v.connections) :
    Tells v (post c r x own remote cs) :=
  tells_map_send fun _ _ => h

theorem lookup_of_mem_entries {m : FsmMap} {o : (_ : Conn) × Fsm} (h : o ∈ m.entries) : m.lookup o.1 = some o.2 :=
  AList.mem_lookup_iff.mpr h

theorem tells_released {d : Element NodeBindingInfo} (h : Alive c v)
    (hd : v.bindings bd = fun b => d.data.owningLeafs.lookup b) : Tells v (released d c) := by
  refine tells_map_send fun o ho => ?_
  obtain ⟨ho, hc⟩ := List.mem_filter.mp ho
  refine h.bindings bd o.1 o.2 (by simpa using hc) ?_
  rw [hd]
  exact lookup_of_mem_entries ho

-- What a function does that changes nothing but the state machines of users
def Unseen (n : Node) (s : Node × List Effect) : Prop :=
  s.1.view = n.view ∧ Tells n.view s.2

theorem Unseen.steps {s : Node × List Effect} (h : n.Unseen s) : Steps c n.view s.2 s.1.view :=
  h.1.symm ▸ .told h.2

theorem view_users_of_lookup (he : n.terminals.get? tm = some e) (hf : e.data.usingNodes.lookup b = some f) :
    b ∈ (n.view.terminals tm).users := by
  rw [view_terminals he]
  exact mem_keys_of_lookup hf

theorem unseen_abandonUsers {cs : List Conn} (h : n.Served nodes who) (ha : Alive c n.view) :
    (n.abandonUsers tm c cs).Returns n.Unseen := by
  induction cs generalizing n
  case nil          => exact .pure ⟨rfl, tells_nil⟩
  case cons b cs ih =>
    refine deref_returns.bind fun e he => deref_returns.bind fun f hf => ?_
    refine .ite (fun _ => ih h ha) fun hb => Returns.bind (fun _ => id) fun out hout => ?_
    obtain ⟨hs, hal⟩ := userState_destroyed ((h.users tm e he).states b f hf) hout
    refine .ite (fun _ => ?_) fun hna => absurd hal hna
    have hv := view_insertUser_of_mem (f := out.fsm) he (mem_keys_of_lookup hf)
    have hc := ha.users tm b (fun hbc => hb (.inl hbc)) (view_users_of_lookup he hf)
    refine (ih (h.modifyTerminal fun _ _ ho => ho.insertUser hs) (hv ▸ ha)).bind fun r hr => .pure ⟨hr.1.trans hv, ?_⟩
    exact tells_append.mpr ⟨tells_post hc, hv ▸ hr.2⟩

theorem unseen_updateUsersForAbandonedTerminal (h : n.Served nodes who) (ha : Alive c n.view) :
    (n.updateUsersForAbandonedTerminal tm c).Returns n.Unseen :=
  .bind' fun _ => unseen_abandonUsers h ha

theorem Kinds.owners_of_nodes (h : n.Kinds) (he : n.terminals.get? tm = some e) (hb : b ∈ e.data.owningNodes.keys) :
    ∃ f, (n.view.terminals tm).owners b = some f := by
  obtain ⟨f, hf⟩ := Option.isSome_iff_exists.mp (AList.lookup_isSome.mpr (AList.mem_keys.mpr hb))
  refine ⟨f, ?_⟩
  simp only [view_terminals he, shown, ownersMap, (h.terminals tm e he).2 b hb, if_true, hf]

theorem Kinds.owners_of_leafs (h : n.Kinds) (he : n.terminals.get? tm = some e) (hb : b ∈ e.data.owningLeafs.keys) :
    ∃ f, (n.view.terminals tm).owners b = some f := by
  obtain ⟨f, hf⟩ := Option.isSome_iff_exists.mp (AList.lookup_isSome.mpr (AList.mem_keys.mpr hb))
  refine ⟨f, ?_⟩
  simp only [view_terminals he, shown, ownersMap, (h.terminals tm e he).1 b hb, Bool.false_eq_true, if_false, hf]

-- The owners of a terminal that does not belong to the connection `c` any more
theorem Alive.owner {f : Fsm} (h : Alive c v) (hc : (v.terminals tm).owners c = none)
    (hb : (v.terminals tm).owners b = some f) : b ∈ v.connections := by
  refine h.owners tm b f (fun hbc => ?_) hb
  rw [hbc, hc] at hb
  cases hb

theorem mem_of_head? {α : Type} {as : List α} {a : α} (h : as.head? = some a) : a ∈ as := by
  rw [List.head?_eq_some_iff] at h
  obtain ⟨bs, rfl⟩ := h
  exact List.mem_cons_self

theorem unseen_updateLastOwningNode (hk : n.Kinds) (ha : Alive c n.view)
    (hc : (n.view.terminals tm).owners c = none) : (n.updateLastOwningNode tm).Returns n.Unseen := by
  refine deref_returns.bind fun e he => deref_returns.bind fun b hb => deref_returns.bind fun user hu => ?_
  refine .ite (fun _ => .pure ⟨rfl, tells_nil⟩) fun _ => .bind' fun out => .bind' fun _ => .pure ?_
  obtain ⟨f, hf⟩ := hk.owners_of_nodes he (mem_of_head? hb)
  exact ⟨view_insertUser_of_mem he (mem_keys_of_lookup hu), tells_post (ha.owner hc hf)⟩

theorem tells_releaseBindings (hk : n.Kinds) (ha : Alive c n.view)
    (hc : (n.view.terminals tm).owners c = none) : (n.releaseBindings tm bd c).Returns (Tells n.view) := by
  refine .ite (fun _ => .pure tells_nil) fun _ => deref_returns.bind fun e he => at!_returns.bind fun d hd => ?_
  refine .ite (fun _ => deref_returns.bind fun leaf hl => ?_) fun _ => .ite (fun _ => .pure ?_) fun _ => .pure tells_nil
  · obtain ⟨f, hf⟩ := hk.owners_of_leafs he (mem_of_head? hl)
    split
    · exact .pure tells_nil
    · exact .pure (tells_cons.mpr ⟨ha.owner hc hf, tells_nil⟩)
  · exact tells_released ha (view_bindings hd)

theorem lookup_of_keys_nil {m : FsmMap} (h : m.keys = []) : m.lookup b = none := by
  rw [AList.lookup_eq_none, AList.mem_keys, h]
  exact List.not_mem_nil

theorem shown_of_unused (h : e.data.owningLeafs.keys = [] ∧ e.data.owningNodes.keys = [] ∧ e.data.usingNodes.keys = [])
    (hb : e.data.binding = 0) : shown e.data = {} := by
  ext1
  case owners  =>
    funext b
    simp only [shown, ownersMap]
    split
    · exact lookup_of_keys_nil h.2.1
    · exact lookup_of_keys_nil h.1
  case users   => simp [shown, h.2.2]
  case binding => exact hb

theorem unseen_updateState (hb : ∀ e, n.terminals.get? tm = some e → Unowned e.data → e.data.binding = 0) :
    (n.updateState tm).Returns fun s => n.Unseen (s.1, s.2.1) := by
  refine deref_returns.bind fun e he => .ite (fun hu => .pure ⟨?_, ?_⟩) fun _ => .pure ⟨?_, tells_nil⟩
  · refine view_eraseTerminal fun e' he' => ?_
    cases he.symm.trans he'
    exact shown_of_unused hu (hb e he ⟨hu.1, hu.2.1⟩)
  · split
    · exact tells_nil
    · exact tells_cons.mpr ⟨trivial, tells_nil⟩
  · exact view_modifyTerminal_of_eq fun _ _ => rfl

theorem Consistent.unbound (h : n.Consistent p) (he : n.terminals.get? tm = some e) (hu : Unowned e.data) :
    e.data.binding = 0 :=
  (h.get? he).unbound ((h.get? he).hidden.mpr hu)

-- A terminal without owners loses its binding.
theorem disassociateTerminal_view :
    (n.disassociateTerminal tm).Returns fun m => m.view = n.view ∨ m.view = n.view.associate tm 0 := by
  refine deref_returns.bind fun e he => .ite (fun _ => .bind' fun d => .pure (.inr ?_)) fun _ => .pure (.inl rfl)
  have hv : (n.modifyBinding d.id ({ · with terminal := 0 })).view = n.view := view_setTerminal
  rw [← hv]
  exact view_setBinding he

theorem steps_disassociateTerminal (c : Conn)
    (ho : (n.view.terminals tm).owners = fun _ => none) :
    (n.disassociateTerminal tm).Returns fun m => Steps c n.view [] m.view ∧
      (m.view.terminals tm).owners = fun _ => none := by
  refine disassociateTerminal_view.imp fun m hm => ?_
  rcases hm with hm | hm
  · rw [hm]
    exact ⟨.nil, ho⟩
  · rw [hm, NodeView.associate_owners]
    exact ⟨.single (.associated (.inl ho)), ho⟩

theorem Kinds.dropOwner (h : n.Kinds) : (n.modifyTerminal tm (Node.dropOwner c)).Kinds where
  leafs     := h.leafs
  nodes     := h.nodes
  terminals := h.terminals.modify fun _ _ ho =>
    ⟨fun b hb => ho.1 b (mem_dropOwner_leafs hb).1, fun b hb => ho.2 b (mem_dropOwner_nodes hb).1⟩
  bindings  := h.bindings

theorem Consistent.kinds (h : n.Consistent p) : n.Kinds where
  leafs     := h.leafs
  nodes     := h.nodes
  terminals := h.terminals.mono fun _ ho => ⟨fun b hb => (ho.leafs b hb).1, fun b hb => (ho.nodes b hb).1⟩
  bindings  := h.bindings.mono fun _ ho b hb => (ho.leafs b hb).1

theorem owners_of_unowned (he : n.terminals.get? tm = some e) (hu : Unowned e.data) :
    (n.view.terminals tm).owners = fun _ => none := by
  funext b
  rw [view_terminals he]
  simp only [shown, ownersMap]
  split
  · exact lookup_of_keys_nil hu.2
  · exact lookup_of_keys_nil hu.1

theorem Alive.setOwner {f : Option Fsm} (h : Alive c v) : Alive c (v.setOwner tm c f) := by
  refine ⟨fun i b g hb hg => ?_, fun i b hb hu => ?_, h.bindings⟩
  · rw [NodeView.setOwner_owners, if_neg fun hi => hb hi.2] at hg
    exact h.owners i b g hb hg
  · rw [NodeView.setOwner_users] at hu
    exact h.users i b hb hu

theorem Alive.setBindingOwner {f : Option Fsm} (h : Alive c v) : Alive c (v.setBindingOwner bd c f) := by
  refine ⟨h.owners, h.users, fun i b g hb hg => ?_⟩
  rw [NodeView.setBindingOwner_bindings, if_neg fun hi => hb hi.2] at hg
  exact h.bindings i b g hb hg

theorem Alive.addUsers {cs : Set Conn} (h : Alive c v) (hcs : cs ⊆ v.connections) : Alive c (v.addUsers tm cs) := by
  refine ⟨fun i b f hb hf => h.owners i b f hb (by rwa [NodeView.addUsers_owners] at hf), fun i b hb hu => ?_,
    h.bindings⟩
  rcases NodeView.mem_addUsers.mp hu with hu | ⟨_, hu⟩
  · exact h.users i b hb hu
  · exact hcs hu

theorem Alive.associate (h : Alive c v) : Alive c (v.associate tm bd) := by
  refine ⟨fun i b f hb hf => h.owners i b f hb (by rwa [NodeView.associate_owners] at hf), fun i b hb hu => ?_,
    h.bindings⟩
  rw [NodeView.associate_users] at hu
  exact h.users i b hb hu

theorem Alive.connect {cs : Set Conn} (h : Alive c v) (hcs : ∀ b, b ≠ c → (b ∈ cs ↔ b ∈ v.connections)) :
    Alive c { v with connections := cs } where
  owners i b f hb hf   := (hcs b hb).mpr (h.owners i b f hb hf)
  users i b hb hu      := (hcs b hb).mpr (h.users i b hb hu)
  bindings i b f hb hf := (hcs b hb).mpr (h.bindings i b f hb hf)

theorem Alive.of_step {v' : NodeView} (h : Alive c v) (hs : Step c v es v') : Alive c v' := by
  cases hs
  case told                    => exact h
  case userAdded               => exact h
  case inserted                => exact h
  case ownerAdded              => exact h.setOwner
  case ownerRemapped           => exact h.setOwner
  case ownerKept               => exact h.setOwner
  case ownerRemoved            => exact h.setOwner
  case bindingOwnerAdded       => exact h.setBindingOwner
  case bindingOwnerRemapped    => exact h.setBindingOwner
  case bindingOwnerKept        => exact h.setBindingOwner
  case bindingOwnerRemoved     => exact h.setBindingOwner
  case users tm cs hcs         => exact h.addUsers hcs
  case associated              => exact h.associate
  case userRemoved tm hm       =>
    refine ⟨fun i b f hb hf => h.owners i b f hb (by rwa [NodeView.removeUser_owners] at hf), fun i b hb hu => ?_,
      h.bindings⟩
    exact h.users i b hb (NodeView.mem_removeUser.mp hu).1

theorem Alive.of_steps {v' : NodeView} (h : Alive c v) (hs : Steps c v es v') : Alive c v' :=
  hs.preserves h fun hs h => h.of_step hs

theorem steps_terminalOwnerRemoved (h : n.Consistent (p.owning tm c)) (hs : n.Served nodes who)
    (ha : Alive c n.view) (he : n.terminals.get? tm = some e) (hc : c ∈ ownersMap e.data c) (ht : tm ∉ p.states)
    (hx : p.pairs = ∅) :
    ((n.modifyTerminal tm (Node.dropOwner c)).terminalOwnerRemoved tm c).Returns fun s =>
      Steps c n.view s.2 s.1.view := by
  have hst : e.data.state = stateOf e.data := (h.get? he).state (Register.get?_id he ▸ ht)
  have hp : e.identifier ∉ p.pairs := hx ▸ Set.notMem_empty _
  obtain ⟨f, hf⟩ := Option.isSome_iff_exists.mp (AList.lookup_isSome.mpr hc)
  have hv : (n.modifyTerminal tm (Node.dropOwner c)).view = n.view.setOwner tm c none := view_dropOwner he
  have hfirst : Steps c n.view
      [.call (n.modifyTerminal tm (Node.dropOwner c)) (.terminalOwnerRemoved c tm)]
      (n.modifyTerminal tm (Node.dropOwner c)).view := by
    rw [hv]
    refine .single (.ownerRemoved (f := f) ?_ ⟨hv, h.kinds.dropOwner⟩)
    rw [view_terminals he]
    exact hf
  have hc₀ : ((n.modifyTerminal tm (Node.dropOwner c)).view.terminals tm).owners c = none := by
    rw [hv, NodeView.setOwner_owners, if_pos ⟨rfl, rfl⟩]
  refine deref_returns.bind fun e' he' => ?_
  extract_lets bindingId next
  have hnext (s : Node × List Effect) (hcons : s.1.Consistent (p.opened tm))
      (hsteps : Steps c (n.modifyTerminal tm (Node.dropOwner c)).view s.2 s.1.view)
      (hoc : (s.1.view.terminals tm).owners c = none) :
      (next s).Returns fun s => Steps c n.view s.2 s.1.view := by
    have hpre := hfirst.append hsteps
    refine ((unseen_updateState fun _ he hu => hcons.unbound he hu).and hcons.updateState).bind fun u h₂ => ?_
    obtain ⟨n₂, known, alive⟩ := u
    obtain ⟨h₁, h₂, _⟩ := h₂
    have hpre₂ := hpre.append (Unseen.steps h₁)
    have hv₂ : n₂.view = s.1.view := h₁.1
    have ha₂ : Alive c n₂.view := ha.of_steps hpre₂
    have hoc₂ : (n₂.view.terminals tm).owners c = none := hv₂ ▸ hoc
    refine .ite (fun _ => .ite (fun _ => .pure hpre₂) fun _ => at!_returns.bind fun bd hbd => .pure ?_) fun _ => ?_
    · exact hpre₂.append (.told (tells_released ha₂ (view_bindings hbd)))
    refine deref_returns.bind fun e₂ he₂ => ?_
    extract_lets last
    have hlast (t : Node × List Effect) (h₃ : t.1.Consistent p) (ht : n₂.Unseen t) :
        (last t).Returns fun s => Steps c n.view s.2 s.1.view := by
      have ha₃ : Alive c t.1.view := ht.1 ▸ ha₂
      have hoc₃ : (t.1.view.terminals tm).owners c = none := ht.1 ▸ hoc₂
      refine (tells_releaseBindings h₃.kinds ha₃ hoc₃).bind fun bindings hb => ?_
      extract_lets finish
      have hpre₃ := (hpre₂.append (Unseen.steps ht)).append (.told hb)
      refine .ite (fun hh => ?_) fun _ => .pure hpre₃
      have hu : (t.1.view.terminals tm).owners = fun _ => none :=
        ht.1 ▸ owners_of_unowned he₂ ((h₂.get? he₂).hidden.mp hh)
      refine (steps_disassociateTerminal c hu).bind fun m hm => .pure ?_
      exact hpre₃.trailing hm.1
    refine .ite (fun hs => ?_) fun _ => ?_
    · exact (h₂.updateLastOwningNode.and (unseen_updateLastOwningNode h₂.kinds ha₂ hoc₂)).bind fun t ht =>
        hlast t ht.1 ht.2
    · exact (Returns.pure (P := (· = (n₂, []))) rfl).bind fun t ht => hlast t (ht ▸ h₂) (ht ▸ ⟨rfl, tells_nil⟩)
  have hdrop := unowned_dropOwner_iff hc
  have hst' : e'.data.state = stateOf e.data := by
    simp only [Node.modifyTerminal, Register.get?_modify, he, if_true, Option.map_some, Option.some.injEq] at he'
    rw [← he', Element.modify_data, dropOwner_state, hst]
  have hmore (hu : ¬Unowned (Node.dropOwner c e.data)) :
      Returns ((pure (n.modifyTerminal tm (Node.dropOwner c), []) : Result) >>= next) fun s =>
        Steps c n.view s.2 s.1.view :=
    (Returns.pure (P := (· = (n.modifyTerminal tm (Node.dropOwner c), []))) rfl).bind fun t ht =>
      hnext t (ht ▸ h.dropOwner he hc hu) (ht ▸ .nil) (ht ▸ hc₀)
  have hlast (hu : Unowned (Node.dropOwner c e.data)) : Returns (Node.disassociateTerminal
      { n with terminals := (n.terminals.modify tm (Node.dropOwner c)).hide tm } tm >>= fun m =>
      m.updateUsersForAbandonedTerminal tm c >>= next) fun s => Steps c n.view s.2 s.1.view := by
    have hh : { n with terminals := (n.terminals.modify tm (Node.dropOwner c)).hide tm }.view =
        (n.modifyTerminal tm (Node.dropOwner c)).view :=
      view_hide (n := n.modifyTerminal tm (Node.dropOwner c))
    have hu' : ((n.modifyTerminal tm (Node.dropOwner c)).view.terminals tm).owners = fun _ => none := by
      refine owners_of_unowned (e := e.modify (Node.dropOwner c)) ?_ hu
      simp only [Node.modifyTerminal, Register.get?_modify, if_true, he, Option.map_some]
    have hd : Returns (Node.disassociateTerminal
        { n with terminals := (n.terminals.modify tm (Node.dropOwner c)).hide tm } tm) fun m =>
        Steps c (n.modifyTerminal tm (Node.dropOwner c)).view [] m.view ∧
        (m.view.terminals tm).owners = fun _ => none := by
      rw [← hh]
      exact steps_disassociateTerminal c (hh ▸ hu')
    refine ((hd.and hs.hide.disassociateTerminal).and (h.disassociateTerminal he hc hu hp)).bind fun m hm => ?_
    obtain ⟨⟨⟨hsteps, ho⟩, hserved⟩, hcons⟩ := hm
    have ham : Alive c m.view := (ha.of_steps hfirst).of_steps hsteps
    refine ((unseen_updateUsersForAbandonedTerminal hserved ham).and
      (hcons.updateUsersForAbandonedTerminal (.inl rfl))).bind fun t ht => hnext t ht.2 (hsteps.append ht.1.steps) ?_
    rw [ht.1.1, ho]
  rw [hst']
  split
  case h_1 hs => exact hlast (hdrop.mpr (.inl hs))
  case h_2 hs => exact hlast (hdrop.mpr (.inr hs))
  case h_3 hs => exact hmore (by rw [hdrop, hs]; simp)
  case h_4 hs => exact hmore (by rw [hdrop, hs]; simp)
  case h_5 hs => exact hmore (by rw [hdrop, hs]; simp)
  case h_6    => exact .error
  case h_7    => exact .error

-- Owners of terminals and bindings are mapped.
structure Mapped (v : NodeView) : Prop where
  owners   : ∀ tm b f, (v.terminals tm).owners b = some f → f.Owning
  bindings : ∀ bd b f, v.bindings bd b = some f → f.Owning

theorem Mapped.of_step {v' : NodeView} (h : Mapped v) (hs : Step c v es v') : Mapped v' := by
  have owner {tm : Id} {f : Option Fsm} (hf : ∀ g, f = some g → g.Owning) : Mapped (v.setOwner tm c f) := by
    refine ⟨fun i b g hg => ?_, h.bindings⟩
    rw [NodeView.setOwner_owners] at hg
    split at hg
    · exact hf g hg
    · exact h.owners i b g hg
  have binding {bd : Id} {f : Option Fsm} (hf : ∀ g, f = some g → g.Owning) : Mapped (v.setBindingOwner bd c f) := by
    refine ⟨h.owners, fun i b g hg => ?_⟩
    rw [NodeView.setBindingOwner_bindings] at hg
    split at hg
    · exact hf g hg
    · exact h.bindings i b g hg
  have same {f : Fsm} (hf : f.Owning) (g : Fsm) (hg : some f = some g) : g.Owning := Option.some.inj hg ▸ hf
  cases hs
  case told                    => exact h
  case userAdded               => exact h
  case inserted                => exact h
  case ownerAdded hf _ _       => exact owner (same hf)
  case ownerRemapped hf _ _    => exact owner (same hf)
  case ownerKept hf _          => exact owner (same hf)
  case ownerRemoved            => exact owner (by simp)
  case bindingOwnerAdded       => exact binding (same ‹_›)
  case bindingOwnerRemapped    => exact binding (same ‹_›)
  case bindingOwnerKept hf _   => exact binding (same hf)
  case bindingOwnerRemoved     => exact binding (by simp)
  case users                   =>
    exact ⟨fun i b f hf => h.owners i b f (by rwa [NodeView.addUsers_owners] at hf), h.bindings⟩
  case userRemoved             =>
    exact ⟨fun i b f hf => h.owners i b f (by rwa [NodeView.removeUser_owners] at hf), h.bindings⟩
  case associated              =>
    exact ⟨fun i b f hf => h.owners i b f (by rwa [NodeView.associate_owners] at hf), h.bindings⟩

theorem Mapped.of_steps {v' : NodeView} (h : Mapped v) (hs : Steps c v es v') : Mapped v' :=
  hs.preserves h fun hs h => h.of_step hs

theorem view_owner (he : n.terminals.get? tm = some e) (hf : (ownersMap e.data c).lookup c = some f) :
    (n.view.terminals tm).owners c = some f := by
  rw [view_terminals he]
  exact hf

theorem kept_of_processRcvdRemoved {out : Fsm.Outcome} (hf : f.Owning) (h : f.processRcvdRemoved = .ok out) :
    (out.fsm.Owning ∧ out.fsm.mappedId = f.mappedId ∧ out.calls = []) ∨
      out.fsm.isMapped = false ∧ out.calls = [.sendRemAck f.mappedId, .mappStCh false] := by
  simp only [Fsm.processRcvdRemoved, hf.state] at h
  split at h
  · cases h
    exact .inl ⟨⟨rfl, hf.mappedId⟩, rfl, rfl⟩
  · cases h
    exact .inr ⟨rfl, rfl⟩

theorem steps_removeTerminalOwner {broken : Bool} (h : n.Consistent (p.owning tm c)) (hs : n.Served nodes who)
    (ha : Alive c n.view) (hm : Mapped n.view) (hc : broken = false → c ∈ n.view.connections) (ht : tm ∉ p.states)
    (hx : p.pairs = ∅) :
    (n.removeTerminalOwner tm c broken).Returns fun s => Steps c n.view s.2 s.1.view := by
  refine deref_returns.bind fun e he => ?_
  split
  case h_1 hl => exact .ite (fun _ => .pure .nil) fun _ => .error
  case h_2 f hf =>
    have hr : ((n.modifyTerminal tm (Node.dropOwner c)).terminalOwnerRemoved tm c).Returns fun s =>
        Steps c n.view s.2 s.1.view :=
      steps_terminalOwnerRemoved h hs ha he (mem_keys_of_lookup hf) ht hx
    refine .ite (fun _ => hr) fun hb => Returns.bind (fun _ => id) fun out hout => ?_
    have hsend : Tells n.view (post c .binding e.identifier tm 0 out.calls) :=
      tells_post (hc (Bool.eq_false_iff.mpr hb))
    have hfo := view_owner he hf
    rcases kept_of_processRcvdRemoved (hm.owners tm c f hfo) hout with ⟨hk, hi, hcalls⟩ | ⟨_, hcalls⟩
    case inl =>
      refine .ite (fun _ => .pure ?_) fun hn => absurd (by rw [hcalls]; rfl) hn
      rw [view_insertOwner he]
      exact (Steps.told hsend).trailing (.single (.ownerKept hfo hk hi))
    case inr =>
      refine .ite (fun hn => absurd hn (by rw [hcalls]; simp)) fun _ => hr.bind fun r hr => .pure ?_
      exact (Steps.told hsend).append hr

theorem forEach_steps (c : Conn) {P : List Id → Node → Prop} {F : Node → NodeView} {g : Node → Id → Result}
    (hg : ∀ n i is, P (i :: is) n → (g n i).Returns fun s => P is s.1 ∧ Steps c (F n) s.2 (F s.1)) (is : List Id)
    (h : P is n) : (forEach g n is).Returns fun s => P [] s.1 ∧ Steps c (F n) s.2 (F s.1) := by
  induction is generalizing n
  case nil          => exact .ok ⟨h, .nil⟩
  case cons i is ih =>
    exact (hg n i is h).bind fun r hr => (ih hr.1).bind fun s hs => .pure ⟨hs.1, hr.2.append hs.2⟩

-- What a node looks like once the connections are those that are left behind an event
def connected (n n' : Node) : NodeView :=
  { n.view with connections := n'.view.connections }

-- What an event of the connection `c` does to a node
structure Reaction (c : Conn) (n : Node) (s : Node × List Effect) : Prop where
  others : ∀ b, b ≠ c → (b ∈ s.1.view.connections ↔ b ∈ n.view.connections)
  steps  : Steps c (n.connected s.1) s.2 s.1.view

-- The connection becomes a user of every visible terminal before it is one of the connections.
theorem onConnectionStarted_reaction : (n.onConnectionStarted c).Returns (Reaction c n) := by
  refine .ite (fun hn => ?_) fun hn => .bind' fun _ => .pure ⟨fun b hb => ?_, .nil⟩
  case refine_2 => simp only [view, connections, Set.mem_ofPred_eq, List.mem_append, List.mem_singleton, hb, or_false]
  let cs : Set Conn := {b | b ∈ n.leafConnections ++ (n.nodeConnections ++ [c])}
  have hc : c ∈ cs := by simp [cs]
  refine (forEach_steps c (P := fun _ m => m.leafConnections = n.leafConnections ∧
    m.nodeConnections = n.nodeConnections) (F := fun m => { m.view with connections := cs })
    (fun m tm _ hm => ?_) _ ⟨rfl, rfl⟩).bind fun r hr => .bind' fun _ => .pure ?_
  case refine_1.refine_1 =>
    refine deref_returns.bind fun e he => .ite (fun _ => .pure ⟨hm, .nil⟩) fun _ => .bind' fun _ => .pure ⟨hm, ?_⟩
    have hv : (m.describe tm e.identifier c).1.view = m.view.addUsers tm {c} := view_insertUser he
    have husers : Steps c { m.view with connections := cs } []
        { (m.describe tm e.identifier c).1.view with connections := cs } := by
      rw [hv]
      exact .single (.users (Set.singleton_subset_iff.mpr hc))
    have htold : Tells { m.view with connections := cs } (m.describe tm e.identifier c).2 := tells_post hc
    exact ((Steps.told htold).append husers).append (.single .userAdded)
  case refine_1.refine_2 =>
    obtain ⟨⟨hl, hno⟩, hs⟩ := hr
    have hlast : { r.1 with nodeConnections := r.1.nodeConnections ++ [c] }.view =
        { r.1.view with connections := cs } := by
      simp only [view, connections, cs, hl, hno]
    refine ⟨fun b hb => ?_, ?_⟩
    · rw [hlast]
      simp only [cs, view, connections, Set.mem_ofPred_eq, List.mem_append, List.mem_singleton, hb, or_false]
    · simp only [connected, hlast]
      exact hs

-- The terminals of a binding are those that refer to it.
theorem Consistent.refers (h : n.Consistent p) (hx : p.pairs = ∅) : n.view.Refers n bd := by
  intro d hd tm ht
  have hbd := Register.get?_ne_zero hd
  have hpair (x : Identifier) : x ∉ p.pairs := hx ▸ Set.notMem_empty x
  have hterminal := (h.bindings bd d hd).terminal (hpair _)
  refine ⟨fun hb => ?_, fun hd' => ?_⟩
  case refine_1 =>
    cases he : n.terminals.get? tm
    case none   =>
      rw [view_terminals_none he] at hb
      exact absurd hb.symm hbd
    case some e =>
      rw [view_terminals he] at hb
      have hb' : e.data.binding = bd := hb
      have hh : e.hidden = false :=
        Bool.eq_false_iff.mpr fun hh => hbd (hb'.symm.trans ((h.get? he).unbound hh))
      have hf := (h.get? he).binding hh (hpair _)
      have hm : n.bindings.map e.identifier = some bd := by
        rw [hb'] at hf
        rw [hf]
        exact found_of_ne_zero (hf ▸ hbd)
      obtain ⟨d', hd', hxd, _⟩ := n.bindings.map_iff.mp hm
      cases hd.symm.trans hd'
      rw [hterminal, hxd, n.terminals.map_iff.mpr ⟨e, he, rfl, hh⟩, Option.getD_some]
  case refine_2 =>
    have hm : n.terminals.map d.identifier = some tm := by
      rw [hd'] at hterminal
      rw [hterminal]
      exact found_of_ne_zero (hterminal ▸ ht)
    obtain ⟨e, he, hxe, hh⟩ := n.terminals.map_iff.mp hm
    have hmb : n.bindings.map e.identifier = some bd :=
      n.bindings.map_iff.mpr ⟨d, hd, hxe.symm, (h.bindings bd d hd).visible⟩
    have hb : e.data.binding = bd := by
      rw [(h.get? he).binding hh (hpair _), hmb, Option.getD_some]
    rw [view_terminals he]
    exact hb

theorem view_bindings_zero : n.view.bindings 0 = fun _ => none := by
  cases hd : n.bindings.get? 0
  case none   => exact view_bindings_none hd
  case some d => exact absurd rfl (Register.get?_ne_zero hd)

-- A binding without owners is erased.
theorem steps_eraseBinding (c : Conn) (hr : n.view.Refers n bd) (ho : n.view.bindings bd = fun _ => none) :
    (n.disassociateBinding bd).Returns fun m =>
      Steps c n.view [] { m with bindings := m.bindings.erase bd }.view := by
  refine deref_returns.bind fun d hd => .ite (fun ht => at!_returns.bind fun e he => .pure ?_) fun _ => .pure ?_
  case refine_2 =>
    rw [view_eraseBinding ho]
    exact .nil
  case refine_1 =>
    have hi : e.id = d.data.terminal := Register.get?_id he
    have hb := (hr d hd d.data.terminal ht).mpr rfl
    have hv : ((n.modifyTerminal e.id ({ · with binding := 0 })).modifyBinding bd ({ · with terminal := 0 })).view =
        n.view.associate d.data.terminal 0 := by
      rw [view_setTerminal, hi]
      exact view_setBinding he
    rw [view_eraseBinding (by rw [hv]; exact ho), hv]
    refine .single (.associated (.inr ⟨?_, view_bindings_zero⟩))
    rw [hb, ho]

theorem Kinds.eraseBindingOwner (h : n.Kinds) :
    (n.modifyBinding bd fun d => { d with owningLeafs := d.owningLeafs.erase c }).Kinds where
  leafs     := h.leafs
  nodes     := h.nodes
  terminals := h.terminals
  bindings  := h.bindings.modify fun _ _ ho b hb => ho b (by
    rw [Element.modify_data, AList.keys_erase] at hb
    exact List.mem_of_mem_erase hb)

theorem view_bindings_of_nil {d : Element NodeBindingInfo} (hd : n.bindings.get? bd = some d)
    (hk : d.data.owningLeafs.keys = []) : n.view.bindings bd = fun _ => none := by
  rw [view_bindings hd]
  exact funext fun b => lookup_of_keys_nil hk

theorem refers_modifyBinding {g : NodeBindingInfo → NodeBindingInfo} (h : v.Refers n bd)
    (hg : ∀ d, (g d).terminal = d.terminal) : v.Refers (n.modifyBinding bd g) bd := by
  intro d hd tm ht
  simp only [modifyBinding, Register.get?_modify, if_true, Option.map_eq_some_iff] at hd
  obtain ⟨d, hd, rfl⟩ := hd
  rw [Element.modify_data, hg]
  exact h d hd tm ht

-- The owner `c` of a binding is removed, and the binding if there is no other.
theorem steps_removeBindingOwner {d : Element NodeBindingInfo} (hr : n.view.Refers n bd) (hk : n.Kinds)
    (hd : n.bindings.get? bd = some d) (hf : d.data.owningLeafs.lookup c = some f) :
    Steps c n.view
      [.call (n.modifyBinding bd fun d => { d with owningLeafs := d.owningLeafs.erase c }) (.bindingOwnerRemoved c bd)]
      (n.modifyBinding bd fun d => { d with owningLeafs := d.owningLeafs.erase c }).view := by
  have hv : (n.modifyBinding bd fun d => { d with owningLeafs := d.owningLeafs.erase c }).view =
      n.view.setBindingOwner bd c none := view_eraseBindingOwner hd
  rw [hv]
  refine .single (.bindingOwnerRemoved (f := f) ?_ ⟨hv, hk.eraseBindingOwner⟩ ?_)
  · rw [view_bindings hd]
    exact hf
  · exact refers_modifyBinding hr fun _ => rfl

theorem steps_leaveBinding (h : n.Consistent p) (hx : p.pairs = ∅) :
    (Node.leaveBinding c n bd).Returns fun s => Steps c n.view s.2 s.1.view := by
  refine deref_returns.bind fun d hd => ?_
  extract_lets m called
  have hr : n.view.Refers n bd := h.refers hx
  have hv : m.view = n.view.setBindingOwner bd c none := view_eraseBindingOwner hd
  have hcalled : Steps c n.view called m.view := by
    cases hf : d.data.owningLeafs.lookup c
    case some f =>
      simp only [called, hf, Option.isSome_some, if_true]
      exact steps_removeBindingOwner hr h.kinds hd hf
    case none   =>
      have hsame : m.view = n.view := by
        rw [hv]
        ext1
        case connections => rfl
        case terminals   => rfl
        case bindings    =>
          funext i b
          rw [NodeView.setBindingOwner_bindings]
          split
          case isFalse   => rfl
          case isTrue hi =>
            rw [hi.1, hi.2, view_bindings hd]
            exact hf.symm
      simp only [called, hf, Option.isSome_none, Bool.false_eq_true, if_false]
      rw [hsame]
      exact .nil
  have hd' : m.bindings.get? bd =
      some (d.modify fun d => { d with owningLeafs := d.owningLeafs.erase c }) := by
    simp only [m, Node.modifyBinding, Register.get?_modify, if_true, hd, Option.map_some]
  refine .ite (fun hk => ?_) fun _ => .pure hcalled
  have hr' : m.view.Refers m bd := by
    rw [hv]
    exact refers_modifyBinding hr fun _ => rfl
  refine (steps_eraseBinding c hr' (view_bindings_of_nil hd' hk)).bind fun m' hm' => .pure ?_
  exact hcalled.trailing hm'

theorem steps_leaveTerminal {T : Set Id} (h : n.Consistent (leaving c ∅ (insert tm T))) (hs : n.Served nodes who)
    (hc : ∀ i, ¬who i c) (ha : Alive c n.view) (hm : Mapped n.view) :
    (Node.leaveTerminal c n tm).Returns fun s => Steps c n.view s.2 s.1.view := by
  have hu := h.eraseUser
  have hs' : (n.modifyTerminal tm fun d => { d with usingNodes := d.usingNodes.erase c }).Served nodes who :=
    hs.eraseUser hc
  have hv : (n.modifyTerminal tm fun d => { d with usingNodes := d.usingNodes.erase c }).view =
      n.view.removeUser tm c := view_eraseUser
  have hcalled : Steps c n.view
      [.call (n.modifyTerminal tm fun d => { d with usingNodes := d.usingNodes.erase c }) (.terminalUserRemoved c tm)]
      (n.modifyTerminal tm fun d => { d with usingNodes := d.usingNodes.erase c }).view := by
    rw [hv]
    exact .single (.userRemoved ⟨hv, hu.kinds⟩)
  simp only [Node.leaveTerminal]
  refine ((hu.updateState.and hs'.updateState).and
    (unseen_updateState fun _ he hn => hu.unbound he hn)).bind fun u h₁ => ?_
  obtain ⟨m₁, known, alive⟩ := u
  obtain ⟨⟨h₁, hs₁⟩, hv₁⟩ := h₁
  have hpre := hcalled.append hv₁.steps
  refine .ite (fun _ => ?_) fun _ => .pure hpre
  have hr : (m₁.removeTerminalOwner tm c true).Returns fun s => Steps c m₁.view s.2 s.1.view :=
    steps_removeTerminalOwner h₁.1 hs₁ (ha.of_steps hpre) (hm.of_steps hpre) (fun hb => Bool.noConfusion hb)
      (Set.notMem_empty _) rfl
  exact hr.bind fun r hr => .pure (hpre.append hr)

theorem Consistent.alive (h : n.Consistent {}) : Alive c n.view := by
  refine ⟨fun tm b f _ hf => ?_, fun tm b _ hu => ?_, fun bd b f _ hf => ?_⟩
  case refine_1 =>
    cases he : n.terminals.get? tm
    case none   =>
      rw [view_terminals_none he] at hf
      cases hf
    case some e =>
      rw [view_terminals he] at hf
      have hb : b ∈ (ownersMap e.data b).keys := mem_keys_of_lookup hf
      simp only [ownersMap] at hb
      split at hb
      · exact ((h.get? he).nodes b hb).2.resolve_right (Set.notMem_empty _)
      · exact ((h.get? he).leafs b hb).2.resolve_right (Set.notMem_empty _)
  case refine_2 =>
    cases he : n.terminals.get? tm
    case none   =>
      rw [view_terminals_none he] at hu
      cases hu
    case some e =>
      rw [view_terminals he] at hu
      exact ((h.get? he).users b hu).2.resolve_right (Set.notMem_empty _)
  case refine_3 =>
    cases hd : n.bindings.get? bd
    case none   =>
      rw [view_bindings_none hd] at hf
      cases hf
    case some d =>
      rw [view_bindings hd] at hf
      exact ((h.bindings bd d hd).leafs b (mem_keys_of_lookup hf)).2.resolve_right (Set.notMem_empty _)

-- The connections without `c`
def leave (c : Conn) (n : Node) : Node :=
  if c.remoteIsNode then { n with nodeConnections := n.nodeConnections.erase c }
  else { n with leafConnections := n.leafConnections.erase c }

theorem view_leave : (n.leave c).view = n.connected (n.leave c) := by
  rw [leave]
  split
  all_goals rfl

theorem connections_leave (hb : b ≠ c) : b ∈ (n.leave c).view.connections ↔ b ∈ n.view.connections := by
  rw [leave]
  split
  all_goals simp only [view, connections, Set.mem_ofPred_eq, List.mem_append, List.mem_erase_of_ne hb]

theorem Consistent.onConnectionDestroyed_reaction (h : n.Consistent {}) (hi : n.Informed) (hm : Mapped n.view) :
    (n.onConnectionDestroyed c).Returns (Reaction c n) := by
  refine .ite (fun _ => .pure ⟨fun _ _ => Iff.rfl, .nil⟩) fun _ => ?_
  obtain ⟨nodes, hd, hs⟩ := hi
  obtain ⟨nodes, hc, hd, hserved⟩ := hs.leave (c := c) h hd
  have hstart := h.leave (c := c)
  extract_lets m
  have hm₀ : m = n.leave c := rfl
  have hview : m.view = n.connected m := hm₀ ▸ view_leave
  have halive : Alive c m.view := by
    rw [hview]
    exact h.alive.connect fun b hb => hm₀ ▸ connections_leave hb
  have hmapped : Mapped m.view := by
    rw [hview]
    exact ⟨hm.owners, hm.bindings⟩
  refine (forEach_steps c (P := fun bs m => m.Consistent (leaving c {i | i ∈ bs} Set.univ) ∧
    m.Served nodes fun _ b => b ∈ nodes) (F := view) (fun n bd bs hb => ?_) _
    ⟨hstart.narrow.mono (leaving_le Set.inter_subset_right (Set.subset_univ _)), hserved⟩).bind fun r hr => ?_
  case refine_1 =>
    obtain ⟨hb, hs⟩ := hb
    rw [setOf_mem_cons] at hb
    exact (hb.leaveBinding.and hs.leaveBinding).and (steps_leaveBinding hb rfl)
  obtain ⟨⟨hr, hsr⟩, hpre⟩ := hr
  refine (forEach_steps c (P := fun ts m => (m.Consistent (leaving c ∅ {i | i ∈ ts}) ∧
    m.Served nodes fun _ b => b ∈ nodes) ∧ Alive c m.view ∧ Mapped m.view) (F := view) (fun n tm ts ht => ?_) _
    ⟨⟨hr.narrow.mono (leaving_le ?_ Set.inter_subset_right), hsr⟩, halive.of_steps hpre, hmapped.of_steps hpre⟩).bind
    fun s hs => .pure ?_
  case refine_1 =>
    obtain ⟨⟨ht, hs⟩, ha, hm⟩ := ht
    rw [setOf_mem_cons] at ht
    refine ((ht.leaveTerminal.and (hs.leaveTerminal fun _ => hc)).and
      (steps_leaveTerminal ht hs (fun _ => hc) ha hm)).imp fun s hs => ⟨⟨hs.1, ?_⟩, hs.2⟩
    exact ⟨ha.of_steps hs.2, hm.of_steps hs.2⟩
  case refine_2 => exact fun _ hi => absurd hi.1 List.not_mem_nil
  case refine_3 =>
    have hall := hpre.append hs.2
    refine ⟨fun b hb => ?_, ?_⟩
    · rw [hall.connections_eq]
      exact connections_leave hb
    · rw [connected, hall.connections_eq]
      exact hview ▸ hall

theorem Tells.congr {v' : NodeView} (h : Tells v es) (hc : v.connections = v'.connections) : Tells v' es := by
  intro e he
  have hm := h e he
  cases e
  case send                  =>
    change _ ∈ v'.connections
    rw [← hc]
    exact hm
  case knownTerminalsChanged => exact hm
  case terminalInserted      => exact hm
  case call                  => exact hm

theorem describeToAll_view {cs : List Conn} (he : n.terminals.get? tm = some e) :
    (n.describeToAll tm x cs).1.view = n.view.addUsers tm {b | b ∈ cs} := by
  induction cs generalizing n e
  case nil          =>
    have hn : {b : Conn | b ∈ ([] : List Conn)} = ∅ := by simp
    rw [hn, NodeView.addUsers_empty]
    rfl
  case cons c cs ih =>
    have he' : (n.describe tm x c).1.terminals.get? tm = some
        (e.modify fun d => { d with usingNodes := d.usingNodes.insert c (Fsm.reset {} false).fsm }) := by
      simp only [describe, modifyTerminal, Register.get?_modify, if_true, he, Option.map_some]
    have hv : (n.describe tm x c).1.view = n.view.addUsers tm {c} := view_insertUser he
    refine (ih he').trans ?_
    rw [hv, NodeView.addUsers_addUsers, setOf_mem_cons, Set.insert_eq]

theorem tells_describeToAll {cs : List Conn} (h : ∀ b ∈ cs, b ∈ v.connections) :
    Tells v (n.describeToAll tm x cs).2 := by
  induction cs generalizing n
  case nil          => exact tells_nil
  case cons c cs ih =>
    obtain ⟨hc, hcs⟩ := List.forall_mem_cons.mp h
    exact tells_append.mpr ⟨tells_post hc, ih hcs⟩

-- More users are told about a terminal.
theorem informUsers_view (hk : n.Kinds) (ha : Alive c n.view) : (n.informUsers tm c).Returns fun s =>
    ∃ cs ⊆ n.view.connections, s.1.view = n.view.addUsers tm cs ∧ Tells n.view s.2 := by
  refine deref_returns.bind fun e he => ?_
  have hsame : ∃ cs ⊆ n.view.connections, n.view = n.view.addUsers tm cs ∧ Tells n.view [] :=
    ⟨∅, Set.empty_subset _, NodeView.addUsers_empty.symm, tells_nil⟩
  split
  case h_1 =>
    have hc : ∀ b ∈ n.nodeConnections.filter (· ≠ c), b ∈ n.view.connections :=
      fun b hb => List.mem_append_right _ (List.mem_filter.mp hb).1
    exact .pure ⟨_, hc, describeToAll_view he, tells_describeToAll hc⟩
  case h_2 => exact .pure hsame
  case h_3 => exact .pure hsame
  case h_4 => exact .pure hsame
  case h_5 => exact .pure hsame
  case h_6 =>
    refine deref_returns.bind fun owner ho => .ite (fun _ => .pure ?_) fun _ => .pure hsame
    obtain ⟨f, hf⟩ := hk.owners_of_nodes he (List.mem_of_find?_eq_some ho)
    have hc := ha.owners tm owner f (by simpa using List.find?_some ho) hf
    exact ⟨{owner}, Set.singleton_subset_iff.mpr hc, view_insertUser he, tells_post hc⟩
  case h_7 => exact .error

theorem tells_established {d : Element NodeBindingInfo} (h : Alive c v)
    (hd : v.bindings bd = fun b => d.data.owningLeafs.lookup b) : Tells v (established d c) := by
  refine tells_map_send fun o ho => ?_
  obtain ⟨ho, hc⟩ := List.mem_filter.mp ho
  refine h.bindings bd o.1 o.2 (by simpa using hc) ?_
  rw [hd]
  exact lookup_of_mem_entries ho

theorem tells_establishBindings {o : Option Id} (ha : Alive c n.view) :
    (n.establishBindings tm o c).Returns (Tells n.view) := by
  cases o
  case none    => exact .pure tells_nil
  case some bd =>
    refine .bind' fun e => deref_returns.bind fun d hd => ?_
    refine .ite (fun _ => .pure (tells_established ha (view_bindings hd))) fun _ =>
      .ite (fun _ => ?_) fun _ => .pure tells_nil
    split
    case h_1         => exact .pure tells_nil
    case h_2 leaf hl =>
      split
      case h_1          => exact .pure tells_nil
      case h_2 owner ho =>
        refine .pure (tells_cons.mpr ⟨ha.bindings bd leaf owner (by simpa using List.find?_some hl) ?_, tells_nil⟩)
        rw [view_bindings hd]
        exact ho

theorem associateTerminal_view (he : n.terminals.get? tm = some e) : (n.associateTerminal tm).Returns fun s =>
    s.1.view = n.view ∨ e.data.binding = 0 ∧ ∃ d, n.bindings.find? e.identifier = some d ∧
      s.1.view = n.view.associate tm d.id := by
  refine deref_returns.bind fun e' he' => ?_
  cases he.symm.trans he'
  refine .ite (fun _ => ?_) fun hb => ?_
  · split
    · exact .error
    · exact .bind' fun _ => .pure (.inl rfl)
  · split
    case h_1 => exact .pure (.inl rfl)
    case h_2 d hd =>
      refine .pure (.inr ⟨not_not.mp hb, d, hd, ?_⟩)
      refine (view_setBinding (n := n.modifyBinding d.id ({ · with terminal := tm })) he).trans ?_
      rw [view_setTerminal]

-- The terminal that is described is either new or has been known before.
theorem Consistent.insert_cases (h : n.Consistent {})
    (he : (n.terminals.insert x {}).1.get? (n.terminals.insert x {}).2.1 = some e) :
    (n.terminals.insert x {}).2.2 = true ∧ n.terminals.get? (n.terminals.insert x {}).2.1 = none ∧ e.data = {} ∨
    (n.terminals.insert x {}).2.2 = false ∧ n.terminals.get? (n.terminals.insert x {}).2.1 = some e ∧
      e.hidden = false ∧ { n with terminals := (n.terminals.insert x {}).1 }.Consistent {} := by
  cases hf : n.terminals.find? x
  case none   =>
    obtain ⟨ht, _, hn, hg⟩ := Register.insert_of_find?_none (d := ({} : NodeTerminalInfo)) hf
    rw [hg, if_pos rfl, Option.some.injEq] at he
    exact .inl ⟨ht, hn, he ▸ rfl⟩
  case some d =>
    obtain ⟨hi, hg⟩ := Register.insert_of_find?_some (d := ({} : NodeTerminalInfo)) hf
    obtain ⟨hd, _, hh⟩ := Register.find?_eq_some_iff.mp hf
    rw [hg, hi] at he
    cases hd.symm.trans he
    exact .inr ⟨by rw [hi], by rw [hi]; exact hd, hh, h.insertTerminal_some hf⟩

theorem Kinds.insertOwner (h : n.Kinds) :
    (n.modifyTerminal tm fun d => setOwnersMap d c ((ownersMap d c).insert c f)).Kinds where
  leafs     := h.leafs
  nodes     := h.nodes
  bindings  := h.bindings
  terminals := h.terminals.modify fun _ _ ho => by
    refine ⟨fun b hb => ?_, fun b hb => ?_⟩
    · rcases mem_insertOwner_leafs hb with hb | ⟨rfl, hn⟩
      · exact ho.1 b hb
      · exact hn
    · rcases mem_insertOwner_nodes hb with hb | ⟨rfl, hn⟩
      · exact ho.2 b hb
      · exact hn

theorem Kinds.insertTerminal (h : n.Kinds) : { n with terminals := (n.terminals.insert x {}).1 }.Kinds where
  leafs     := h.leafs
  nodes     := h.nodes
  bindings  := h.bindings
  terminals := h.terminals.insert fun _ _ =>
    ⟨fun _ hb => absurd hb List.not_mem_nil, fun _ hb => absurd hb List.not_mem_nil⟩

theorem first_description {out : Fsm.Outcome} (h : Fsm.processRcvdDescription {} i = .ok out) (hi : i ≠ 0) :
    out.fsm.Owning ∧ out.fsm.mappedId = i ∧ oldMappedId out.calls = 0 := by
  cases h
  exact ⟨⟨rfl, hi⟩, rfl, rfl⟩

theorem next_description {out : Fsm.Outcome} (hf : f.Owning) (h : f.processRcvdDescription i = .ok out)
    (hi : i ≠ 0) : out.fsm.Owning ∧ out.fsm.mappedId = i ∧ oldMappedId out.calls ≠ 0 := by
  simp only [Fsm.processRcvdDescription, hf.state] at h
  cases h
  exact ⟨⟨rfl, hi⟩, rfl, hf.mappedId⟩

theorem associateTerminal_some : (n.associateTerminal tm).Returns fun s =>
    s.1.view = n.view ∨ ∃ bd, s.1.view = n.view.associate tm bd := by
  cases he : n.terminals.get? tm
  case none   =>
    rw [associateTerminal, he]
    exact .error
  case some e =>
    refine (associateTerminal_view he).imp fun s hs => hs.imp_right fun ha => ?_
    obtain ⟨_, d, _, hd⟩ := ha
    exact ⟨d.id, hd⟩

theorem Consistent.associateTerminal_same (h : n.Consistent p) (hx : p.pairs = ∅) (he : n.terminals.get? tm = some e)
    (hh : e.hidden = false) : (n.associateTerminal tm).Returns fun s => s.1.view = n.view := by
  refine (associateTerminal_view he).imp fun s hs => hs.resolve_right fun ho => ?_
  obtain ⟨hb, d, hd, _⟩ := ho
  have hf := (h.get? he).binding hh (hx ▸ Set.notMem_empty _)
  rw [hb, Register.map_eq_some hd] at hf
  exact Register.get?_ne_zero (Register.find?_eq_some_iff.mp hd).1 hf.symm

-- What follows the insertion of the owner `c` of the terminal `tm` of the node `n` until it is reported
theorem steps_ownerAdded {n₁ n₂ n₃ n₄ : Node} {users bindings known : List Effect} {cs : Set Conn} (hf : f.Owning)
    (hn : v.Unused c f.mappedId) (hc : c ∈ v.connections) (ho : (v.terminals tm).owners c = none)
    (hv₁ : n₁.view = v.setOwner tm c (some f)) (hcs : cs ⊆ v.connections) (hv₂ : n₂.view = n₁.view.addUsers tm cs)
    (hv₃ : n₃.view = n₂.view ∨ ((v.terminals tm).owners = fun _ => none) ∧ ∃ bd, n₃.view = n₂.view.associate tm bd)
    (hv₄ : n₄.view = n₃.view) (hk : n₄.Kinds) (hu : Tells v users) (hb : Tells v bindings) (hkn : Tells v known) :
    Steps c v (users ++ bindings ++ known ++ [.call n₄ (.terminalOwnerAdded c tm f.mappedId)]) n₄.view := by
  have husers : Steps c v [] (v.addUsers tm cs) := .single (.users hcs)
  obtain ⟨w, hw, hwo, hwc, hws⟩ : ∃ w : NodeView, n₄.view = w.setOwner tm c (some f) ∧
      (∀ i, (w.terminals i).owners = (v.terminals i).owners) ∧ w.connections = v.connections ∧ Steps c v [] w := by
    rcases hv₃ with hv₃ | ⟨ho', bd, hv₃⟩
    · refine ⟨v.addUsers tm cs, ?_, fun i => NodeView.addUsers_owners, rfl, husers⟩
      rw [hv₄, hv₃, hv₂, hv₁, NodeView.setOwner_addUsers]
    · refine ⟨(v.addUsers tm cs).associate tm bd, ?_, fun i => ?_, rfl, husers.append (.single (.associated (.inl ?_)))⟩
      · rw [hv₄, hv₃, hv₂, hv₁, NodeView.setOwner_addUsers, NodeView.setOwner_associate]
      · rw [NodeView.associate_owners, NodeView.addUsers_owners]
      · rwa [NodeView.addUsers_owners]
  have htold : Steps c v (users ++ bindings ++ known) v :=
    .told (tells_append.mpr ⟨tells_append.mpr ⟨hu, hb⟩, hkn⟩)
  have hadd : Steps c w [.call n₄ (.terminalOwnerAdded c tm f.mappedId)] n₄.view := by
    rw [hw]
    refine .single (.ownerAdded (hwo tm ▸ ho) (hwc ▸ hc) hf (fun i g hg => hn i g ?_) ⟨hw, hk⟩)
    rwa [← hwo i]
  exact (htold.trailing hws).append hadd

theorem steps_onTerminalDescription (h : n.Consistent {}) (hm : Mapped n.view) (hc : c ∈ n.connections) (hi : i ≠ 0)
    (hn : n.view.Unused c i) :
    (n.onTerminalDescription x i c).Returns fun s => s.1.Kinds → Steps c n.view s.2 s.1.view := by
  have hins {e} (he : (n.terminals.insert x {}).1.get? (n.terminals.insert x {}).2.1 = some e) := h.insert_cases he
  have hview := view_insertTerminal (n := n) (x := x)
  have hkinds := h.kinds.insertTerminal (x := x)
  have ha := h.alive (c := c)
  simp only [Node.onTerminalDescription]
  generalize n.terminals.insert x {} = inserted at *
  obtain ⟨ts, tm, ins⟩ := inserted
  refine deref_returns.bind fun e he => Returns.bind (fun _ => id) fun out hout => ?_
  have he₀ : { n with terminals := ts }.terminals.get? tm = some e := he
  have hv₁ : (Node.modifyTerminal { n with terminals := ts } tm fun d =>
      setOwnersMap d c ((ownersMap d c).insert c out.fsm)).view = n.view.setOwner tm c (some out.fsm) := by
    rw [view_insertOwner he₀, hview]
  cases hl : (ownersMap e.data c).lookup c
  case some f =>
    obtain ⟨hins', hg, -, -⟩ := (hins he).resolve_left fun hnew => by
      rw [hnew.2.2] at hl
      exact absurd (mem_keys_of_lookup hl) not_mem_ownersMap_new
    have hfo := view_owner hg hl
    rw [hl] at hout
    obtain ⟨hf, hfi, hold⟩ := next_description (hm.owners tm c f hfo) hout hi
    refine .ite (fun _ => .pure fun hk => ?_) fun h₀ => absurd hold h₀
    have hstep : Steps c n.view [.call _ (.terminalOwnerRemapped c tm out.fsm.mappedId)] _ :=
      .single (.ownerRemapped hfo hc hf (hfi ▸ hn) ⟨hv₁, hk⟩)
    rw [hins', hv₁]
    exact (Steps.told (tells_post hc)).append hstep
  case none   =>
    rw [hl] at hout
    obtain ⟨hf, hfi, hold⟩ := first_description hout hi
    refine .ite (fun h₀ => absurd hold h₀) fun _ => ?_
    have hk₁ : (Node.modifyTerminal { n with terminals := ts } tm fun d =>
        setOwnersMap d c ((ownersMap d c).insert c out.fsm)).Kinds := hkinds.insertOwner
    have ha₁ : Alive c (Node.modifyTerminal { n with terminals := ts } tm fun d =>
        setOwnersMap d c ((ownersMap d c).insert c out.fsm)).view := hv₁.symm ▸ ha.setOwner
    have hinform : (Node.informUsers (Node.modifyTerminal { n with terminals := ts } tm fun d =>
        setOwnersMap d c ((ownersMap d c).insert c out.fsm)) tm c).Returns fun s =>
        (s.1.associateTerminal tm).Returns fun t => t.1.view = s.1.view ∨
          ((n.view.terminals tm).owners = fun _ => none) ∧ ∃ bd, t.1.view = s.1.view.associate tm bd := by
      rcases hins he with ⟨_, hg, _⟩ | ⟨_, hg, hh, hcons⟩
      case inl =>
        refine fun s _ => associateTerminal_some.imp fun t ht => ht.imp_right fun hb => ⟨?_, hb⟩
        rw [view_terminals_none hg]
      case inr =>
        have hopen : (Node.modifyTerminal { n with terminals := ts } tm fun d =>
            setOwnersMap d c ((ownersMap d c).insert c out.fsm)).Consistent (Pending.opened {} tm) := by
          refine (hcons.mono Pending.le_opened).modifyTerminal fun e' he' _ => ?_
          cases he.symm.trans he'
          exact (hcons.get? he).addOwner (Register.get?_id he) hh hc
        have he₁ : (Node.modifyTerminal { n with terminals := ts } tm fun d =>
            setOwnersMap d c ((ownersMap d c).insert c out.fsm)).terminals.get? tm =
            some (e.modify fun d => setOwnersMap d c ((ownersMap d c).insert c out.fsm)) := by
          simp only [Node.modifyTerminal, Register.get?_modify, if_true, he₀, Option.map_some]
        refine (hopen.informUsers he₁ subset_rfl).imp fun s hs => ?_
        obtain ⟨hcons₂, users, hg₂⟩ := hs
        rw [Element.modify_id, Register.get?_id he] at hg₂
        exact (hcons₂.associateTerminal_same rfl hg₂ hh).imp fun t ht => .inl ht
    refine (hinform.and (informUsers_view hk₁ ha₁)).bind fun s hs => ?_
    obtain ⟨hassoc, cs, hcs, hv₂, husers⟩ := hs
    rw [hv₁] at hcs husers
    have ha₂ : Alive c s.1.view := hv₂ ▸ hv₁ ▸ (ha.setOwner.addUsers hcs)
    refine hassoc.bind fun t hv₃ => ?_
    have ha₃ : Alive c t.1.view := by
      rcases hv₃ with hv₃ | ⟨_, bd, hv₃⟩
      · exact hv₃ ▸ ha₂
      · exact hv₃ ▸ ha₂.associate
    refine (tells_establishBindings ha₃).bind fun bindings hb => ?_
    have hoc : (t.1.view.terminals tm).owners c = some out.fsm := by
      have ho₂ : (s.1.view.terminals tm).owners c = some out.fsm := by
        rw [hv₂, hv₁, NodeView.addUsers_owners, NodeView.setOwner_owners, if_pos ⟨rfl, rfl⟩]
      rcases hv₃ with hv₃ | ⟨_, bd, hv₃⟩
      · rw [hv₃, ho₂]
      · rw [hv₃, NodeView.associate_owners, ho₂]
    have hunbound (e) (he : t.1.terminals.get? tm = some e) (hu : Unowned e.data) : e.data.binding = 0 := by
      rw [owners_of_unowned he hu] at hoc
      cases hoc
    refine (unseen_updateState hunbound).bind fun u hv₄ => .pure fun hk₄ => ?_
    obtain ⟨n₄, known, _⟩ := u
    have hcon₃ : t.1.view.connections = n.view.connections := by
      rcases hv₃ with hv₃ | ⟨_, bd, hv₃⟩ <;> rw [hv₃, hv₂, hv₁] <;> rfl
    have hno : (n.view.terminals tm).owners c = none := by
      rcases hins he with ⟨_, hg, _⟩ | ⟨_, hg, _⟩
      · rw [view_terminals_none hg]
      · rw [view_terminals hg]
        exact hl
    have hinserted : Steps c n.view (if ins = true then [.terminalInserted tm] else []) n.view := by
      rcases hins he with ⟨hi, hg, _⟩ | ⟨hi, _⟩
      · have hi : ins = true := hi
        rw [if_pos hi]
        exact .single (.inserted (view_terminals_none hg))
      · have hi : ins = false := hi
        rw [hi, if_neg Bool.false_ne_true]
        exact .nil
    have hadded : Steps c n.view (s.2 ++ bindings ++ known ++ [.call n₄ (.terminalOwnerAdded c tm i)]) n₄.view := by
      rw [← hfi]
      exact steps_ownerAdded hf (hfi ▸ hn) hc hno hv₁ hcs hv₂ hv₃ hv₄.1 hk₄ husers (hb.congr hcon₃) (hv₄.2.congr hcon₃)
    have hknown : Tells n₄.view (if e.data.state = .justCreated ∧ ¬x.hidden = true then
        [.knownTerminalsChanged x true] else []) := by
      split
      · exact tells_cons.mpr ⟨trivial, tells_nil⟩
      · exact tells_nil
    have hreplies : Tells n.view (post c .binding x tm i out.calls) := tells_post hc
    have hall := ((hinserted.append (.told hreplies)).append hadded).append (.told hknown)
    simpa only [List.append_assoc, Option.isNone_none, if_true] using hall

theorem steps_insertUser (hc : c ∈ n.view.connections) (he : n.terminals.get? tm = some e) (ht : Tells n.view es) :
    Steps c n.view es
      (n.modifyTerminal tm fun d => { d with usingNodes := d.usingNodes.insert c f }).view := by
  rw [view_insertUser he]
  exact (Steps.told ht).trailing (.single (.users (Set.singleton_subset_iff.mpr hc)))

theorem steps_onTerminalMapping (hc : c ∈ n.connections) :
    (n.onTerminalMapping tm i c).Returns fun s => Steps c n.view s.2 s.1.view := by
  refine .bind' fun _ => deref_returns.bind fun e he => .ite (fun _ => .error) fun _ => .bind' fun out => ?_
  exact .ite (fun _ => .error) fun _ => .pure (steps_insertUser hc he (tells_post hc))

theorem Kinds.modifyUsers {g : FsmMap → FsmMap} (h : n.Kinds) :
    (n.modifyTerminal tm fun d => { d with usingNodes := g d.usingNodes }).Kinds where
  leafs     := h.leafs
  nodes     := h.nodes
  terminals := h.terminals.modify fun _ _ => id
  bindings  := h.bindings

theorem steps_onTerminalRemovedAck (h : n.Consistent {}) (hc : c ∈ n.connections) :
    (n.onTerminalRemovedAck tm c).Returns fun s => Steps c n.view s.2 s.1.view := by
  refine assert_returns.bind fun _ hn => deref_returns.bind fun e he => ?_
  extract_lets user describe _ acknowledge next
  have hd : Returns describe fun s => s.1.Consistent (Pending.opened {} tm) ∧ Steps c n.view s.2 s.1.view :=
    .bind' fun _ => .pure ⟨(h.mono Pending.le_opened).describe hn (.inl hc), steps_insertUser hc he (tells_post hc)⟩
  have ha : Returns acknowledge fun s =>
      s.1.Consistent (Pending.opened {} tm) ∧ Steps c n.view s.2 s.1.view := by
    refine .bind' fun f => .bind' fun out => .ite (fun _ => .pure ⟨?_, ?_⟩) fun _ => .pure ⟨?_, ?_⟩
    · exact (h.mono Pending.le_opened).modifyTerminal fun _ _ ho => ho.insertUser hn (.inl hc)
    · exact steps_insertUser hc he tells_nil
    · exact (h.mono Pending.le_opened).modifyTerminal fun _ hg ho => ho.eraseUser (.inl (Register.get?_id hg))
    · have hv : (n.modifyTerminal tm fun d => { d with usingNodes := d.usingNodes.erase c }).view =
          n.view.removeUser tm c := view_eraseUser
      rw [hv]
      exact .single (.userRemoved ⟨hv, h.kinds.modifyUsers⟩)
  have hnext (s : Node × List Effect) (hs : s.1.Consistent (Pending.opened {} tm) ∧ Steps c n.view s.2 s.1.view) :
      (next s).Returns fun s => Steps c n.view s.2 s.1.view := by
    obtain ⟨hs, hsteps⟩ := hs
    refine deref_returns.bind fun e he => ?_
    extract_lets last
    have hlast : (last s.1).Returns fun s => Steps c n.view s.2 s.1.view :=
      (unseen_updateState fun _ he hu => hs.unbound he hu).bind fun u hu => .pure (hsteps.append hu.steps)
    refine .ite (fun hu => ?_) fun _ => hlast
    rw [hs.disassociateTerminal_of_hidden he ((hs.get? he).hidden.mpr ⟨hu.1, hu.2.1⟩)]
    exact hlast
  split
  · exact .error
  · exact hd.bind hnext
  · exact hd.bind hnext
  · exact hd.bind hnext
  · exact hd.bind hnext
  · exact .ite (fun _ => hd.bind hnext) fun _ => ha.bind hnext
  · exact ha.bind hnext

theorem steps_onBindingRemoved (h : n.Consistent {}) (hm : Mapped n.view) (hc : c ∈ n.connections) :
    (n.onBindingRemoved bd c).Returns fun s => Steps c n.view s.2 s.1.view := by
  refine .bind' fun _ => deref_returns.bind fun d hd => deref_returns.bind fun f hf => Returns.bind (fun _ => id)
    fun out hout => ?_
  have hr : n.view.Refers n bd := h.refers rfl
  have hfo : n.view.bindings bd c = some f := by
    rw [view_bindings hd]
    exact hf
  have hreplies : Steps c n.view (post c .terminal d.identifier bd 0 out.calls) n.view := .told (tells_post hc)
  rcases kept_of_processRcvdRemoved (hm.bindings bd c f hfo) hout with ⟨hk, hi, _⟩ | ⟨hout, _⟩
  case inl =>
    refine .ite (fun _ => .pure ?_) fun hn => absurd (by simp only [Fsm.isMapped, hk.state]) hn
    rw [view_insertBindingOwner hd]
    exact hreplies.trailing (.single (.bindingOwnerKept hfo hk hi))
  case inr =>
    refine .ite (fun hn => absurd hn (by simp [hout])) fun _ => ?_
    have hremoved := hreplies.append (steps_removeBindingOwner hr h.kinds hd hf)
    refine .ite (fun hk => ?_) fun _ => .pure hremoved
    have hd' : (n.modifyBinding bd fun d => { d with owningLeafs := d.owningLeafs.erase c }).bindings.get? bd =
        some (d.modify fun d => { d with owningLeafs := d.owningLeafs.erase c }) := by
      simp only [Node.modifyBinding, Register.get?_modify, if_true, hd, Option.map_some]
    have hr' : NodeView.Refers (n.modifyBinding bd fun d => { d with owningLeafs := d.owningLeafs.erase c }).view
        (n.modifyBinding bd fun d => { d with owningLeafs := d.owningLeafs.erase c }) bd := by
      rw [view_eraseBindingOwner hd]
      exact refers_modifyBinding hr fun _ => rfl
    refine (steps_eraseBinding c hr' (view_bindings_of_nil hd' hk)).bind fun m hm => .pure ?_
    exact hremoved.trailing hm

-- The binding that is described is either new or has been known before.
theorem Consistent.insertBinding_cases {d : Element NodeBindingInfo} (h : n.Consistent {})
    (hd : (n.bindings.insert x {}).1.get? (n.bindings.insert x {}).2.1 = some d) :
    n.bindings.get? (n.bindings.insert x {}).2.1 = none ∧ n.bindings.map x = none ∧ d.data = {} ∨
    n.bindings.get? (n.bindings.insert x {}).2.1 = some d ∧
      { n with bindings := (n.bindings.insert x {}).1 }.Consistent {} := by
  cases hf : n.bindings.find? x
  case none   =>
    obtain ⟨_, _, hn, hg⟩ := Register.insert_of_find?_none (d := ({} : NodeBindingInfo)) hf
    rw [hg, if_pos rfl, Option.some.injEq] at hd
    exact .inl ⟨hn, Register.map_eq_none hf, hd ▸ rfl⟩
  case some d' =>
    obtain ⟨hi, hg⟩ := Register.insert_of_find?_some (d := ({} : NodeBindingInfo)) hf
    obtain ⟨hd', _, _⟩ := Register.find?_eq_some_iff.mp hf
    rw [hg, hi] at hd
    cases hd'.symm.trans hd
    exact .inr ⟨by rw [hi]; exact hd', h.insertBinding_some hf⟩

theorem associateBinding_view {d : Element NodeBindingInfo} (hd : n.bindings.get? bd = some d) :
    (n.associateBinding bd).Returns fun s => s.1.view = n.view ∨ d.data.terminal = 0 ∧
      ∃ e, n.terminals.find? d.identifier = some e ∧ s.1.view = n.view.associate e.id bd := by
  refine deref_returns.bind fun d' hd' => ?_
  cases hd.symm.trans hd'
  refine .ite (fun _ => ?_) fun hb => ?_
  · split
    · exact .error
    · exact .bind' fun _ => .pure (.inl rfl)
  · split
    case h_1 => exact .pure (.inl rfl)
    case h_2 e he =>
      refine .pure (.inr ⟨not_not.mp hb, e, he, ?_⟩)
      rw [view_setTerminal]
      exact view_setBinding (Register.find?_eq_some_iff.mp he).1

theorem Consistent.associateBinding_same {d : Element NodeBindingInfo} (h : n.Consistent p) (hx : p.pairs = ∅)
    (hd : n.bindings.get? bd = some d) : (n.associateBinding bd).Returns fun s => s.1.view = n.view := by
  refine (associateBinding_view hd).imp fun s hs => hs.resolve_right fun ho => ?_
  obtain ⟨hb, e, he, _⟩ := ho
  have hf := (h.bindings bd d hd).terminal (hx ▸ Set.notMem_empty _)
  rw [hb, Register.map_eq_some he] at hf
  exact Register.get?_ne_zero (Register.find?_eq_some_iff.mp he).1 hf.symm

theorem steps_onBindingDescription (h : n.Consistent {}) (hm : Mapped n.view) (hc : c ∈ n.connections) (hi : i ≠ 0) :
    (n.onBindingDescription x i c).Returns fun s => s.1.Consistent {} → Steps c n.view s.2 s.1.view := by
  refine assert_returns.bind fun _ hn => ?_
  have hins {d} (hd : (n.bindings.insert x {}).1.get? (n.bindings.insert x {}).2.1 = some d) := h.insertBinding_cases hd
  have hid {d} := Register.insert_identifier (r := n.bindings) (x := x) (d := {}) (e := d)
  have hview := view_insertBinding (n := n) (x := x)
  generalize n.bindings.insert x {} = inserted at *
  obtain ⟨bs, bd, _⟩ := inserted
  refine deref_returns.bind fun d hd => Returns.bind (fun _ => id) fun out hout => ?_
  have hd₀ : { n with bindings := bs }.bindings.get? bd = some d := hd
  have hv₁ : (Node.modifyBinding { n with bindings := bs } bd fun d =>
      { d with owningLeafs := d.owningLeafs.insert c out.fsm }).view = n.view.setBindingOwner bd c (some out.fsm) := by
    rw [view_insertBindingOwner hd₀, hview]
  cases hl : d.data.owningLeafs.lookup c
  case some f =>
    obtain ⟨hg, _⟩ := (hins hd).resolve_left fun hnew => by
      rw [hnew.2.2] at hl
      cases hl
    have hfo : n.view.bindings bd c = some f := by
      rw [view_bindings hg]
      exact hl
    rw [hl] at hout
    obtain ⟨hf, _, hold⟩ := next_description (hm.bindings bd c f hfo) hout hi
    refine .ite (fun _ => .pure fun hk => ?_) fun h₀ => absurd hold h₀
    have hstep : Steps c n.view [.call _ (.bindingOwnerRemapped c bd out.fsm.mappedId)] _ :=
      .single (.bindingOwnerRemapped hfo hc hf ⟨hv₁, hk.kinds⟩)
    rw [hv₁]
    exact (Steps.told (tells_post hc)).append hstep
  case none   =>
    rw [hl] at hout
    obtain ⟨hf, hfi, hold⟩ := first_description hout hi
    refine .ite (fun h₀ => absurd hold h₀) fun _ => ?_
    have hno : n.view.bindings bd c = none := by
      rcases hins hd with ⟨hg, _⟩ | ⟨hg, _⟩
      · rw [view_bindings_none hg]
      · rw [view_bindings hg]
        exact hl
    have hassoc : (Node.associateBinding (Node.modifyBinding { n with bindings := bs } bd fun d =>
        { d with owningLeafs := d.owningLeafs.insert c out.fsm }) bd).Returns fun s =>
        ∃ w : NodeView, Steps c n.view [] w ∧ s.1.view = w.setBindingOwner bd c (some out.fsm) ∧
          w.connections = n.view.connections ∧ w.bindings bd c = none := by
      have hd₁ : (Node.modifyBinding { n with bindings := bs } bd fun d =>
          { d with owningLeafs := d.owningLeafs.insert c out.fsm }).bindings.get? bd =
          some (d.modify fun d => { d with owningLeafs := d.owningLeafs.insert c out.fsm }) := by
        simp only [Node.modifyBinding, Register.get?_modify, if_true, hd₀, Option.map_some]
      rcases hins hd with ⟨hg, hmx, _⟩ | ⟨_, hcons⟩
      case inl =>
        refine (associateBinding_view hd₁).imp fun s hs => ?_
        rcases hs with hs | ⟨_, e, he, hs⟩
        · exact ⟨n.view, .nil, hs.trans hv₁, rfl, hno⟩
        · obtain ⟨he, hxe, hh⟩ := Register.find?_eq_some_iff.mp he
          have hxd : d.identifier = x := hid (d := d) hd
          have hx : e.identifier = x := hxe.trans hxd
          have he : n.terminals.get? e.id = some e := he
          have hb : (n.view.terminals e.id).binding = 0 := by
            rw [view_terminals he]
            refine ((h.get? he).binding hh (Set.notMem_empty _)).trans ?_
            rw [hx, hmx]
            rfl
          refine ⟨n.view.associate e.id bd, .single (.associated (.inr ⟨?_, view_bindings_none hg⟩)), ?_, rfl, hno⟩
          · rw [hb]
            exact view_bindings_zero
          · rw [hs, hv₁]
            rfl
      case inr =>
        have hn' : c.remoteIsNode = false := by simpa using hn
        have hcons₁ : (Node.modifyBinding { n with bindings := bs } bd fun d =>
            { d with owningLeafs := d.owningLeafs.insert c out.fsm }).Consistent {} :=
          hcons.modifyBinding fun _ _ ho => ho.insertOwner hn' (.inl hc)
        exact (hcons₁.associateBinding_same rfl hd₁).imp fun s hs => ⟨n.view, .nil, hs.trans hv₁, rfl, hno⟩
    refine hassoc.bind fun s hs => ?_
    obtain ⟨n₂, tm⟩ := s
    obtain ⟨w, hw, hv₂, hwc, hwo⟩ := hs
    have hall {established : List Effect} (ht : Tells n.view established) (hk : n₂.Consistent {}) :
        Steps c n.view (post c .terminal x bd i out.calls ++ established ++
          [.call n₂ (.bindingOwnerAdded c bd out.fsm.mappedId)]) n₂.view := by
      have hr : w.Refers n₂ bd := by
        have hr : n₂.view.Refers n₂ bd := hk.refers rfl
        rwa [hv₂] at hr
      rw [hv₂]
      have htold : Steps c n.view (post c .terminal x bd i out.calls ++ established) w :=
        (Steps.told (tells_append.mpr ⟨tells_post hc, ht⟩)).trailing hw
      exact htold.append (.single (.bindingOwnerAdded hwo (hwc ▸ hc) hf ⟨hv₂, hk.kinds⟩ hr))
    cases tm
    case none    => exact .pure fun hk => hall tells_nil hk
    case some tm =>
      refine .bind' fun e => .ite (fun _ => .pure fun hk => ?_) fun _ => .pure fun hk => hall tells_nil hk
      exact hall (tells_cons.mpr ⟨hc, tells_nil⟩) hk

-- The objects of a connection have IDs, and no two of its terminals have the same.
def Event.Proper (n : Node) : Event → Prop
  | .message origin (.terminalDescription _ i) =>
    i ≠ 0 ∧ ∀ e ∈ n.terminals.elements, ∀ f ∈ (ownersMap e.data origin).lookup origin, f.mappedId ≠ i
  | .message _ (.bindingDescription _ i)       => i ≠ 0
  | _                                          => True

def Event.connection : Event → Conn
  | .connectionStarted c | .connectionDestroyed c | .message c _ => c

theorem unused_of_proper (h : Event.Proper n (.message c (.terminalDescription x i))) : n.view.Unused c i := by
  intro tm f hf
  cases he : n.terminals.get? tm
  case none   =>
    rw [view_terminals_none he] at hf
    cases hf
  case some e =>
    rw [view_terminals he] at hf
    exact h.2 e (Register.mem_elements_iff.mpr ((Register.get?_id he).symm ▸ he)) f hf

-- What holds of a node between two events
structure Sound (n : Node) : Prop where
  consistent : n.Consistent {}
  informed   : n.Informed
  mapped     : Mapped n.view

theorem steps_onMessageReceived {m : Message} (h : n.Sound) (hc : c ∈ n.connections)
    (hp : Event.Proper n (.message c m)) :
    (n.onMessageReceived c m).Returns fun s => s.1.Consistent {} → Steps c n.view s.2 s.1.view := by
  cases m
  case terminalDescription x i =>
    have hu := unused_of_proper hp
    exact (steps_onTerminalDescription h.consistent h.mapped hc hp.1 hu).imp fun s hs hk => hs hk.kinds
  case terminalMapping         => exact (steps_onTerminalMapping hc).imp fun s hs _ => hs
  case terminalRemovedAck      => exact (steps_onTerminalRemovedAck h.consistent hc).imp fun s hs _ => hs
  case bindingDescription      => exact steps_onBindingDescription h.consistent h.mapped hc hp
  case bindingRemoved          => exact (steps_onBindingRemoved h.consistent h.mapped hc).imp fun s hs _ => hs
  case terminalRemoved tm      =>
    obtain ⟨nodes, _, hs⟩ := h.informed
    exact (steps_removeTerminalOwner (h.consistent.mono Pending.le_owning) hs h.consistent.alive h.mapped (fun _ => hc)
      (Set.notMem_empty _) rfl).imp fun s hs _ => hs
  all_goals exact .error

theorem Mapped.connected (h : Mapped n.view) : Mapped (n.connected n') :=
  ⟨h.owners, h.bindings⟩

theorem Sound.onEvent_reaction {a : Event} (h : n.Sound) (ha : a.Enabled n) (hp : a.Proper n) :
    (n.onEvent a).Returns fun s => s.1.Sound ∧ Reaction a.connection n s := by
  have hreaction : (n.onEvent a).Returns fun s => s.1.Consistent {} → Reaction a.connection n s := by
    cases a
    case connectionStarted   => exact onConnectionStarted_reaction.imp fun s hs _ => hs
    case connectionDestroyed =>
      exact (h.consistent.onConnectionDestroyed_reaction h.informed h.mapped).imp fun s hs _ => hs
    case message             =>
      refine (steps_onMessageReceived h ha hp).imp fun s hs hk => ?_
      have hcs := (hs hk).connections_eq
      refine ⟨fun b _ => by rw [hcs], ?_⟩
      rw [Node.connected, hcs]
      exact hs hk
  refine ((h.consistent.onEvent ha).and ((h.informed.onEvent h.consistent).and hreaction)).imp fun s hs => ?_
  obtain ⟨hc, hi, hs⟩ := hs
  exact ⟨⟨hc, hi, h.mapped.connected.of_steps (hs hc).steps⟩, hs hc⟩

theorem mapped_empty : Mapped (view {}) := by
  refine ⟨fun tm c f hf => ?_, fun bd c f hf => ?_⟩
  case refine_1 =>
    rw [view_terminals_none rfl] at hf
    cases hf
  case refine_2 =>
    rw [view_bindings_none rfl] at hf
    cases hf

theorem sound_empty : Sound {} where
  consistent := consistent_empty
  informed   := ⟨[], List.nodup_nil, rfl, fun i e he => by cases he⟩
  mapped     := mapped_empty

-- No two terminals of a connection have the same ID.
def Distinct (v : NodeView) : Prop :=
  ∀ tm tm' b f f', (v.terminals tm).owners b = some f → (v.terminals tm').owners b = some f' →
    f.mappedId = f'.mappedId → tm = tm'

theorem Distinct.mono {v' : NodeView} (h : Distinct v)
    (hv : ∀ i b f, (v'.terminals i).owners b = some f → (v.terminals i).owners b = some f) : Distinct v' :=
  fun i i' b f f' hf hf' => h i i' b f f' (hv i b f hf) (hv i' b f' hf')

theorem Distinct.setOwner (h : Distinct v)
    (hf : ∀ i g, i ≠ tm → (v.terminals i).owners c = some g → g.mappedId ≠ f.mappedId) :
    Distinct (v.setOwner tm c (some f)) := by
  intro i i' b g g' hg hg' hi
  rw [NodeView.setOwner_owners] at hg hg'
  split at hg
  case isTrue ht  =>
    cases hg
    split at hg'
    case isTrue ht'  => exact ht.1.trans ht'.1.symm
    case isFalse ht' => exact absurd hi.symm (hf i' g' (fun hi' => ht' ⟨hi', ht.2⟩) (ht.2 ▸ hg'))
  case isFalse ht =>
    split at hg'
    case isTrue ht' =>
      cases hg'
      exact absurd hi (hf i g (fun hi => ht ⟨hi, ht'.2⟩) (ht'.2 ▸ hg))
    case isFalse    => exact h i i' b g g' hg hg' hi

theorem Distinct.of_step {v' : NodeView} (h : Distinct v) (hs : Step c v es v') : Distinct v' := by
  cases hs
  case told                 => exact h
  case userAdded            => exact h
  case inserted             => exact h
  case bindingOwnerAdded    => exact h
  case bindingOwnerRemapped => exact h
  case bindingOwnerKept     => exact h
  case bindingOwnerRemoved  => exact h
  case users                => exact h.mono fun i b f hf => by rwa [NodeView.addUsers_owners] at hf
  case userRemoved          => exact h.mono fun i b f hf => by rwa [NodeView.removeUser_owners] at hf
  case associated           => exact h.mono fun i b f hf => by rwa [NodeView.associate_owners] at hf
  case ownerAdded hu _      => exact h.setOwner fun i g _ hg => hu i g hg
  case ownerRemapped hu _   => exact h.setOwner fun i g _ hg => hu i g hg
  -- The owner keeps the ID that no other terminal has.
  case ownerKept ho _ hi    => exact h.setOwner fun i g hne hg hgi => hne (h i _ c g _ hg ho (hgi.trans hi))
  case ownerRemoved         =>
    refine h.mono fun i b f hf => ?_
    rw [NodeView.setOwner_owners] at hf
    split at hf
    case isTrue  => cases hf
    case isFalse => exact hf

theorem Distinct.of_steps {v' : NodeView} (h : Distinct v) (hs : Steps c v es v') : Distinct v' :=
  hs.preserves h fun hs h => h.of_step hs

theorem distinct_empty : Distinct (view {}) := by
  intro tm tm' b f f' hf
  rw [view_terminals_none rfl] at hf
  cases hf

-- A node whose connections give proper IDs to their objects
def proper : Machine Node Event Fault :=
  machine.restrict fun n a => a.Proper n

instance {n : Node} {a : Event} : Decidable (a.Proper n) :=
  match a with
  | .message _ (.terminalDescription _ _) => inferInstanceAs (Decidable (_ ∧ _))
  | .message _ (.bindingDescription _ _)  => inferInstanceAs (Decidable (_ ≠ _))
  | .message _ (.terminalMapping _ _) | .message _ (.terminalNoticed _) | .message _ (.terminalRemoved _)
  | .message _ (.terminalRemovedAck _) | .message _ (.bindingMapping _ _) | .message _ (.bindingNoticed _)
  | .message _ (.bindingRemoved _) | .message _ (.bindingRemovedAck _) | .message _ (.bindingEstablished _)
  | .message _ (.bindingReleased _) | .connectionStarted _ | .connectionDestroyed _ => inferInstanceAs (Decidable True)

instance {n : Node} {a : Event} : Decidable (proper.enabled n a) :=
  inferInstanceAs (Decidable (machine.enabled n a ∧ a.Proper n))

theorem sound_of_reachable (h : proper.Reachable n) : n.Sound := by
  refine h.preserves (fun n hn => ?_) fun n a n' hn ha hs => ?_
  · cases hn
    exact sound_empty
  · obtain ⟨s, ht, rfl⟩ := Except.map_eq_ok.mp hs
    exact (hn.onEvent_reaction ha.1 ha.2 s ht).1

theorem eq_ok {α : Type} {r : Except Fault α} {a : α} (h : r.toOption = some a) : r = .ok a := by
  cases r
  case ok    => exact congrArg Except.ok (Option.some.inj h)
  case error => cases h

theorem distinct_of_reachable (h : proper.Reachable n) : Distinct n.view := by
  have hboth : n.Sound ∧ Distinct n.view := by
    refine h.preserves (I := fun n => n.Sound ∧ Distinct n.view) (fun n hn => ?_) fun n a n' hn ha hs => ?_
    · cases hn
      exact ⟨sound_empty, distinct_empty⟩
    · obtain ⟨s, ht, rfl⟩ := Except.map_eq_ok.mp hs
      obtain ⟨hsound, hreaction⟩ := hn.1.onEvent_reaction ha.1 ha.2 s ht
      have hstart : Distinct (n.connected s.1) := hn.2
      exact ⟨hsound, hstart.of_steps hreaction.steps⟩
  exact hboth.2

-- The state machine of an owner of a terminal
def ownerOf (n : Node) (tm : Id) (c : Conn) : Option Fsm :=
  (n.terminals.get? tm).bind fun e => (ownersMap e.data c).lookup c

theorem view_ownerOf (hf : n.ownerOf tm c = some f) : (n.view.terminals tm).owners c = some f := by
  obtain ⟨e, he, hf⟩ := Option.bind_eq_some_iff.mp hf
  exact view_owner he hf

def described : List Event :=
  shared ++ [.message leafA (.terminalDescription ⟨1, "b", false⟩ 6)]

end Yogi.Node
