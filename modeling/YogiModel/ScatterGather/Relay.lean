import YogiModel.ScatterGather.NodeLogic

-- The operations that a node passes on refer to connections that have not been destroyed.
namespace Yogi.ScatterGatherNode

open Except (Returns)
open Node (Alive Reaction)
open ScatterGather (gatherFinished)
open SubscribableNode (Subscribed Fewer Arrives Narrows)

variable {s s' : ScatterGatherNode} {m n : Node} {v v' : NodeView} {tm bd i j : Id} {b c : Conn} {h' : Node.Hook}
variable {es : List Node.Effect} {op op' : NodeOperation} {flags : Nat} {data : List Wire.Byte}

def Effect.Arrives (v : NodeView) : Effect → Prop
  | .base e          => e.Tells v
  | .send c _        => c ∈ v.connections
  | .scatter c _ _ _ => c ∈ v.connections
  | .gather c _ _ _  => c ∈ v.connections

-- The connection that gets the answers owns the terminal, and its operation is found there.
def Sourced (v : NodeView) (s : ScatterGatherNode) : Prop :=
  ∀ i op b, s.operations.get? i = some op → op.source = some b →
    i ∈ s.activeOperations op.terminalId ∧ ∃ f, (v.terminals op.terminalId).owners b = some f

-- What a call leaves behind and sends
structure Lives (v : NodeView) (r : ScatterGatherNode × List Effect) : Prop where
  subscribed : Subscribed v r.1.subscribers
  sourced    : Sourced v r.1
  effects    : ∀ e ∈ r.2, e.Arrives v

theorem Sourced.mono (h : Sourced v s)
    (hv : ∀ tm b f, (v.terminals tm).owners b = some f → ∃ g, (v'.terminals tm).owners b = some g) : Sourced v' s := by
  intro i op b hi hb
  obtain ⟨ha, f, hf⟩ := h i op b hi hb
  exact ⟨ha, hv _ b f hf⟩

theorem Sourced.setOwner {f : Fsm} (h : Sourced v s) : Sourced (v.setOwner tm c (some f)) s := by
  refine h.mono fun i b g hg => ?_
  rw [NodeView.setOwner_owners]
  split
  · exact ⟨f, rfl⟩
  · exact ⟨g, hg⟩

theorem get?_setOperation {o : NodeOperation} (hi : s.operations.get? i = some op)
    (hj : (s.setOperation i op').operations.get? j = some o) :
    j = i ∧ o = op' ∨ j ≠ i ∧ s.operations.get? j = some o := by
  simp only [setOperation, ObjectRegister.get?_set] at hj
  split at hj
  case isTrue hji  =>
    rw [hji, hi] at hj
    exact .inl ⟨hji, (Option.some.inj hj).symm⟩
  case isFalse hji => exact .inr ⟨hji, hj⟩

theorem get?_eraseOperation {o : NodeOperation} (hj : (s.eraseOperation i).operations.get? j = some o) :
    j ≠ i ∧ s.operations.get? j = some o := by
  simp only [eraseOperation, ObjectRegister.get?_erase] at hj
  split at hj
  case isTrue      => cases hj
  case isFalse hji => exact ⟨hji, hj⟩

theorem get?_insertOperation {o : NodeOperation} (hj : (s.operations.insert op).1.get? j = some o) :
    j = (s.operations.insert op).2 ∧ o = op ∨ s.operations.get? j = some o := by
  rw [ObjectRegister.get?_insert] at hj
  split at hj
  case isTrue hji => exact .inl ⟨hji, (Option.some.inj hj).symm⟩
  case isFalse    => exact .inr hj

theorem Sourced.setOperation (h : Sourced v s) (hi : s.operations.get? i = some op)
    (ht : op'.terminalId = op.terminalId) (hs : ∀ b, op'.source = some b → op.source = some b) :
    Sourced v (s.setOperation i op') := by
  intro j o b hj hb
  rcases get?_setOperation hi hj with ⟨rfl, rfl⟩ | ⟨_, hj⟩
  · rw [ht]
    exact h j op b hi (hs b hb)
  · exact h j o b hj hb

theorem Sourced.eraseOperation (h : Sourced v s) : Sourced v (s.eraseOperation i) := by
  intro j o b hj hb
  exact h j o b (get?_eraseOperation hj).2 hb

-- The operation that is no longer active has no source or is erased.
theorem Sourced.deactivate (h : Sourced v s) (hj : ∀ o, s'.operations.get? i = some o → o.source = none)
    (ho : ∀ j o b, s'.operations.get? j = some o → o.source = some b → s.operations.get? j = some o)
    (ha : s'.activeOperations = (s.deactivate tm i).activeOperations) : Sourced v s' := by
  intro j o b hj' hb
  obtain ⟨hactive, hf⟩ := h j o b (ho j o b hj' hb) hb
  have hji : j ≠ i := by
    rintro rfl
    rw [hj o hj'] at hb
    cases hb
  refine ⟨?_, hf⟩
  rw [ha]
  change j ∈ Function.update s.activeOperations tm ((s.activeOperations tm).erase i) o.terminalId
  by_cases ht : o.terminalId = tm
  case pos =>
    rw [ht, Function.update_self]
    exact (List.mem_erase_of_ne hji).mpr (ht ▸ hactive)
  case neg => rwa [Function.update_of_ne ht]

theorem Sourced.finish (h : Sourced v s) : Sourced v ((s.deactivate tm i).eraseOperation i) := by
  refine h.deactivate (fun o ho => ?_) (fun j o b ho _ => ?_) rfl
  · exact absurd rfl (get?_eraseOperation ho).1
  · exact (get?_eraseOperation ho).2

theorem Sourced.insert (h : Sourced v s)
    (ho : ∀ b, op.source = some b → ∃ f, (v.terminals op.terminalId).owners b = some f) :
    Sourced v { s with
      operations       := (s.operations.insert op).1
      activeOperations := Function.update s.activeOperations op.terminalId
        ((s.operations.insert op).2 :: s.activeOperations op.terminalId) } := by
  intro j o b hj hb
  rcases get?_insertOperation hj with ⟨rfl, rfl⟩ | hj
  case inl =>
    refine ⟨?_, ho b hb⟩
    simp only [Function.update_self]
    exact List.mem_cons_self
  case inr =>
    obtain ⟨hactive, howner⟩ := h j o b hj hb
    refine ⟨?_, howner⟩
    by_cases ht : o.terminalId = op.terminalId
    case pos =>
      simp only [ht, Function.update_self]
      exact List.mem_cons_of_mem _ (ht ▸ hactive)
    case neg => simpa only [Function.update_of_ne ht] using hactive

theorem Effect.Arrives.congr {e : Effect} (h : e.Arrives v) (hc : v.connections = v'.connections) : e.Arrives v' := by
  have mem {c : Conn} (hm : c ∈ v.connections) : c ∈ v'.connections := hc ▸ hm
  cases e
  case base e  =>
    have ht : Node.Tells v [e] := List.forall_mem_singleton.mpr h
    exact ht.congr hc e (List.mem_singleton_self e)
  case send    => exact mem h
  case scatter => exact mem h
  case gather  => exact mem h

theorem effects_arrive {ms : SubscribableNode.Sends} (h : Arrives v ms) :
    ∀ e ∈ ms.map fun o => Effect.send o.1 o.2, e.Arrives v := by
  intro e he
  obtain ⟨o, ho, rfl⟩ := List.mem_map.mp he
  exact h o ho

theorem arrives_nil : ∀ e ∈ ([] : List Effect), e.Arrives v :=
  fun _ he => absurd he List.not_mem_nil

theorem toSource_arrives (h : Sourced v s) (ha : Alive c v) (hi : s.operations.get? i = some op)
    (hc : op.source = some c → c ∈ v.connections) : ∀ e ∈ toSource op flags data, e.Arrives v := by
  intro e he
  cases hs : op.source
  case none   => simp [toSource, hs] at he
  case some b =>
    simp only [toSource, hs, Option.elim_some, List.mem_singleton] at he
    cases he
    by_cases hb : b = c
    case pos => exact hb ▸ hc (hb ▸ hs)
    case neg =>
      obtain ⟨_, f, hf⟩ := h i op b hi hs
      exact ha.owners _ b f hb hf

theorem Lives.append {es : List Effect} {t : ScatterGatherNode × List Effect} (hes : ∀ e ∈ es, e.Arrives v)
    (ht : Lives v t) : Lives v (t.1, es ++ t.2) :=
  ⟨ht.subscribed, ht.sourced, List.forall_mem_append.mpr ⟨hes, ht.effects⟩⟩

theorem forEach_lives {f : ScatterGatherNode → Id → Result} {P : List Id → ScatterGatherNode → Prop}
    (hf : ∀ s i is, P (i :: is) s → Subscribed v s.subscribers → Sourced v s →
      (f s i).Returns fun r => P is r.1 ∧ Lives v r) (is : List Id) (hp : P is s)
    (h : Subscribed v s.subscribers) (hs : Sourced v s) :
    (forEach f s is).Returns fun r => P [] r.1 ∧ Lives v r := by
  induction is generalizing s
  case nil          => exact .ok ⟨hp, h, hs, arrives_nil⟩
  case cons i is ih =>
    refine (hf s i is hp h hs).bind fun r hr => ?_
    exact (ih hr.1 hr.2.subscribed hr.2.sourced).bind fun t ht => .pure ⟨ht.1, .append hr.2.effects ht.2⟩

-- An operation without remaining responses is over.
theorem loseResponse_lives (ha : Alive c v) (h : Subscribed v s.subscribers) (hs : Sourced v s) :
    (loseResponse n c tm s i).Returns (Lives v) := by
  refine Node.deref_returns.bind fun op hi => .ite (fun _ => .pure ⟨h, hs, arrives_nil⟩) fun hc => ?_
  have hsource : op.source = some c → c ∈ v.connections := fun hsc => absurd (.inl hsc) hc
  exact .ite (fun _ => .pure ⟨h, hs.finish, toSource_arrives hs ha hi hsource⟩) fun _ =>
    .pure ⟨h, hs.setOperation hi rfl fun _ => id, toSource_arrives hs ha hi hsource⟩

theorem onSubscriberRemoved_lives (ha : Alive c v) (h : Subscribed v s.subscribers) (hs : Sourced v s) :
    (s.onSubscriberRemoved n c tm).Returns (Lives v) :=
  (forEach_lives (P := fun _ _ => True) (fun _ _ _ _ h hs => (loseResponse_lives ha h hs).imp fun _ hr => ⟨trivial, hr⟩)
    _ trivial h hs).imp fun _ hr => hr.2

-- The operations in `is` are those that may still have the source `c`.
def SourcesIn (c : Conn) (tm : Id) (is : List Id) (s : ScatterGatherNode) : Prop :=
  ∀ j op, s.operations.get? j = some op → op.source = some c → op.terminalId = tm → j ∈ is

theorem loseSource_lives {is : List Id} (hp : SourcesIn c tm (i :: is) s) (h : Subscribed v s.subscribers)
    (hs : Sourced v s) : (loseSource c tm s i).Returns fun r => SourcesIn c tm is r.1 ∧ Lives v r := by
  refine Node.deref_returns.bind fun op hi => .ite (fun hc => .pure ⟨?_, h, ?_, arrives_nil⟩) fun hc =>
    .pure ⟨fun j o hj hsc ht => ?_, h, hs, arrives_nil⟩
  case refine_1 =>
    intro j o hj hsc ht
    rcases get?_setOperation (s := s.deactivate tm i) hi hj with ⟨rfl, rfl⟩ | ⟨hji, hj⟩
    · cases hsc
    · exact (List.mem_cons.mp (hp j o hj hsc ht)).resolve_left hji
  case refine_2 =>
    refine hs.deactivate (fun o ho => ?_) (fun j o b ho hb => ?_) rfl
    · rcases get?_setOperation (s := s.deactivate tm i) hi ho with ⟨_, rfl⟩ | ⟨hii, _⟩
      · rfl
      · exact absurd rfl hii
    · rcases get?_setOperation (s := s.deactivate tm i) hi ho with ⟨_, rfl⟩ | ⟨_, ho⟩
      · cases hb
      · exact ho
  case refine_3 =>
    refine (List.mem_cons.mp (hp j o hj hsc ht)).resolve_left fun hji => hc ?_
    rw [hji, hi] at hj
    cases hj
    exact hsc

-- What is left of the operations of the owner
theorem loseSources_lives (h : Subscribed v s.subscribers) (hs : Sourced v s) :
    (forEach (loseSource c tm) s (s.activeOperations tm)).Returns fun r => SourcesIn c tm [] r.1 ∧ Lives v r :=
  forEach_lives (P := SourcesIn c tm) (fun _ _ _ hp h hs => loseSource_lives hp h hs) _
    (fun j op hj hsc ht => ht ▸ (hs j op c hj hsc).1) h hs

theorem SourcesIn.removeOwner (h : SourcesIn c tm [] s) (hs : Sourced v s) : Sourced (v.setOwner tm c none) s := by
  intro i op b hi hb
  obtain ⟨ha, f, hf⟩ := hs i op b hi hb
  refine ⟨ha, f, ?_⟩
  rw [NodeView.setOwner_owners, if_neg]
  · exact hf
  · rintro ⟨ht, rfl⟩
    exact absurd (h i op hi hb ht) List.not_mem_nil

-- The virtual functions besides those that change operations
theorem onHook_other
    (hr : (SubscribableNode.onHook s.subscribers m h').Returns fun r => Subscribed v r.1 ∧ Arrives v r.2)
    (hs : Sourced v s) (hu : ∀ c tm, h' ≠ .terminalUserRemoved c tm) (ho : ∀ c tm, h' ≠ .terminalOwnerRemoved c tm)
    (hb : ∀ c bd, h' ≠ .bindingOwnerRemoved c bd) : (s.onHook m h').Returns (Lives v) := by
  refine hr.bind fun r hr => ?_
  obtain ⟨hsub, hsends⟩ := hr
  split
  case h_1 => exact absurd rfl (hu _ _)
  case h_2 => exact absurd rfl (ho _ _)
  case h_3 => exact absurd rfl (hb _ _)
  case h_4 => exact .pure ⟨hsub, hs, effects_arrive hsends⟩

theorem onHook_userRemoved (ha : Alive c v) (hm : m.Shows v) (hs : Sourced v s)
    (hsub : ∀ s', Fewer s' s.subscribers → c ∉ (s' tm).keys → Subscribed v s') :
    (s.onHook m (.terminalUserRemoved c tm)).Returns (Lives v) := by
  refine (SubscribableNode.onTerminalUserRemoved_returns ha hm).bind fun r hr => ?_
  have h := hsub r.1 hr.1.1 hr.2
  have hsends := effects_arrive hr.1.2
  refine .ite (fun _ => ?_) fun _ => .pure ⟨h, hs, hsends⟩
  exact (onSubscriberRemoved_lives (s := { s with subscribers := r.1 }) ha h hs).bind fun t ht =>
    .pure (.append hsends ht)

theorem onHook_ownerRemoved (h : Subscribed v s.subscribers) (hs : Sourced v s) :
    (s.onHook m (.terminalOwnerRemoved c tm)).Returns (Lives (v.setOwner tm c none)) := by
  refine (SubscribableNode.narrows_onTerminalOwnerRemoved (v := v)).bind fun r hr => ?_
  have hsub : Subscribed v r.1 := h.mono hr.1 fun _ => subset_rfl
  refine (loseSources_lives (s := { s with subscribers := r.1 }) hsub hs).bind fun t ht => .pure ?_
  refine ⟨ht.2.subscribed.mono .refl fun _ => NodeView.setOwner_users.ge, ht.1.removeOwner ht.2.sourced, ?_⟩
  have hall := List.forall_mem_append.mpr ⟨effects_arrive hr.2, ht.2.effects⟩
  exact fun e he => (hall e he).congr rfl

theorem onHook_bindingOwnerRemoved (ha : Alive c v) (hm : m.Shows v) (h : Subscribed v s.subscribers)
    (hs : Sourced v s) : (s.onHook m (.bindingOwnerRemoved c bd)).Returns (Lives v) := by
  refine (SubscribableNode.narrows_onBindingOwnerRemoved ha hm).bind fun r hr => .bind' fun d => ?_
  have hsub : Subscribed v r.1 := h.mono hr.1 fun _ => subset_rfl
  have hsends := effects_arrive hr.2
  refine .ite (fun _ => .pure ⟨hsub, hs, hsends⟩) fun _ => ?_
  exact (onSubscriberRemoved_lives (s := { s with subscribers := r.1 }) ha hsub hs).bind fun t ht =>
    .pure (.append hsends ht)

theorem onEffects_singleton {e : Node.Effect} (h : (s.onEffect e).Returns (Lives v)) :
    (s.onEffects [e]).Returns (Lives v) := by
  refine h.bind fun r hr => (Returns.pure (P := (· = (r.1, []))) rfl).bind fun t ht => .pure ?_
  rw [ht]
  exact ⟨hr.subscribed, hr.sourced, by simpa using hr.effects⟩

theorem onEffects_told (h : ∀ e ∈ es, e.Tells v) (hsub : Subscribed v s.subscribers) (hs : Sourced v s) :
    (s.onEffects es).Returns (Lives v) := by
  induction es generalizing s
  case nil          => exact .pure ⟨hsub, hs, arrives_nil⟩
  case cons e es ih =>
    obtain ⟨he, hes⟩ := List.forall_mem_cons.mp h
    have hfirst : s.onEffect e = .ok (s, [.base e]) := by
      cases e
      case send                  => rfl
      case knownTerminalsChanged => rfl
      case terminalInserted      => exact he.elim
      case call                  => exact he.elim
    refine Returns.bind (P := (· = (s, [Effect.base e]))) ?_ fun r hr => ?_
    case refine_1 =>
      rw [hfirst]
      exact .ok rfl
    cases hr
    exact (ih hes hsub hs).bind fun t ht => .pure (.append (List.forall_mem_singleton.mpr he) ht)

theorem onEffects_of_step (hs : NodeView.Step c v es v') (ha : Alive c v) (h : Subscribed v s.subscribers)
    (ho : Sourced v s) : (s.onEffects es).Returns (Lives v') := by
  have ha' := ha.of_step hs
  have owner {tm : Id} {f : Option Fsm} : Subscribed (v.setOwner tm c f) s.subscribers :=
    h.mono .refl fun _ => NodeView.setOwner_users.ge
  have same {v' : NodeView} (hv : ∀ tm, (v'.terminals tm).owners = (v.terminals tm).owners) : Sourced v' s :=
    ho.mono fun tm b f hf => ⟨f, by rwa [hv tm]⟩
  have narrows {m h'} {v : NodeView} (hn : Narrows v s.subscribers (SubscribableNode.onHook s.subscribers m h'))
      (hsub : Subscribed v s.subscribers) :
      (SubscribableNode.onHook s.subscribers m h').Returns fun r => Subscribed v r.1 ∧ Arrives v r.2 :=
    hn.imp fun r hr => ⟨hsub.mono hr.1 fun _ => subset_rfl, hr.2⟩
  cases hs
  case told ht                       => exact onEffects_told ht h ho
  case users                         =>
    refine .pure ⟨h.mono .refl fun _ _ hb => NodeView.mem_addUsers.mpr (.inl hb), same ?_, arrives_nil⟩
    exact fun _ => NodeView.addUsers_owners
  case associated                    =>
    refine .pure ⟨h.mono .refl fun _ => NodeView.associate_users.ge, same ?_, arrives_nil⟩
    exact fun _ => NodeView.associate_owners
  case ownerKept                     => exact .pure ⟨owner, ho.setOwner, arrives_nil⟩
  case bindingOwnerKept              => exact .pure ⟨h, ho, arrives_nil⟩
  case userAdded                     =>
    refine onEffects_singleton (onHook_other (.pure ⟨h, by simp⟩) ho ?_ ?_ ?_)
    all_goals simp
  case inserted tm hi                =>
    refine onEffects_singleton (.pure ⟨h.mono (SubscribableNode.fewer_update (by simp)) fun _ => subset_rfl, ?_,
      arrives_nil⟩)
    intro i op b hop hb
    obtain ⟨hactive, f, hf⟩ := ho i op b hop hb
    refine ⟨?_, f, hf⟩
    have hne : op.terminalId ≠ tm := by
      rintro rfl
      rw [hi] at hf
      cases hf
    simpa only [Function.update_of_ne hne] using hactive
  case userRemoved tm hm             =>
    refine onEffects_singleton (onHook_userRemoved ha' hm (same fun _ => NodeView.removeUser_owners) ?_)
    refine fun s' hf hc i b hb => NodeView.mem_removeUser.mpr ⟨h i b (hf i hb), fun hi => hc ?_⟩
    exact hi.1 ▸ hi.2 ▸ hb
  case ownerAdded hc _ _ _           =>
    refine onEffects_singleton (onHook_other (narrows (.bind' fun _ => .bind' fun _ =>
      SubscribableNode.narrows_subscribeToOwner hc) owner) ho.setOwner ?_ ?_ ?_)
    all_goals simp
  case ownerRemapped hc _ _ _        =>
    refine onEffects_singleton (onHook_other (narrows (.bind' fun _ =>
      SubscribableNode.narrows_subscribeToOwner hc) owner) ho.setOwner ?_ ?_ ?_)
    all_goals simp
  case ownerRemoved                  => exact onEffects_singleton (onHook_ownerRemoved h ho)
  case bindingOwnerAdded hc _ hm _   =>
    refine onEffects_singleton (onHook_other (narrows (SubscribableNode.narrows_onBindingOwnerAdded ha' hm hc) h) ho
      ?_ ?_ ?_)
    all_goals simp
  case bindingOwnerRemapped hc _ hm  =>
    refine onEffects_singleton (onHook_other (.pure ⟨h, by simp⟩) ho ?_ ?_ ?_)
    all_goals simp
  case bindingOwnerRemoved hm _      => exact onEffects_singleton (onHook_bindingOwnerRemoved ha' hm h ho)

theorem onEffects_append {es' : List Node.Effect} {P Q : ScatterGatherNode × List Effect → Prop}
    (h : (s.onEffects es).Returns P)
    (h' : ∀ r, P r → (r.1.onEffects es').Returns fun t => Q (t.1, r.2 ++ t.2)) :
    (s.onEffects (es ++ es')).Returns Q := by
  induction es generalizing s P Q
  case nil          => exact h' (s, []) (h _ rfl)
  case cons e es ih =>
    refine Returns.bind (P := (s.onEffect e = .ok ·)) (fun _ => id) fun r hr => ?_
    refine (ih (P := fun t => P (t.1, r.2 ++ t.2)) (Q := fun t => Q (t.1, r.2 ++ t.2)) (fun t ht => h _ ?_)
      fun t ht => (h' _ ht).imp fun u hu => ?_).bind fun t ht => .pure ht
    case refine_1 =>
      simp only [onEffects, hr, ht, Except.ok_bind]
      rfl
    case refine_2 =>
      rw [List.append_assoc] at hu
      exact hu

theorem onEffects_of_steps (hs : NodeView.Steps c v es v') (ha : Alive c v) (h : Subscribed v s.subscribers)
    (ho : Sourced v s) : (s.onEffects es).Returns (Lives v') := by
  induction hs generalizing s
  case nil              => exact .pure ⟨h, ho, arrives_nil⟩
  case cons hstep hs ih =>
    refine onEffects_append (onEffects_of_step hstep ha h ho) fun r hr => ?_
    refine (ih (ha.of_step hstep) hr.subscribed hr.sourced).imp fun t ht => .append (fun e he => ?_) ht
    exact (hr.effects e he).congr hs.connections_eq.symm

structure Inv (s : ScatterGatherNode) : Prop where
  sound      : s.node.Sound
  subscribed : Subscribed s.node.view s.subscribers
  sourced    : Sourced s.node.view s

theorem Inv.shows (h : s.Inv) : s.node.Shows s.node.view :=
  ⟨rfl, h.sound.consistent.kinds⟩

theorem Inv.alive (h : s.Inv) : Alive c s.node.view :=
  h.sound.consistent.alive

-- What an event leaves behind and sends
structure Live (r : ScatterGatherNode × List Effect) : Prop where
  inv     : r.1.Inv
  effects : ∀ e ∈ r.2, e.Arrives r.1.node.view

theorem Lives.live {r : ScatterGatherNode × List Effect} (h : Lives n.view r) (hn : n.Sound) (hr : r.1.node = n) :
    Live r := by
  subst hr
  exact ⟨⟨hn, h.subscribed, h.sourced⟩, h.effects⟩

theorem Inv.onBase {a : Node.Event} (h : s.Inv) (ha : a.Enabled s.node) (hp : a.Proper s.node) :
    (s.onBase (s.node.onEvent a)).Returns Live := by
  refine (h.sound.onEvent_reaction ha hp).bind fun r hr => ?_
  have halive : Alive a.connection (s.node.connected r.1) := h.alive.connect hr.2.others
  exact (onEffects_of_steps hr.2.steps halive h.subscribed h.sourced).bind fun t ht =>
    .pure ⟨⟨hr.1, ht.subscribed, ht.sourced⟩, ht.effects⟩

theorem Inv.onSubscribe (h : s.Inv) (hc : c ∈ s.node.view.connections) : (s.onSubscribe tm c).Returns Live := by
  refine (SubscribableNode.onSubscribe_returns h.alive h.shows hc h.subscribed).bind fun r hr => .pure ?_
  exact ⟨⟨h.sound, hr.1, h.sourced⟩, effects_arrive hr.2⟩

theorem onSubscriberRemoved_node : (s.onSubscriberRemoved n c tm).Returns fun r => r.1.node = s.node := by
  have hloop (is : List Id) : ∀ s, (forEach (loseResponse n c tm) s is).Returns (·.1.node = s.node) := by
    induction is
    case nil          => exact fun s => .ok rfl
    case cons i is ih =>
      refine fun s => Returns.bind (P := (·.1.node = s.node)) ?_ fun r hr =>
        (ih r.1).bind fun t ht => .pure (ht.trans hr)
      exact .bind' fun op => .ite (fun _ => .pure rfl) fun _ => .ite (fun _ => .pure rfl) fun _ => .pure rfl
  exact hloop _ s

theorem Inv.onUnsubscribe (h : s.Inv) : (s.onUnsubscribe tm c).Returns Live := by
  refine (SubscribableNode.narrows_onUnsubscribe h.alive h.shows).bind fun r hr => ?_
  have hsub : Subscribed s.node.view r.1 := h.subscribed.mono hr.1 fun _ => subset_rfl
  have hsends := effects_arrive hr.2
  refine .ite (fun _ => ?_) fun _ => .pure ⟨⟨h.sound, hsub, h.sourced⟩, hsends⟩
  refine ((onSubscriberRemoved_lives (s := { s with subscribers := r.1 }) h.alive hsub h.sourced).and
    onSubscriberRemoved_node).bind fun t ht => .pure ?_
  exact Lives.live (.append hsends ht.1) h.sound ht.2

theorem Inv.bindingReceivers {d : NodeTerminalInfo} (h : s.Inv) :
    (s.bindingReceivers d c).Returns fun rs => ∀ r ∈ rs, r.1 ∈ s.node.view.connections := by
  refine .ite (fun _ => Node.at!_returns.bind fun e he => .bind' fun _ => .pure fun r hr => ?_) fun _ =>
    .pure fun _ hr => absurd hr List.not_mem_nil
  obtain ⟨o, ho, rfl⟩ := List.mem_map.mp hr
  obtain ⟨ho, hoc⟩ := List.mem_filter.mp ho
  refine (h.alive (c := c)).bindings d.binding o.1 o.2 (of_decide_eq_true hoc) ?_
  rw [Node.view_bindings he]
  exact Node.lookup_of_mem_entries ho

theorem Inv.subscriber_connected {o : (_ : Conn) × Id} (h : s.Inv)
    (ho : o ∈ (s.subscribers tm).entries.filter (·.1 ≠ c)) : o.1 ∈ s.node.view.connections := by
  obtain ⟨ho, hc⟩ := List.mem_filter.mp ho
  exact h.alive.users tm o.1 (of_decide_eq_true hc) (h.subscribed tm o.1 (List.mem_map_of_mem ho))

-- A connection scatters on a terminal that it owns.
theorem Inv.onScatter (h : s.Inv) (ho : (s.node.ownerOf tm c).isSome) : (s.onScatter tm i data c).Returns Live := by
  obtain ⟨f, hf⟩ := Option.isSome_iff_exists.mp ho
  refine Node.at!_returns.bind fun e he => .bind' fun _ => h.bindingReceivers.bind fun owners howners => ?_
  obtain rfl : e.id = tm := Register.get?_id he
  extract_lets receivers r
  refine .bind' fun _ => .ite (fun _ => .pure ⟨⟨h.sound, h.subscribed, fun j o b hj hb => ?_⟩, arrives_nil⟩) fun _ =>
    .bind' fun _ => .pure ⟨⟨h.sound, h.subscribed, h.sourced.insert ?_⟩, fun x hx => ?_⟩
  case refine_1 =>
    obtain ⟨hjr, hj⟩ := get?_eraseOperation (s := { s with operations := r.1 }) hj
    rcases get?_insertOperation hj with ⟨hji, _⟩ | hj
    · exact absurd hji hjr
    · exact h.sourced j o b hj hb
  case refine_2 =>
    intro b hb
    cases hb
    exact ⟨f, Node.view_ownerOf hf⟩
  case refine_3 =>
    obtain ⟨o, ho, rfl⟩ := List.mem_map.mp hx
    rcases List.mem_append.mp ho with ho | ho
    · obtain ⟨q, hq, rfl⟩ := List.mem_map.mp ho
      exact h.subscriber_connected hq
    · exact howners o ho

theorem Inv.source_connected (h : s.Inv) (hi : s.operations.get? i = some op) (hb : op.source = some b) :
    b ∈ s.node.view.connections := by
  obtain ⟨c, hc⟩ := CachedPublishSubscribeNode.exists_other b
  obtain ⟨_, f, hf⟩ := h.sourced i op b hi hb
  exact h.alive.owners _ b f hc hf

theorem Inv.onGather (h : s.Inv) : (s.onGather i flags data c).Returns Live := by
  refine Node.deref_returns.bind fun op hi => .bind' fun _ => ?_
  have harrives {flags} : ∀ e ∈ toSource op flags data, e.Arrives s.node.view :=
    toSource_arrives (c := c) h.sourced h.alive hi (h.source_connected hi)
  refine .ite (fun _ => .ite (fun _ => .ite (fun _ => .bind' fun e => .bind' fun _ => .pure ?_) fun _ => .pure ?_)
    fun _ => .pure ?_) fun _ => .pure ⟨h, harrives⟩
  case refine_1 => exact ⟨⟨h.sound, h.subscribed, h.sourced.finish⟩, harrives⟩
  case refine_2 => exact ⟨⟨h.sound, h.subscribed, h.sourced.eraseOperation⟩, harrives⟩
  case refine_3 => exact ⟨⟨h.sound, h.subscribed, h.sourced.setOperation hi rfl fun _ => id⟩, harrives⟩

theorem Inv.onEvent {a : Event} (h : s.Inv) (ha : a.Enabled s) : (s.onEvent a).Returns Live := by
  cases a
  case connectionStarted c   => exact h.onBase (a := .connectionStarted c) trivial trivial
  case connectionDestroyed c => exact h.onBase (a := .connectionDestroyed c) trivial trivial
  case mapping origin m      => exact h.onBase (a := .message origin m) ha.1 ha.2
  case subscribe             => exact h.onSubscribe ha
  case unsubscribe           => exact h.onUnsubscribe
  case scatter               => exact h.onScatter ha.2
  case gather                => exact h.onGather

theorem inv_empty : Inv {} where
  sound      := Node.sound_empty
  subscribed := fun _ _ hb => absurd hb List.not_mem_nil
  sourced    := fun i op b hi => by simp at hi

theorem inv_of_reachable (h : system.Reachable s) : s.Inv := by
  refine h.preserves (fun s hs => ?_) fun s a s' hs ha ht => ?_
  · cases hs
    exact inv_empty
  · obtain ⟨r, hr, rfl⟩ := Except.map_eq_ok.mp ht
    exact (hs.onEvent ha r hr).inv

theorem terminal_of_owner {f : Fsm} (hf : (n.view.terminals tm).owners b = some f) :
    ∃ e, n.terminals.get? tm = some e := by
  cases he : n.terminals.get? tm
  case none   =>
    rw [Node.view_terminals_none he] at hf
    cases hf
  case some e => exact ⟨e, rfl⟩

-- The connections that get the answers are there and own the terminal, where the operation is found.
theorem sources_connected (h : system.Reachable s) (hi : s.operations.get? i = some op) (hb : op.source = some b) :
    b ∈ s.node.connections ∧ i ∈ s.activeOperations op.terminalId ∧
    ∃ f, s.node.ownerOf op.terminalId b = some f ∧ f.state = .mappedConfirmed := by
  have hinv := inv_of_reachable h
  obtain ⟨hactive, f, hf⟩ := hinv.sourced i op b hi hb
  refine ⟨hinv.source_connected hi hb, hactive, f, ?_, (hinv.sound.mapped.owners _ b f hf).state⟩
  obtain ⟨e, he⟩ := terminal_of_owner hf
  rw [Node.view_terminals he] at hf
  rw [Node.ownerOf, he]
  exact hf

-- A connection that is waited for always can answer.
theorem gather_succeeds (h : system.Reachable s) (hi : s.operations.get? i = some op) (hc : c ∈ op.remainingResponses) :
    ∃ r, s.onEvent (.gather c i flags data) = .ok r := by
  have hop : Node.deref (s.operations.get? i) = .ok op := by
    rw [hi]
    rfl
  have hawaited : assert (decide (c ∈ op.remainingResponses)) = .ok () := by
    rw [decide_eq_true hc]
    rfl
  simp only [onEvent, onGather, hop, hawaited, Except.ok_bind]
  split
  case isFalse => exact ⟨_, rfl⟩
  case isTrue  =>
    split
    case isFalse => exact ⟨_, rfl⟩
    case isTrue  =>
      split
      case isFalse   => exact ⟨_, rfl⟩
      case isTrue hs =>
        -- The terminal of the operation is still there.
        obtain ⟨b, hb⟩ := Option.isSome_iff_exists.mp hs
        obtain ⟨hactive, f, hf⟩ := (inv_of_reachable h).sourced i op b hi hb
        obtain ⟨e, he⟩ := terminal_of_owner hf
        have hterminal : Node.at! s.node.terminals op.terminalId = .ok e := by
          simp only [Node.at!, he]
        have hfound : assert (decide (i ∈ s.activeOperations e.id)) = .ok () := by
          rw [Register.get?_id he, decide_eq_true hactive]
          rfl
        simp only [hterminal, hfound, Except.ok_bind]
        exact ⟨_, rfl⟩

def Effect.receiver : Effect → Option Conn
  | .base (.send c _) => some c
  | .send c _         => some c
  | .scatter c _ _ _  => some c
  | .gather c _ _ _   => some c
  | _                 => none

theorem Effect.Arrives.connected {e : Effect} (h : e.Arrives v) (he : e.receiver = some c) : c ∈ v.connections := by
  cases e
  case base e =>
    cases e
    case send =>
      cases he
      exact h
    all_goals cases he
  all_goals
    cases he
    exact h

-- No message of an operation is sent to anyone but to a connection that there still is behind the event.
theorem operations_reach {a : Event} {r : ScatterGatherNode × List Effect} (h : system.Reachable s)
    (ha : system.enabled s a) (hr : s.onEvent a = .ok r) :
    ∀ x ∈ r.2, ∀ c, x.receiver = some c → c ∈ r.1.node.connections := by
  intro x hx c hc
  exact (((inv_of_reachable h).onEvent ha r hr).effects x hx).connected hc

instance {a : Event} : Decidable (a.Enabled s) :=
  match a with
  | .connectionStarted _ | .connectionDestroyed _ => inferInstanceAs (Decidable True)
  | .mapping _ _ | .scatter _ _ _ _ => inferInstanceAs (Decidable (_ ∧ _))
  | .subscribe _ _ | .unsubscribe _ _ | .gather _ _ _ _ => inferInstanceAs (Decidable (_ ∈ _))

instance {a : Event} : Decidable (system.enabled s a) :=
  inferInstanceAs (Decidable (a.Enabled s))

-- A leaf scatters to a node that has subscribed to its terminal.
def relayed : List Event := [
  .connectionStarted Node.leafA, .connectionStarted Node.nodeB,
  .mapping Node.leafA (.terminalDescription ⟨1, "a", false⟩ 4), .mapping Node.nodeB (.terminalMapping 1 7),
  .subscribe Node.nodeB 1, .scatter Node.leafA 1 9 []]

theorem sources_connected_relayed :
    ∃ s op, system.run {} relayed = some s ∧ s.operations.get? 1 = some op ∧ op.source = some Node.leafA ∧
    Node.leafA ∈ s.node.connections ∧ 1 ∈ s.activeOperations op.terminalId ∧
    ∃ f, s.node.ownerOf op.terminalId Node.leafA = some f ∧ f.state = .mappedConfirmed := by
  have h : ((system.run {} relayed).bind fun s => (s.operations.get? 1).map (·.source)) = some (some Node.leafA) := rfl
  obtain ⟨s, hs, h⟩ := Option.bind_eq_some_iff.mp h
  obtain ⟨op, hi, hsource⟩ := Option.map_eq_some_iff.mp h
  exact ⟨s, op, hs, hi, hsource, sources_connected (.of_run (.init rfl) hs) hi hsource⟩

-- The leaf gets the answer that the connection has been lost.
theorem operations_reach_relayed :
    ∃ s r, system.run {} relayed = some s ∧ s.onEvent (.connectionDestroyed Node.nodeB) = .ok r ∧
    r.2.map (·.receiver) = [some Node.leafA, some Node.leafA] ∧
    ∀ x ∈ r.2, ∀ c, x.receiver = some c → c ∈ r.1.node.connections := by
  have h : ((system.run {} relayed).bind fun s =>
      (s.onEvent (.connectionDestroyed Node.nodeB)).toOption.map (·.2.map (·.receiver))) =
        some [some Node.leafA, some Node.leafA] := rfl
  obtain ⟨s, hs, h⟩ := Option.bind_eq_some_iff.mp h
  obtain ⟨r, hr, hl⟩ := Option.map_eq_some_iff.mp h
  have hr := Node.eq_ok hr
  have ha : system.enabled s (.connectionDestroyed Node.nodeB) := trivial
  exact ⟨s, r, hs, hr, hl, operations_reach (.of_run (.init rfl) hs) ha hr⟩

theorem gather_succeeds_relayed :
    ∃ s op, system.run {} relayed = some s ∧ s.operations.get? 1 = some op ∧ Node.nodeB ∈ op.remainingResponses ∧
    ∃ r, s.onEvent (.gather Node.nodeB 1 gatherFinished []) = .ok r := by
  have h : ((system.run {} relayed).bind fun s => (s.operations.get? 1).map (·.remainingResponses)) =
      some [Node.nodeB] := rfl
  obtain ⟨s, hs, h⟩ := Option.bind_eq_some_iff.mp h
  obtain ⟨op, hi, hr⟩ := Option.map_eq_some_iff.mp h
  have hc : Node.nodeB ∈ op.remainingResponses := hr ▸ List.mem_singleton_self _
  exact ⟨s, op, hs, hi, hc, gather_succeeds (.of_run (.init rfl) hs) hi hc⟩

end Yogi.ScatterGatherNode
