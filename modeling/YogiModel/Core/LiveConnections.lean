import YogiModel.Core.CachedData
import YogiModel.Core.NodeSteps

-- Subscriptions and messages refer to connections that have not been destroyed.
namespace Yogi

open Except (Returns)

namespace SubscribableNode

open Node (Alive Kinds)

variable {s s' : Subscriptions} {m : Node} {v v' : NodeView} {subs : Subscribers} {tm bd i : Id} {b c : Conn}
variable {e : Element NodeTerminalInfo} {g : Id → Message} {ms ms' : Sends}

def Arrives (v : NodeView) (ms : Sends) : Prop :=
  ∀ o ∈ ms, o.1 ∈ v.connections

@[simp] theorem arrives_nil : Arrives v [] := by
  simp [Arrives]

@[simp] theorem arrives_singleton {o : Conn × Message} : Arrives v [o] ↔ o.1 ∈ v.connections := by
  simp [Arrives]

-- The subscribers of a terminal use it.
def Subscribed (v : NodeView) (s : Subscriptions) : Prop :=
  ∀ tm b, b ∈ (s tm).keys → b ∈ (v.terminals tm).users

def Fewer (s' s : Subscriptions) : Prop :=
  ∀ tm, (s' tm).keys ⊆ (s tm).keys

theorem Fewer.refl : Fewer s s :=
  fun _ => List.Subset.refl _

theorem fewer_update (h : subs.keys ⊆ (s tm).keys) : Fewer (Function.update s tm subs) s := by
  intro i
  by_cases hi : i = tm
  case pos => simpa only [hi, Function.update_self] using h
  case neg => simp only [Function.update_of_ne hi, List.Subset.refl]

theorem Subscribed.mono (h : Subscribed v s) (hs : Fewer s' s)
    (hv : ∀ tm, (v.terminals tm).users ⊆ (v'.terminals tm).users) : Subscribed v' s' :=
  fun tm b hb => hv tm (h tm b (hs tm hb))

theorem keys_erase_subset : (subs.erase c).keys ⊆ subs.keys := by
  rw [AList.keys_erase]
  exact List.erase_subset

-- An owner of a terminal is connected, also the one that the event is about if it still is.
theorem arrives_toOwner (ha : Alive c v) (hm : m.Shows v) (he : m.terminals.get? tm = some e)
    (hb : b = c → c ∈ v.connections) : Arrives v (toOwner e.data b g) := by
  intro o ho
  simp only [toOwner] at ho
  split at ho
  case isFalse   => cases ho
  case isTrue hi =>
    cases List.mem_singleton.mp ho
    cases hf : (Node.ownersMap e.data b).lookup b
    case none   => simp [terminalOwnerFsmMappedId, hf] at hi
    case some f =>
      by_cases hbc : b = c
      case pos => exact hbc ▸ hb hbc
      case neg => exact ha.owners tm b f hbc (hm.view ▸ Node.view_owner he hf)

theorem arrives_toOwners (ha : Alive c v) (hm : m.Shows v) (he : m.terminals.get? tm = some e) :
    Arrives v (toOwners e.data c g) := by
  intro o ho
  obtain ⟨p, hp, rfl⟩ := List.mem_map.mp ho
  obtain ⟨q, hq, rfl⟩ := List.mem_map.mp hp
  obtain ⟨hq, hc⟩ := List.mem_filter.mp hq
  have howner : ∃ f, (m.view.terminals tm).owners q.1 = some f := by
    rcases List.mem_append.mp hq with hq | hq
    · exact hm.kinds.owners_of_leafs he (Node.mem_keys_of_lookup (Node.lookup_of_mem_entries hq))
    · exact hm.kinds.owners_of_nodes he (Node.mem_keys_of_lookup (Node.lookup_of_mem_entries hq))
  obtain ⟨f, hf⟩ := howner
  exact ha.owners tm q.1 f (of_decide_eq_true hc).1 (hm.view ▸ hf)

-- The connection that is lost is not told to unsubscribe.
theorem unsubscribeIfNeeded_arrives (ha : Alive c v) (hm : m.Shows v) (he : m.terminals.get? tm = some e) :
    (unsubscribeIfNeeded m subs e.data c).Returns (Arrives v) := by
  refine .bind' fun only => Node.assert_returns.bind fun _ hc => ?_
  cases only
  case some o =>
    refine .pure (arrives_toOwner ha hm he fun ho => ?_)
    exact absurd (congrArg some ho) (of_decide_eq_true hc)
  case none   =>
    refine .bind' fun none => .pure ?_
    split
    · exact arrives_toOwners ha hm he
    · exact arrives_nil

-- Nobody subscribes and all messages arrive.
abbrev Narrows (v : NodeView) (s : Subscriptions) (r : Result) : Prop :=
  r.Returns fun r => Fewer r.1 s ∧ Arrives v r.2

theorem narrows_removeSubscriberIfNeeded (ha : Alive c v) (hm : m.Shows v) (he : m.terminals.get? tm = some e) :
    Narrows v s (removeSubscriberIfNeeded s m c e) := by
  refine .ite (fun _ => ?_) fun _ => .pure ⟨.refl, arrives_nil⟩
  exact (unsubscribeIfNeeded_arrives ha hm he).bind fun _ hs => .pure ⟨fewer_update keys_erase_subset, hs⟩

theorem removeSubscriberIfNeeded_removes :
    (removeSubscriberIfNeeded s m c e).Returns fun r => c ∉ (r.1 e.id).keys := by
  refine .ite (fun _ => .bind' fun _ => .pure ?_) fun hc => .pure fun hk => hc ?_
  case refine_1 =>
    simp only [Function.update_self, AList.keys_erase]
    exact ((s e.id).nodupKeys).not_mem_erase
  case refine_2 => exact AList.lookup_isSome.mpr (AList.mem_keys.mpr hk)

theorem narrows_subscribeToOwner (hc : c ∈ v.connections) : Narrows v s (subscribeToOwner s m c e i) := by
  refine .bind' fun _ => .bind' fun _ => .bind' fun others => .pure ⟨.refl, ?_⟩
  split
  · exact arrives_singleton.mpr hc
  · exact arrives_nil

theorem narrows_onTerminalOwnerRemoved : Narrows v s (onTerminalOwnerRemoved s m tm) := by
  refine .bind' fun e => .ite (fun _ => .pure ⟨.refl, arrives_nil⟩) fun _ => ?_
  split
  · exact .pure ⟨fewer_update (by simp), arrives_nil⟩
  · exact .pure ⟨fewer_update keys_erase_subset, arrives_nil⟩
  · exact .pure ⟨.refl, arrives_nil⟩

theorem narrows_onBindingOwnerAdded (ha : Alive c v) (hm : m.Shows v) (hc : c ∈ v.connections) :
    Narrows v s (onBindingOwnerAdded s m c bd) := by
  refine .bind' fun d => .bind' fun _ => .ite (fun _ => .pure ⟨.refl, arrives_nil⟩) fun _ => ?_
  refine Node.at!_returns.bind fun e he => .bind' fun no => ?_
  refine .ite (fun _ => .pure ⟨.refl, arrives_toOwners ha hm he⟩) fun _ => ?_
  refine .ite (fun _ => .bind' fun sub => ?_) fun _ => .ite (fun _ => .bind' fun other => ?_) fun _ => ?_
  case refine_1 =>
    split
    case h_1      => exact .pure ⟨.refl, arrives_nil⟩
    case h_2 f hf =>
      obtain ⟨f, hf⟩ := hm.kinds.owners_of_nodes he (Node.mem_keys_of_lookup hf)
      refine .bind' fun _ => .pure ⟨.refl, arrives_singleton.mpr ?_⟩
      by_cases hs : sub = c
      case pos => exact hs ▸ hc
      case neg => exact ha.owners _ sub f hs (hm.view ▸ hf)
  case refine_2 => exact .pure ⟨.refl, arrives_toOwner ha hm he fun _ => hc⟩
  case refine_3 => exact .pure ⟨.refl, arrives_nil⟩

theorem narrows_onBindingOwnerRemoved (ha : Alive c v) (hm : m.Shows v) :
    Narrows v s (onBindingOwnerRemoved s m c bd) := by
  refine .bind' fun d => .bind' fun _ => .bind' fun _ => .ite (fun _ => .pure ⟨.refl, arrives_nil⟩) fun _ => ?_
  refine Node.at!_returns.bind fun e he => ?_
  exact (unsubscribeIfNeeded_arrives ha hm he).bind fun _ hs => .pure ⟨.refl, hs⟩

theorem onTerminalUserRemoved_returns (ha : Alive c v) (hm : m.Shows v) :
    (onTerminalUserRemoved s m c tm).Returns fun r => (Fewer r.1 s ∧ Arrives v r.2) ∧ c ∉ (r.1 tm).keys := by
  refine Node.deref_returns.bind fun e he => .bind' fun _ => ?_
  have hr : (removeSubscriberIfNeeded s m c e).Returns fun r => c ∉ (r.1 e.id).keys := removeSubscriberIfNeeded_removes
  rw [Register.get?_id he] at hr
  exact (narrows_removeSubscriberIfNeeded ha hm he).and hr

-- Only a user of a terminal subscribes to it.
theorem onSubscribe_returns (ha : Alive c v) (hm : m.Shows v) (hc : c ∈ v.connections) (hs : Subscribed v s) :
    (onSubscribe s m tm c).Returns fun r => Subscribed v r.1 ∧ Arrives v r.2.1 := by
  refine .bind' fun _ => Node.at!_returns.bind fun e he => .bind' fun _ => ?_
  extract_lets next
  have hnext (f : Fsm) (hf : e.data.usingNodes.lookup c = some f) :
      (next f).Returns fun r => Subscribed v r.1 ∧ Arrives v r.2.1 := by
    refine .ite (fun _ => .pure ⟨hs, arrives_nil⟩) fun _ => .bind' fun other => .pure ⟨fun i b hb => ?_, ?_⟩
    case refine_1 =>
      change b ∈ (Function.update s e.id ((s e.id).insert c f.mappedId) i).keys at hb
      by_cases hi : i = e.id
      case pos =>
        rw [hi, Function.update_self, AList.keys_insert, List.mem_cons] at hb
        rcases hb with rfl | hb
        · rw [hi, Register.get?_id he]
          exact hm.view ▸ Node.view_users_of_lookup he hf
        · exact hi ▸ hs e.id b (List.mem_of_mem_erase hb)
      case neg =>
        rw [Function.update_of_ne hi] at hb
        exact hs i b hb
    case refine_2 =>
      have ho {o} : Arrives v (toOwner e.data o .subscribe) := arrives_toOwner ha hm he fun _ => hc
      have hall : Arrives v (toOwners e.data c .subscribe) := arrives_toOwners ha hm he
      split
      · split
        · exact ho
        · split
          · exact hall
          · exact arrives_nil
      · split
        · exact hall
        · exact arrives_nil
  split
  case h_1    => exact .error
  case h_2 hf => exact hnext _ hf

theorem narrows_onUnsubscribe (ha : Alive c v) (hm : m.Shows v) : Narrows v s (onUnsubscribe s m tm c) :=
  Node.at!_returns.bind fun _ he => narrows_removeSubscriberIfNeeded ha hm he

end SubscribableNode

namespace CachedPublishSubscribeNode

open Node (Alive Reaction)
open SubscribableNode (Subscribed Fewer Arrives Narrows)

variable {s s' : CachedPublishSubscribeNode} {m : Node} {v v' : NodeView} {tm bd i : Id} {b c : Conn} {h : Node.Hook}
variable {es : List Node.Effect} {g : Id → SubscribableNode.Message} {data : List Wire.Byte}

def Effect.Arrives (v : NodeView) : Effect → Prop
  | .base e   => e.Tells v
  | .send c _ => c ∈ v.connections

-- What a call leaves behind and sends
structure Lives (v : NodeView) (r : CachedPublishSubscribeNode × List Effect) : Prop where
  subscribed : Subscribed v r.1.subscribers
  effects    : ∀ e ∈ r.2, e.Arrives v

theorem effects_arrive {ms : SubscribableNode.Sends} (h : Arrives v ms) :
    ∀ e ∈ ms.map fun o => Effect.send o.1 o.2, e.Arrives v := by
  intro e he
  obtain ⟨o, ho, rfl⟩ := List.mem_map.mp he
  exact h o ho

theorem sendCachedData_arrives (hb : b ∈ v.connections) : ∀ e ∈ s.sendCachedData b i tm, e.Arrives v := by
  intro e he
  simp only [sendCachedData] at he
  split at he
  · cases List.mem_singleton.mp he
    exact hb
  · cases he

theorem onBindingOwner_arrives (hb : b ∈ v.connections) :
    (s.onBindingOwner m b bd i).Returns fun es => ∀ e ∈ es, e.Arrives v := by
  refine .bind' fun d => .ite (fun _ => .pure ?_) fun _ => .bind' fun e => .pure (sendCachedData_arrives hb)
  exact fun _ he => absurd he List.not_mem_nil

-- Cached data is sent to the new owners of bindings.
theorem onHook_lives
    (hr : (SubscribableNode.onHook s.subscribers m h).Returns fun r => Subscribed v r.1 ∧ Arrives v r.2)
    (hb : ∀ b bd i, h = .bindingOwnerAdded b bd i ∨ h = .bindingOwnerRemapped b bd i → b ∈ v.connections) :
    (s.onHook m h).Returns (Lives v) := by
  refine hr.bind fun r hr => ?_
  obtain ⟨hs, hms⟩ := hr
  have hsends := effects_arrive hms
  split
  case h_1 =>
    refine (onBindingOwner_arrives (hb _ _ _ (.inl rfl))).bind fun _ hc => .pure ⟨hs, ?_⟩
    exact List.forall_mem_append.mpr ⟨hsends, hc⟩
  case h_2 =>
    refine (onBindingOwner_arrives (hb _ _ _ (.inr rfl))).bind fun _ hc => .pure ⟨hs, ?_⟩
    exact List.forall_mem_append.mpr ⟨hsends, hc⟩
  case h_3 => exact .pure ⟨hs, hsends⟩

theorem onEffects_singleton {e : Node.Effect} (h : (s.onEffect e).Returns (Lives v)) :
    (s.onEffects [e]).Returns (Lives v) := by
  refine h.bind fun r hr => (Returns.pure (P := (· = (r.1, []))) rfl).bind fun t ht => .pure ?_
  rw [ht]
  exact ⟨hr.subscribed, by simpa using hr.effects⟩

theorem onEffects_told (h : ∀ e ∈ es, e.Tells v) (hs : Subscribed v s.subscribers) :
    (s.onEffects es).Returns (Lives v) := by
  induction es generalizing s
  case nil          => exact .pure ⟨hs, fun _ he => absurd he List.not_mem_nil⟩
  case cons e es ih =>
    obtain ⟨he, hes⟩ := List.forall_mem_cons.mp h
    have hfirst : s.onEffect e = .ok (s, [.base e]) := by
      cases e
      case send                  => rfl
      case knownTerminalsChanged => rfl
      case terminalInserted      => exact he.elim
      case call                  => exact he.elim
    refine Returns.bind (P := (· = (s, [Effect.base e]))) ?_ fun r hr => ?_
    case refine_1 =>
      rw [hfirst]
      exact .ok rfl
    cases hr
    exact (ih hes hs).bind fun t ht => .pure ⟨ht.subscribed, List.forall_mem_cons.mpr ⟨he, ht.effects⟩⟩

-- What is told about a change that concerns no users
theorem onEffects_call (h : Narrows v s.subscribers (SubscribableNode.onHook s.subscribers m h'))
    (hs : Subscribed v s.subscribers)
    (hb : ∀ b bd i, h' = .bindingOwnerAdded b bd i ∨ h' = .bindingOwnerRemapped b bd i → b ∈ v.connections) :
    (s.onEffects [.call m h']).Returns (Lives v) := by
  refine onEffects_singleton (onHook_lives (h.imp fun r hr => ⟨hs.mono hr.1 fun _ => subset_rfl, hr.2⟩) hb)

theorem onEffects_of_step (hs : NodeView.Step c v es v') (ha : Alive c v) (h : Subscribed v s.subscribers) :
    (s.onEffects es).Returns (Lives v') := by
  have ha' := ha.of_step hs
  have owner {tm : Id} {f : Option Fsm} : Subscribed (v.setOwner tm c f) s.subscribers :=
    h.mono .refl fun _ => NodeView.setOwner_users.ge
  have binding {bd : Id} {f : Option Fsm} : Subscribed (v.setBindingOwner bd c f) s.subscribers := h
  cases hs
  case told ht                       => exact onEffects_told ht h
  case users                         =>
    exact .pure ⟨h.mono .refl fun _ _ hb => NodeView.mem_addUsers.mpr (.inl hb), by simp⟩
  case associated                    => exact .pure ⟨h.mono .refl fun _ => NodeView.associate_users.ge, by simp⟩
  case ownerKept                     => exact .pure ⟨owner, by simp⟩
  case bindingOwnerKept              => exact .pure ⟨binding, by simp⟩
  case userAdded                     => exact onEffects_call (.pure ⟨.refl, by simp⟩) h (by simp)
  case inserted tm hi                =>
    refine onEffects_singleton (.pure ⟨h.mono (SubscribableNode.fewer_update (by simp)) fun _ => subset_rfl, by simp⟩)
  case userRemoved tm hm             =>
    refine onEffects_singleton (onHook_lives ?_ (by simp))
    refine (SubscribableNode.onTerminalUserRemoved_returns ha' hm).imp fun r hr => ?_
    refine ⟨fun i b hb => NodeView.mem_removeUser.mpr ⟨h i b (hr.1.1 i hb), fun hi => hr.2 ?_⟩, hr.1.2⟩
    exact hi.1 ▸ hi.2 ▸ hb
  case ownerAdded hc _ _ _           =>
    exact onEffects_call (.bind' fun _ => .bind' fun _ => SubscribableNode.narrows_subscribeToOwner hc) owner (by simp)
  case ownerRemapped hc _ _ _        =>
    exact onEffects_call (.bind' fun _ => SubscribableNode.narrows_subscribeToOwner hc) owner (by simp)
  case ownerRemoved                  =>
    exact onEffects_call SubscribableNode.narrows_onTerminalOwnerRemoved owner (by simp)
  case bindingOwnerAdded hc _ hm _   =>
    exact onEffects_call (SubscribableNode.narrows_onBindingOwnerAdded ha' hm hc) binding (by simp [hc])
  case bindingOwnerRemapped hc _ hm  => exact onEffects_call (.pure ⟨.refl, by simp⟩) binding (by simp [hc])
  case bindingOwnerRemoved hm _      =>
    exact onEffects_call (SubscribableNode.narrows_onBindingOwnerRemoved ha' hm) binding (by simp)

theorem Effect.Arrives.congr {e : Effect} (h : e.Arrives v) (hc : v.connections = v'.connections) : e.Arrives v' := by
  cases e
  case base e =>
    have ht : Node.Tells v [e] := List.forall_mem_singleton.mpr h
    exact ht.congr hc e (List.mem_singleton_self e)
  case send   =>
    change _ ∈ v'.connections
    rw [← hc]
    exact h

theorem onEffects_append {es' : List Node.Effect} {P Q : CachedPublishSubscribeNode × List Effect → Prop}
    (h : (s.onEffects es).Returns P)
    (h' : ∀ r, P r → (r.1.onEffects es').Returns fun t => Q (t.1, r.2 ++ t.2)) :
    (s.onEffects (es ++ es')).Returns Q := by
  induction es generalizing s P Q
  case nil          => exact h' (s, []) (h _ rfl)
  case cons e es ih =>
    refine Returns.bind (P := (s.onEffect e = .ok ·)) (fun _ => id) fun r hr => ?_
    refine (ih (P := fun t => P (t.1, r.2 ++ t.2)) (Q := fun t => Q (t.1, r.2 ++ t.2)) (fun t ht => h _ ?_)
      fun t ht => (h' _ ht).imp fun u hu => ?_).bind fun t ht => .pure ht
    case refine_1 =>
      simp only [onEffects, hr, ht, Except.ok_bind]
      rfl
    case refine_2 =>
      rw [List.append_assoc] at hu
      exact hu

theorem onEffects_of_steps (hs : NodeView.Steps c v es v') (ha : Alive c v) (h : Subscribed v s.subscribers) :
    (s.onEffects es).Returns (Lives v') := by
  induction hs generalizing s
  case nil                => exact .pure ⟨h, by simp⟩
  case cons hstep hs ih   =>
    refine onEffects_append (onEffects_of_step hstep ha h) fun r hr => ?_
    refine (ih (ha.of_step hstep) hr.subscribed).imp fun t ht => ⟨ht.subscribed, ?_⟩
    exact List.forall_mem_append.mpr ⟨fun e he => (hr.effects e he).congr hs.connections_eq.symm, ht.effects⟩

-- The messages come from connections, and these give proper IDs to their objects.
def Event.Enabled (s : CachedPublishSubscribeNode) : Event → Prop
  | .connectionStarted _ | .connectionDestroyed _ => True
  | .mapping origin m => origin ∈ s.node.connections ∧ Node.Event.Proper s.node (.message origin m)
  | .message origin _ => origin ∈ s.node.connections

def system : Machine CachedPublishSubscribeNode Event Fault where
  init    := (· = {})
  enabled := fun s a => a.Enabled s
  step    := fun s a => (s.onEvent a).map Prod.fst

structure Inv (s : CachedPublishSubscribeNode) : Prop where
  sound      : s.node.Sound
  subscribed : Subscribed s.node.view s.subscribers

theorem Inv.shows (h : s.Inv) : s.node.Shows s.node.view :=
  ⟨rfl, h.sound.consistent.kinds⟩

theorem Inv.alive (h : s.Inv) : Alive c s.node.view :=
  h.sound.consistent.alive

theorem exists_other (b : Conn) : ∃ c, b ≠ c :=
  ⟨⟨b.id + 1, b.remoteIsNode⟩, fun hb => Nat.succ_ne_self b.id (congrArg Conn.id hb).symm⟩

theorem Inv.subscriber_connected (h : s.Inv) (hb : b ∈ (s.subscribers tm).keys) : b ∈ s.node.view.connections := by
  obtain ⟨c, hc⟩ := exists_other b
  exact h.alive.users tm b hc (h.subscribed tm b hb)

theorem Inv.bindingOwner_connected {d : Element NodeBindingInfo} {f : Fsm} (h : s.Inv)
    (hd : s.node.bindings.get? bd = some d) (hf : d.data.owningLeafs.lookup b = some f) :
    b ∈ s.node.view.connections := by
  obtain ⟨c, hc⟩ := exists_other b
  refine h.alive.bindings bd b f hc ?_
  rw [Node.view_bindings hd]
  exact hf

-- What an event leaves behind and sends
structure Live (r : CachedPublishSubscribeNode × List Effect) : Prop where
  inv     : r.1.Inv
  effects : ∀ e ∈ r.2, e.Arrives r.1.node.view

theorem Inv.onBase {a : Node.Event} (h : s.Inv) (ha : a.Enabled s.node) (hp : a.Proper s.node) :
    (s.onBase (s.node.onEvent a)).Returns Live := by
  refine (h.sound.onEvent_reaction ha hp).bind fun r hr => ?_
  have halive : Alive a.connection (s.node.connected r.1) := h.alive.connect hr.2.others
  exact (onEffects_of_steps hr.2.steps halive h.subscribed).bind fun t ht => .pure ⟨⟨hr.1, ht.subscribed⟩, ht.effects⟩

-- Data is sent to subscribers and owners of bindings.
theorem Inv.onDataMessage (h : s.Inv) : (s.onDataMessage g tm data c).Returns Live := by
  refine .bind' fun e => Returns.bind (P := fun es => ∀ e ∈ es, e.Arrives s.node.view) ?_ fun es hes =>
    .pure ⟨⟨h.sound, h.subscribed⟩, hes⟩
  refine .bind' fun e => .bind' fun _ => ?_
  extract_lets toSubscribers
  have hsubs : ∀ e ∈ toSubscribers, e.Arrives s.node.view := by
    intro e he
    obtain ⟨o, ho, rfl⟩ := List.mem_map.mp he
    exact h.subscriber_connected (List.mem_map_of_mem (List.mem_filter.mp ho).1)
  refine .ite (fun _ => Node.at!_returns.bind fun d hd => .bind' fun _ => .pure ?_) fun _ => .pure hsubs
  refine List.forall_mem_append.mpr ⟨hsubs, fun e he => ?_⟩
  obtain ⟨o, ho, rfl⟩ := List.mem_map.mp he
  exact h.bindingOwner_connected hd (Node.lookup_of_mem_entries (List.mem_filter.mp ho).1)

theorem Inv.onSubscribe (h : s.Inv) (hc : c ∈ s.node.view.connections) : (s.onSubscribe tm c).Returns Live := by
  refine (SubscribableNode.onSubscribe_returns h.alive h.shows hc h.subscribed).bind fun r hr => .pure ?_
  refine ⟨⟨h.sound, hr.1⟩, List.forall_mem_append.mpr ⟨effects_arrive hr.2, ?_⟩⟩
  cases r.2.2
  case none   => exact fun _ he => absurd he List.not_mem_nil
  case some i => exact sendCachedData_arrives hc

theorem Inv.onUnsubscribe (h : s.Inv) : (s.onUnsubscribe tm c).Returns Live := by
  refine (SubscribableNode.narrows_onUnsubscribe h.alive h.shows).bind fun r hr => .pure ?_
  exact ⟨⟨h.sound, h.subscribed.mono hr.1 fun _ => subset_rfl⟩, effects_arrive hr.2⟩

theorem Inv.onEvent {a : Event} (h : s.Inv) (ha : a.Enabled s) : (s.onEvent a).Returns Live := by
  cases a
  case connectionStarted c   => exact h.onBase (a := .connectionStarted c) trivial trivial
  case connectionDestroyed c => exact h.onBase (a := .connectionDestroyed c) trivial trivial
  case mapping origin m      => exact h.onBase (a := .message origin m) ha.1 ha.2
  case message origin m      =>
    cases m
    case subscribe   => exact h.onSubscribe ha
    case unsubscribe => exact h.onUnsubscribe
    case data        => exact h.onDataMessage
    case cachedData  => exact h.onDataMessage

theorem inv_empty : Inv {} where
  sound      := Node.sound_empty
  subscribed := fun _ _ hb => absurd hb List.not_mem_nil

theorem inv_of_reachable (h : system.Reachable s) : s.Inv := by
  refine h.preserves (fun s hs => ?_) fun s a s' hs ha ht => ?_
  · cases hs
    exact inv_empty
  · obtain ⟨r, hr, rfl⟩ := Except.map_eq_ok.mp ht
    exact (hs.onEvent ha r hr).inv

-- The subscribers of a terminal are connected nodes that use it.
theorem subscribers_connected (h : system.Reachable s) (hb : b ∈ (s.subscribers tm).keys) :
    b ∈ s.node.nodeConnections ∧ ∃ e, s.node.terminals.get? tm = some e ∧ b ∈ e.data.usingNodes.keys := by
  have hi := inv_of_reachable h
  have hu := hi.subscribed tm b hb
  cases he : s.node.terminals.get? tm
  case none   =>
    rw [Node.view_terminals_none he] at hu
    cases hu
  case some e =>
    rw [Node.view_terminals he] at hu
    exact ⟨Node.mem_nodes hi.sound.consistent ((hi.sound.consistent.get? he).users b hu), e, rfl, hu⟩

def Effect.receiver : Effect → Option Conn
  | .base (.send c _) => some c
  | .send c _         => some c
  | _                 => none

theorem Effect.Arrives.connected {e : Effect} (h : e.Arrives v) (he : e.receiver = some c) : c ∈ v.connections := by
  cases e
  case send   =>
    cases he
    exact h
  case base e =>
    cases e
    case send =>
      cases he
      exact h
    all_goals cases he

-- Nothing is sent to anyone but to a connection that there still is behind the event.
theorem receivers_connected {a : Event} {r : CachedPublishSubscribeNode × List Effect} (h : system.Reachable s)
    (ha : system.enabled s a) (hr : s.onEvent a = .ok r) :
    ∀ x ∈ r.2, ∀ c, x.receiver = some c → c ∈ r.1.node.connections := by
  intro x hx c hc
  exact (((inv_of_reachable h).onEvent ha r hr).effects x hx).connected hc

instance {a : Event} : Decidable (a.Enabled s) :=
  match a with
  | .connectionStarted _ | .connectionDestroyed _ => inferInstanceAs (Decidable True)
  | .mapping _ _   => inferInstanceAs (Decidable (_ ∧ _))
  | .message _ _ => inferInstanceAs (Decidable (_ ∈ _))

instance {a : Event} : Decidable (system.enabled s a) :=
  inferInstanceAs (Decidable (a.Enabled s))

-- A node subscribes to the terminal of a leaf.
def exchanged : List Event := [
  .connectionStarted Node.leafA, .connectionStarted Node.nodeB,
  .mapping Node.leafA (.terminalDescription ⟨1, "a", false⟩ 4), .mapping Node.nodeB (.terminalMapping 1 7),
  .message Node.nodeB (.subscribe 1)]

theorem subscribers_connected_exchanged :
    ∃ s, system.run {} exchanged = some s ∧ Node.nodeB ∈ s.node.nodeConnections ∧
    ∃ e, s.node.terminals.get? 1 = some e ∧ Node.nodeB ∈ e.data.usingNodes.keys := by
  have h : (system.run {} exchanged).map (fun s => (s.subscribers 1).keys) = some [Node.nodeB] := rfl
  obtain ⟨s, hs, hk⟩ := Option.map_eq_some_iff.mp h
  exact ⟨s, hs, subscribers_connected (.of_run (.init rfl) hs) (hk ▸ List.mem_singleton_self _)⟩

-- The leaf is told that there are no subscribers any more.
theorem receivers_connected_exchanged :
    ∃ s r, system.run {} exchanged = some s ∧ s.onEvent (.connectionDestroyed Node.nodeB) = .ok r ∧
    r.2.map (·.receiver) = [some Node.leafA] ∧
    ∀ x ∈ r.2, ∀ c, x.receiver = some c → c ∈ r.1.node.connections := by
  have h : ((system.run {} exchanged).bind fun s =>
      (s.onEvent (.connectionDestroyed Node.nodeB)).toOption.map (·.2.map (·.receiver))) =
        some [some Node.leafA] := rfl
  obtain ⟨s, hs, h⟩ := Option.bind_eq_some_iff.mp h
  obtain ⟨r, hr, hl⟩ := Option.map_eq_some_iff.mp h
  have hr := Node.eq_ok hr
  have ha : system.enabled s (.connectionDestroyed Node.nodeB) := trivial
  exact ⟨s, r, hs, hr, hl, receivers_connected (.of_run (.init rfl) hs) ha hr⟩

end CachedPublishSubscribeNode
end Yogi
