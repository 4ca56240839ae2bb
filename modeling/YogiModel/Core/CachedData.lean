import YogiModel.Core.CachedPublishSubscribeNode
import YogiModel.Core.NodeEffects

namespace Yogi

open Except (Returns)
open Wire (Byte)

-- The published data that a message carries.
def PublishSubscribeLeaf.Message.payload : PublishSubscribeLeaf.Message → Option (List Byte)
  | .data _ d | .cachedData _ d => some d
  | _                           => none

namespace SubscribableNode

-- Only subscriptions are sent.
def NoData (ms : Sends) : Prop :=
  ∀ m ∈ ms, m.2.payload = none

variable {s : Subscriptions} {n : Node} {subs : Subscribers} {tm : NodeTerminalInfo} {c : Conn} {i : Id}
variable {h : Node.Hook} {m : Id → Message}

@[simp] theorem noData_nil : NoData [] := by
  simp [NoData]

@[simp] theorem noData_toOwner (hm : ∀ i, (m i).payload = none) : NoData (toOwner tm c m) := by
  simp only [toOwner]
  split <;> simp [NoData, hm]

@[simp] theorem noData_toOwners (hm : ∀ i, (m i).payload = none) : NoData (toOwners tm c m) := by
  intro o ho
  obtain ⟨p, _, hp⟩ := List.mem_map.mp ho
  exact hp ▸ hm p.2

-- A function of the subscriptions that sends no data.
abbrev DataFree (r : Result) : Prop :=
  r.Returns fun r => NoData r.2

theorem unsubscribeIfNeeded_noData : (unsubscribeIfNeeded n subs tm c).Returns NoData := by
  refine .bind' fun only => .bind' fun _ => ?_
  cases only
  case some o => exact .pure (noData_toOwner fun _ => rfl)
  case none   =>
    refine .bind' fun none => .pure ?_
    split
    · exact noData_toOwners fun _ => rfl
    · exact noData_nil

theorem dataFree_removeSubscriberIfNeeded {e : Element NodeTerminalInfo} :
    DataFree (removeSubscriberIfNeeded s n c e) := by
  refine .ite (fun _ => ?_) fun _ => .pure noData_nil
  exact unsubscribeIfNeeded_noData.bind fun _ hs => .pure hs

theorem dataFree_subscribeToOwner {e : Element NodeTerminalInfo} :
    DataFree (subscribeToOwner s n c e i) := by
  refine .bind' fun _ => .bind' fun _ => .bind' fun others => .pure ?_
  split <;> simp [NoData, PublishSubscribeLeaf.Message.payload]

theorem dataFree_onTerminalOwnerRemoved : DataFree (onTerminalOwnerRemoved s n i) := by
  refine .bind' fun e => .ite (fun _ => .pure noData_nil) fun _ => ?_
  split
  · exact .pure noData_nil
  · exact .pure noData_nil
  · exact .pure noData_nil

theorem dataFree_onBindingOwnerAdded : DataFree (onBindingOwnerAdded s n c i) := by
  refine .bind' fun d => .bind' fun _ => .ite (fun _ => .pure noData_nil) fun _ => ?_
  refine .bind' fun e => .bind' fun no => .ite (fun _ => .pure (noData_toOwners fun _ => rfl)) fun _ => ?_
  refine .ite (fun _ => .bind' fun sub => ?_) fun _ => .ite (fun _ => .bind' fun other => ?_) fun _ => ?_
  · split
    · exact .pure noData_nil
    · exact .bind' fun _ => .pure (by simp [NoData, PublishSubscribeLeaf.Message.payload])
  · exact .pure (noData_toOwner fun _ => rfl)
  · exact .pure noData_nil

theorem dataFree_onBindingOwnerRemoved : DataFree (onBindingOwnerRemoved s n c i) := by
  refine .bind' fun d => .bind' fun _ => .bind' fun _ => .ite (fun _ => .pure noData_nil) fun _ => ?_
  exact .bind' fun e => unsubscribeIfNeeded_noData.bind fun _ hs => .pure hs

theorem dataFree_onHook : DataFree (onHook s n h) := by
  cases h
  case terminalOwnerAdded    => exact .bind' fun _ => .bind' fun _ => dataFree_subscribeToOwner
  case terminalOwnerRemoved  => exact dataFree_onTerminalOwnerRemoved
  case terminalOwnerRemapped => exact .bind' fun _ => dataFree_subscribeToOwner
  case terminalUserAdded     => exact .pure noData_nil
  case terminalUserRemoved   => exact .bind' fun _ => .bind' fun _ => dataFree_removeSubscriberIfNeeded
  case bindingOwnerAdded     => exact dataFree_onBindingOwnerAdded
  case bindingOwnerRemoved   => exact dataFree_onBindingOwnerRemoved
  case bindingOwnerRemapped  => exact .pure noData_nil

theorem onSubscribe_noData : (onSubscribe s n i c).Returns fun r => NoData r.2.1 := by
  refine .bind' fun _ => .bind' fun e => .bind' fun _ => ?_
  extract_lets next
  have h (f : Fsm) : (next f).Returns fun r => NoData r.2.1 := by
    refine .ite (fun _ => .pure noData_nil) fun _ => .bind' fun other => .pure ?_
    have ho {c'} : NoData (toOwner e.data c' .subscribe) := noData_toOwner fun _ => rfl
    have hs : NoData (toOwners e.data c .subscribe) := noData_toOwners fun _ => rfl
    split
    · split
      · exact ho
      · split <;> simp [hs]
    · split <;> simp [hs]
  split
  · exact .error
  · exact h _

theorem dataFree_onUnsubscribe : DataFree (onUnsubscribe s n i c) :=
  .bind' fun _ => dataFree_removeSubscriberIfNeeded

end SubscribableNode

namespace CachedPublishSubscribeNode

-- No value has been stored since for any terminal.
def Keeps (s s' : CachedPublishSubscribeNode) : Prop :=
  ∀ tm d, s'.lastReceivedMessage tm = some d → s.lastReceivedMessage tm = some d

-- The stored value of the terminal that is associated with a binding is sent to its new owner.
structure SendsCached (s : CachedPublishSubscribeNode) (n : Node) (bd : Id) (d : List Byte)
    (m : SubscribableNode.Message) : Prop where
  message : ∃ id, m = .cachedData id d
  binding : ∃ b, n.bindings.get? bd = some b ∧ s.lastReceivedMessage b.data.terminal = some d

variable {s s' : CachedPublishSubscribeNode} {n : Node} {h : Node.Hook} {c origin : Conn}
variable {tm bd i : Id} {m : SubscribableNode.Message} {d : List Byte} {es : List Effect}

@[refl] theorem Keeps.refl : s.Keeps s :=
  fun _ _ h => h

theorem Keeps.trans {s'' : CachedPublishSubscribeNode} (h : s.Keeps s') (h' : s'.Keeps s'') :
    s.Keeps s'' :=
  fun tm d hd => h tm d (h' tm d hd)

theorem SendsCached.of_keeps (hs : s'.SendsCached n bd d m) (hk : s.Keeps s') :
    s.SendsCached n bd d m where
  message := hs.message
  binding := by
    obtain ⟨b, hb, hd⟩ := hs.binding
    exact ⟨b, hb, hk _ _ hd⟩

theorem mem_sendCachedData (h : .send c m ∈ s.sendCachedData origin i tm) (hm : m.payload = some d) :
    c = origin ∧ m = .cachedData i d ∧ s.lastReceivedMessage tm = some d := by
  simp only [sendCachedData] at h
  split at h
  case h_2         => cases h
  case h_1 data hd =>
    cases List.mem_singleton.mp h
    cases hm
    exact ⟨rfl, rfl, hd⟩

-- The messages that carry data are among the given ones.
theorem send_of_noData {ms : SubscribableNode.Sends} (hms : SubscribableNode.NoData ms)
    (h : .send c m ∈ ms.map (fun m => Effect.send m.1 m.2) ++ es) (hm : m.payload = some d) :
    .send c m ∈ es := by
  cases List.mem_append.mp h
  case inr h => exact h
  case inl h =>
    obtain ⟨o, ho, hom⟩ := List.mem_map.mp h
    cases hom
    cases (hms o ho).symm.trans hm

theorem onBindingOwner_sends : (s.onBindingOwner n c bd i).Returns fun es =>
    ∀ c' m d, .send c' m ∈ es → m.payload = some d → c' = c ∧ s.SendsCached n bd d m := by
  refine (Node.deref_returns).bind fun b hb => .ite (fun _ => .pure ?_) fun _ => ?_
  · intro _ _ _ h
    cases h
  refine (Node.at!_returns).bind fun e he => .pure fun c' m d h hm => ?_
  obtain ⟨hc, hm, hd⟩ := mem_sendCachedData h hm
  exact ⟨hc, ⟨i, hm⟩, b, hb, Register.get?_id he ▸ hd⟩

-- What the virtual functions do in reaction to effects of the node: no values are stored, and values are
-- sent only to the new owners of bindings.
structure Reacts (s : CachedPublishSubscribeNode) (es : List Node.Effect)
    (t : CachedPublishSubscribeNode × List Effect) : Prop where
  keeps : s.Keeps t.1
  sends : ∀ c m d, .send c m ∈ t.2 → m.payload = some d → ∃ e ∈ es, ∃ n bd i,
    e.newBindingOwner = some (n, c, bd, i) ∧ s.SendsCached n bd d m

theorem Reacts.nothing : s.Reacts [] (s, []) where
  keeps := Keeps.refl
  sends := by
    intro _ _ _ h
    cases h

theorem Reacts.cons {e : Node.Effect} {es : List Node.Effect} {sends sends' : List Effect}
    {s'' : CachedPublishSubscribeNode} (h : s.Reacts [e] (s', sends)) (h' : s'.Reacts es (s'', sends')) :
    s.Reacts (e :: es) (s'', sends ++ sends') where
  keeps := h.keeps.trans h'.keeps
  sends := by
    intro c m d hs hm
    cases List.mem_append.mp hs
    case inl hs =>
      obtain ⟨e', he, n, bd, i, ho, hd⟩ := h.sends c m d hs hm
      exact ⟨e', List.mem_singleton.mp he ▸ List.mem_cons_self, n, bd, i, ho, hd⟩
    case inr hs =>
      obtain ⟨e', he, n, bd, i, ho, hd⟩ := h'.sends c m d hs hm
      exact ⟨e', List.mem_cons_of_mem _ he, n, bd, i, ho, hd.of_keeps h.keeps⟩

theorem onHook_reacts : (s.onHook n h).Returns (s.Reacts [.call n h]) := by
  refine SubscribableNode.dataFree_onHook.bind fun r hr => ?_
  extract_lets t sends
  have hk : s.Keeps t := Keeps.refl
  have cached {c₀ bd i} (hh : h.newBindingOwner = some (c₀, bd, i)) : Returns (do
      let cached ← t.onBindingOwner n c₀ bd i
      return (t, sends ++ cached)) (s.Reacts [.call n h]) := by
    refine onBindingOwner_sends.bind fun es hes => .pure ⟨hk, fun c m d hs hm => ?_⟩
    obtain ⟨hc, hb⟩ := hes c m d (send_of_noData hr hs hm) hm
    subst hc
    have ho : (Node.Effect.call n h).newBindingOwner = some (n, c, bd, i) := by
      simp [Node.Effect.newBindingOwner, hh]
    exact ⟨_, List.mem_singleton_self _, n, bd, i, ho, hb.of_keeps hk⟩
  split
  · exact cached rfl
  · exact cached rfl
  · refine .pure ⟨hk, fun c m d hs hm => ?_⟩
    cases send_of_noData hr (List.mem_append_left [] hs) hm

theorem onEffect_reacts {e : Node.Effect} : (s.onEffect e).Returns (s.Reacts [e]) := by
  have base {e : Node.Effect} : s.Reacts [e] (s, [.base e]) := by
    refine ⟨Keeps.refl, fun c m d hs _ => ?_⟩
    cases List.mem_singleton.mp hs
  cases e
  case send                  => exact .pure base
  case knownTerminalsChanged => exact .pure base
  case call                  => exact onHook_reacts
  case terminalInserted tm   =>
    refine .pure ⟨fun tm' d hd => ?_, fun c m d hs _ => by cases hs⟩
    simp only [Function.update_apply] at hd
    split at hd
    · cases hd
    · exact hd

theorem onEffects_reacts {es : List Node.Effect} : (s.onEffects es).Returns (s.Reacts es) := by
  induction es generalizing s
  case nil          => exact .pure .nothing
  case cons e es ih => exact onEffect_reacts.bind fun r hr => ih.bind fun t ht => .pure (hr.cons ht)

end CachedPublishSubscribeNode
end Yogi
