import YogiModel.Core.CachedData

namespace Yogi.CachedPublishSubscribeNode

open Except (Returns)
open Wire (Byte)

variable {s s' : CachedPublishSubscribeNode} {n : Node} {c origin : Conn} {tm bd i : Id}
variable {m : SubscribableNode.Message} {d data : List Byte} {e : Event} {r r' : Run} {es : List Effect}
variable {f : Id → SubscribableNode.Message}

-- A message that is sent on goes to others than the connection from which it has been received.
def SentOn (f : Id → SubscribableNode.Message) (origin : Conn) (es : List Effect) : Prop :=
  ∀ c m, .send c m ∈ es → c ≠ origin ∧ ∃ i, m = f i

theorem sentOn_map {β : Conn → Type} {g : Sigma β → Id} {ps : List (Sigma β)} :
    SentOn f origin ((ps.filter (·.1 ≠ origin)).map fun p => .send p.1 (f (g p))) := by
  intro c m h
  obtain ⟨p, hp, hcm⟩ := List.mem_map.mp h
  cases hcm
  exact ⟨of_decide_eq_true (List.mem_filter.mp hp).right, _, rfl⟩

theorem SentOn.append {es' : List Effect} (h : SentOn f origin es) (h' : SentOn f origin es') :
    SentOn f origin (es ++ es') := by
  intro c m hs
  cases List.mem_append.mp hs
  case inl hs => exact h c m hs
  case inr hs => exact h' c m hs

theorem sendDataToSubscribers_sentOn :
    (s.sendDataToSubscribers f tm origin).Returns (SentOn f origin) := by
  refine .bind' fun e => .bind' fun _ => .ite (fun _ => ?_) fun _ => .pure sentOn_map
  exact .bind' fun b => .bind' fun _ => .pure (sentOn_map.append sentOn_map)

theorem onDataMessage_spec : (s.onDataMessage f tm d origin).Returns fun t =>
    t.1.lastReceivedMessage = Function.update s.lastReceivedMessage tm (some d) ∧
    SentOn f origin t.2 := by
  refine Node.at!_returns.bind fun e he => sendDataToSubscribers_sentOn.bind fun sends hs => .pure ?_
  exact ⟨Register.get?_id he ▸ rfl, hs⟩

-- A connection asks for the stored value of a terminal by subscribing to it or by describing a binding
-- that is associated with it.
inductive Event.Requests (n : Node) : Event → Conn → Id → Prop
  | subscribe {c : Conn} {tm : Id} : Requests n (.message c (.subscribe tm)) c tm
  | binding {c : Conn} {bd i : Id} {b : Element NodeBindingInfo} (hb : n.bindings.get? bd = some b) :
      Requests n (.mapping c (.bindingDescription b.identifier i)) c b.data.terminal

-- What a step does with data.
structure Handles (s : CachedPublishSubscribeNode) (e : Event)
    (t : CachedPublishSubscribeNode × List Effect) : Prop where
  stores : ∀ tm d, t.1.lastReceivedMessage tm = some d →
    (∃ x, e.supplied.find? (·.terminal = tm) = some x ∧ x.data = d) ∨
    (e.supplied.find? (·.terminal = tm) = none ∧ s.lastReceivedMessage tm = some d)
  sends  : ∀ c m d, .send c m ∈ t.2 → m.payload = some d →
    (∃ x ∈ e.supplied, x.data = d ∧ x.connection ≠ c) ∨
    (∃ tm, e.Requests t.1.node c tm ∧ s.lastReceivedMessage tm = some d ∧ ∃ i, m = .cachedData i d)

theorem Keeps.stores (h : s.Keeps s') (he : e.supplied = []) (hd : s'.lastReceivedMessage tm = some d) :
    (∃ x, e.supplied.find? (·.terminal = tm) = some x ∧ x.data = d) ∨
    (e.supplied.find? (·.terminal = tm) = none ∧ s.lastReceivedMessage tm = some d) :=
  .inr ⟨he ▸ rfl, h tm d hd⟩

theorem onSubscribe_handles : (s.onSubscribe tm c).Returns (s.Handles (.message c (.subscribe tm))) := by
  refine SubscribableNode.onSubscribe_noData.bind fun r hr => .pure
    ⟨fun _ _ => Keeps.refl.stores rfl, ?_⟩
  intro c' m d hs hm
  replace hs := send_of_noData hr hs hm
  cases hid : r.2.2
  case none    =>
    rw [hid] at hs
    cases hs
  case some id =>
    rw [hid] at hs
    obtain ⟨hc, hcd, hd⟩ := mem_sendCachedData hs hm
    subst hc
    exact .inr ⟨tm, .subscribe, hd, id, hcd⟩

theorem onUnsubscribe_handles :
    (s.onUnsubscribe tm c).Returns (s.Handles (.message c (.unsubscribe tm))) := by
  refine SubscribableNode.dataFree_onUnsubscribe.bind fun r hr => .pure
    ⟨fun _ _ => Keeps.refl.stores rfl, ?_⟩
  intro c' m d hs hm
  cases send_of_noData hr (List.mem_append_left [] hs) hm

theorem onDataMessage_handles (hf : ∀ i, (f i).payload = some d) (he : e.supplied = [⟨c, tm, d⟩]) :
    (s.onDataMessage f tm d c).Returns (s.Handles e) := by
  refine onDataMessage_spec.imp fun t ht => ?_
  obtain ⟨hs, ho⟩ := ht
  refine ⟨fun tm' d' hd => ?stores, fun c' m d' hs hm => ?sends⟩
  case stores =>
    simp only [hs, Function.update_apply] at hd
    split at hd
    case isTrue ht  =>
      cases hd
      exact .inl ⟨⟨c, tm, d⟩, by simp [he, ht], rfl⟩
    case isFalse ht => exact .inr ⟨by simp [he, Ne.symm ht], hd⟩
  case sends =>
    obtain ⟨hc, i, hi⟩ := ho c' m hs
    have hd := (hf i).symm.trans (hi ▸ hm)
    exact .inl ⟨⟨c, tm, d⟩, he ▸ List.mem_singleton_self _, Option.some.inj hd, hc.symm⟩

-- The reactions of the classes that the logic inherits from.
theorem onBase_handles {x : Node.Result} (he : e.supplied = [])
    (hx : x.Returns fun u => ∀ a ∈ u.2, ∀ o, a.newBindingOwner = some o →
      ∃ y i, e = .mapping c (.bindingDescription y i) ∧ u.1.Adds y c u.2) :
    (s.onBase x).Returns (s.Handles e) := by
  refine hx.bind fun u hu => onEffects_reacts.bind fun t ht => .pure
    ⟨fun _ _ => Keeps.stores ht.keeps he, fun c' m d hs hm => ?_⟩
  obtain ⟨a, ha, n', bd, i, ho, hc⟩ := ht.sends c' m d hs hm
  obtain ⟨y, j, he, hy⟩ := hu a ha _ ho
  obtain ⟨hn, hc', b, hb, hi⟩ := hy a ha _ ho
  obtain ⟨b', hb', hd⟩ := hc.binding
  simp only at hn hc' hb
  subst hn hc' he hi
  cases hb.symm.trans hb'
  exact .inr ⟨b.data.terminal, .binding hb, hd, hc.message⟩

theorem onEvent_handles : (s.onEvent e).Returns (s.Handles e) := by
  cases e
  case connectionStarted c =>
    refine onBase_handles (c := c) rfl (Node.quietly_onConnectionStarted.imp fun u hu a ha o ho => ?_)
    cases (hu a ha).symm.trans ho
  case connectionDestroyed c =>
    refine onBase_handles (c := c) rfl (Node.quietly_onConnectionDestroyed.imp fun u hu a ha o ho => ?_)
    cases (hu a ha).symm.trans ho
  case mapping c m =>
    refine onBase_handles (c := c) rfl (Node.onMessageReceived_newBindingOwner.imp fun u hu a ha o ho => ?_)
    obtain ⟨y, i, hm, hy⟩ := hu a ha o ho
    exact ⟨y, i, hm ▸ rfl, hy⟩
  case message c m =>
    cases m
    case subscribe   => exact onSubscribe_handles
    case unsubscribe => exact onUnsubscribe_handles
    case data        => exact onDataMessage_handles (fun _ => rfl) rfl
    case cachedData  => exact onDataMessage_handles (fun _ => rfl) rfl

-- The value that is stored for a terminal is the one that has been supplied last.
def Run.Stored (r : Run) : Prop :=
  ∀ tm d, r.logic.lastReceivedMessage tm = some d →
    ∃ x, r.supplied.find? (·.terminal = tm) = some x ∧ x.data = d

theorem Run.act_handles : (r.act e).Returns fun t =>
    r.logic.Handles e (t.1.logic, t.2) ∧ t.1.supplied = e.supplied ++ r.supplied :=
  onEvent_handles.bind fun _ ht => .pure ⟨ht, rfl⟩

theorem Run.Stored.act (h : r.Stored) : (r.act e).Returns fun t => t.1.Stored := by
  refine Run.act_handles.imp fun t h' tm d hd => ?_
  obtain ⟨ht, hs⟩ := h'
  rw [hs, List.find?_append]
  cases ht.stores tm d hd
  case inl hx =>
    obtain ⟨x, hx, hxd⟩ := hx
    exact ⟨x, by simp [hx], hxd⟩
  case inr hx =>
    obtain ⟨x, hx', hxd⟩ := h tm d hx.right
    exact ⟨x, by simp [hx.left, hx'], hxd⟩

theorem stored (h : machine.Reachable r) : r.Stored := by
  refine h.preserves (fun r hr tm d hd => ?_) fun r e r' hr _ hs => ?_
  · cases hr
    cases hd
  · obtain ⟨t, ht, htr⟩ := Except.map_eq_ok.mp hs
    exact htr ▸ hr.act t ht

-- Data that has just been received is not sent back. Everything else is the value that has been
-- supplied last for a terminal, whoever has supplied it, and goes to a connection that asks for it.
theorem data_origin (hr : machine.Reachable r) (ha : r.act e = .ok (r', es)) (hs : .send c m ∈ es)
    (hm : m.payload = some d) :
    (∃ x ∈ e.supplied, x.data = d ∧ x.connection ≠ c) ∨
    (∃ tm x i, e.Requests r'.logic.node c tm ∧ m = .cachedData i d ∧
      r.supplied.find? (·.terminal = tm) = some x ∧ x.data = d) := by
  obtain ⟨hh, _⟩ := Run.act_handles _ ha
  cases hh.sends c m d hs hm
  case inl h => exact .inl h
  case inr h =>
    obtain ⟨tm, hq, hd, i, hi⟩ := h
    obtain ⟨x, hx, hxd⟩ := stored hr tm d hd
    exact .inr ⟨tm, x, i, hq, hi, hx, hxd⟩

def leafA : Conn := ⟨0, false⟩
def leafB : Conn := ⟨1, false⟩

-- A leaf publishes data for another leaf.
def published : List Event := [
  .connectionStarted leafA, .connectionStarted leafB,
  .mapping leafA (.terminalDescription ⟨1, "a", false⟩ 4),
  .mapping leafB (.bindingDescription ⟨1, "a", false⟩ 17),
  .message leafA (.data 1 [7])]

-- Then it creates a binding.
def bound : Event :=
  .mapping leafA (.bindingDescription ⟨1, "a", false⟩ 18)

instance (r : Run) (e : Event) : Decidable (machine.enabled r e) :=
  inferInstanceAs (Decidable True)

theorem reachable_published : ∀ r, machine.run {} published = some r → machine.Reachable r :=
  fun _ h => .of_run (.init rfl) h

theorem data_origin_bound :
    ∃ (r r' : Run) (es : List Effect), machine.run {} published = some r ∧
    r.act bound = .ok (r', es) ∧ Effect.send leafA (.cachedData 18 [7]) ∈ es ∧
    ((∃ x ∈ bound.supplied, x.data = [7] ∧ x.connection ≠ leafA) ∨
    (∃ tm x i, bound.Requests r'.logic.node leafA tm ∧
      PublishSubscribeLeaf.Message.cachedData 18 [7] = .cachedData i [7] ∧
      r.supplied.find? (·.terminal = tm) = some x ∧ x.data = [7])) :=
  ⟨_, _, _, rfl, rfl, .tail _ (.head _),
    data_origin (reachable_published _ rfl) rfl (.tail _ (.head _)) rfl⟩

-- No connection is sent data that only this connection has supplied, not even for another terminal.
def NeverEchoed : Prop :=
  ∀ {r r' : Run} {e es c m d}, machine.Reachable r → r.act e = .ok (r', es) → Effect.send c m ∈ es →
    m.payload = some d → ∃ x ∈ r'.supplied, x.data = d ∧ x.connection ≠ c

theorem cached_data_is_echoed : ¬NeverEchoed := by
  intro h
  obtain ⟨r, r', es, hr, ha, hs, hl⟩ : ∃ (r r' : Run) (es : List Effect),
      machine.run {} published = some r ∧ r.act bound = .ok (r', es) ∧
      Effect.send leafA (.cachedData 18 [7]) ∈ es ∧ r'.supplied = [⟨leafA, 1, [7]⟩] :=
    ⟨_, _, _, rfl, rfl, .tail _ (.head _), rfl⟩
  obtain ⟨x, hx, _, hn⟩ := h (reachable_published r hr) ha hs rfl
  rw [hl] at hx
  cases List.mem_singleton.mp hx
  exact hn rfl

end Yogi.CachedPublishSubscribeNode
