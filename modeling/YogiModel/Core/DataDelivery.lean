import YogiModel.Base.Except
import YogiModel.Core.PublishSubscribeLeaf

namespace Yogi.PublishSubscribeLeaf

open Wire (Byte)

variable {cached : Bool} {s s' : PublishSubscribeLeaf} {es : List Effect} {a : Action} {bd : Id}
  {r : Leaf.Result} {m : Message} {d : List Byte × Bool}

-- The deliveries of data to terminals.
def deliveries (es : List Effect) : List (Nat × List Byte × Bool) :=
  es.filterMap fun
    | .dataReceived t d isCached => some (t, d, isCached)
    | _                          => none

-- The binding group that a message is for, the data and whether it is cached data.
def Message.delivery : Message → Option (Id × List Byte × Bool)
  | .data bd d       => some (bd, d, false)
  | .cachedData bd d => some (bd, d, true)
  | _                => none

-- The messages that a logic has a handler for.
def Message.handled (cached : Bool) : Message → Bool
  | .cachedData _ _ => cached
  | _               => true

-- The terminals that have a binding in a group.
def Bound (l : Leaf) (bd : Id) (t : Nat) : Prop :=
  ∃ b ∈ l.bindingsOf bd, l.objectOf b.terminal = some t

-- Every terminal that has a binding in the group gets the data, exactly once, and no other does.
def FansOut (s : PublishSubscribeLeaf) (bd : Id) (d : List Byte × Bool) (r : Result) : Prop :=
  ∃ s' es, r = .ok (s', es) ∧ (deliveries es).Nodup ∧
    ∀ p, p ∈ deliveries es ↔ Bound s.leaf bd p.1 ∧ p.2 = d

-- Only the base class changes the entries of terminals and bindings.

theorem onBase_ok (h : s.onBase cached r = .ok (s', es)) : ∃ q, r = .ok q ∧ s'.leaf = q.1 := by
  obtain ⟨q, hq, h⟩ := Except.bind_eq_ok.mp h
  obtain ⟨t, _, h⟩ := Except.bind_eq_ok.mp h
  cases h
  exact ⟨q, hq, rfl⟩

theorem onDataReceived_leaf {tm : Element TerminalInfo} {data : List Byte} {b : Bool}
    (h : s.onDataReceived cached tm data b = .ok (s', es)) : s'.leaf = s.leaf := by
  simp only [onDataReceived] at h
  split at h
  case h_1 =>
    cases h
    cases cached <;> rfl
  case h_2 => cases h

theorem onDataMessage_leaf {data : List Byte} {b : Bool}
    (h : s.onDataMessage cached bd data b = .ok (s', es)) : s'.leaf = s.leaf := by
  obtain ⟨e, _, h⟩ := Except.bind_eq_ok.mp h
  split at h
  case h_1 =>
    cases h
    rfl
  case h_2 =>
    obtain ⟨_, _, h⟩ := Except.bind_eq_ok.mp h
    exact onDataReceived_leaf h

theorem onMessageReceived_leaf (h : s.onMessageReceived cached m = .ok (s', es)) :
    s'.leaf = s.leaf := by
  cases m <;> simp only [onMessageReceived] at h
  case data => exact onDataMessage_leaf h
  case cachedData =>
    split at h
    case isTrue  => exact onDataMessage_leaf h
    case isFalse => cases h
  all_goals
    obtain ⟨_, _, h⟩ := Except.bind_eq_ok.mp h
    obtain ⟨_, _, h⟩ := Except.bind_eq_ok.mp h
    obtain ⟨_, _, h⟩ := Except.bind_eq_ok.mp h
    cases h
    rfl

theorem publish_leaf {tm : Id} {data : List Byte} (h : s.publish cached tm data = .ok (s', es)) :
    s'.leaf = s.leaf := by
  obtain ⟨_, _, h⟩ := Except.bind_eq_ok.mp h
  simp only at h
  split at h
  case isTrue =>
    obtain ⟨_, _, h⟩ := Except.bind_eq_ok.mp h
    cases h
    cases cached <;> rfl
  case isFalse =>
    cases h
    cases cached <;> rfl

theorem sound_of_reachable (h : (machine cached).Reachable s) : ∃ m, s.leaf.Sound m := by
  refine h.preserves (I := fun s => ∃ m, s.leaf.Sound m) ?init ?step
  case init =>
    intro s hs
    exact ⟨fun _ => false, (hs : s = {}) ▸ Leaf.sound_init⟩
  case step =>
    rintro s a s' ⟨m, hm⟩ he hs
    obtain ⟨r, hr, h⟩ := Except.map_eq_ok.mp hs
    cases h
    cases a
    case base a =>
      obtain ⟨q, hq, hl⟩ := onBase_ok hr
      exact ⟨_, hl ▸ hm.act he hq⟩
    case messageReceived => exact ⟨m, onMessageReceived_leaf hr ▸ hm⟩
    case publish         => exact ⟨m, publish_leaf hr ▸ hm⟩

-- What a message does depends on the first binding of the group only.
theorem onMessageReceived_eq {l : Id → Bool} (h : s.leaf.Sound l) (hh : m.handled cached)
    (hd : m.delivery = some (bd, d)) {e : Element BindingInfo}
    (hg : s.leaf.bindings.get? bd = some e) :
    ∃ s' es, s.onMessageReceived cached m = .ok (s', es) ∧
      deliveries es = (e.data.bindings.head?.bind fun b => s.leaf.objectOf b.terminal).toList.map
        fun t => (t, d) := by
  have hm : s.onMessageReceived cached m = s.onDataMessage cached bd d.1 d.2 := by
    cases m <;> simp only [Message.delivery, Option.some.injEq, Prod.mk.injEq, reduceCtorEq] at hd
    case data       =>
      obtain ⟨rfl, rfl⟩ := hd
      rfl
    case cachedData =>
      obtain ⟨rfl, rfl⟩ := hd
      exact if_pos hh
  rw [hm]
  simp only [onDataMessage, Leaf.binding!, hg, Except.ok_bind]
  cases hb : e.data.bindings
  case nil => exact ⟨s, [], rfl, rfl⟩
  case cons b bs =>
    have ho := h.owned.owned bd b (by simp [LeafView.bindings, Leaf.view, hg, hb])
    obtain ⟨t, ht⟩ := Option.ne_none_iff_exists'.mp ho
    rw [Leaf.view_object] at ht
    obtain ⟨tm, htm, _, hto⟩ := h.exists_visible ht
    simp only [Leaf.terminal!, htm, Except.ok_bind, onDataReceived, hto, List.head?_cons,
      Option.bind_some, ht]
    exact ⟨_, _, rfl, rfl⟩

-- The data reaches all terminals if the bindings of the group belong to one terminal.
theorem data_fans_out_iff {e : Element BindingInfo} (h : (machine cached).Reachable s)
    (hg : s.leaf.bindings.get? bd = some e) (hh : m.handled cached)
    (hd : m.delivery = some (bd, d)) :
    FansOut s bd d (s.onMessageReceived cached m) ↔
      ∀ b ∈ e.data.bindings, ∀ c ∈ e.data.bindings, b.terminal = c.terminal := by
  obtain ⟨l, hl⟩ := sound_of_reachable h
  obtain ⟨s', es, hs, hes⟩ := onMessageReceived_eq hl hh hd hg
  have hbs : s.leaf.bindingsOf bd = e.data.bindings := by simp [Leaf.bindingsOf, hg]
  have ho : ∀ b ∈ e.data.bindings, ∃ t, s.leaf.objectOf b.terminal = some t := by
    intro b hb
    have := hl.owned.owned bd b (by rwa [Leaf.view_bindings, hbs])
    rw [Leaf.view_object] at this
    exact Option.ne_none_iff_exists'.mp this
  cases hb : e.data.bindings
  case nil =>
    simp only [hb, List.head?_nil, Option.bind_none, Option.toList_none, List.map_nil] at hes
    refine iff_of_true ⟨s', es, hs, hes ▸ List.nodup_nil, fun p => ?_⟩ (by simp)
    simp [hes, Bound, hbs, hb]
  case cons b bs =>
    obtain ⟨t, ht⟩ := ho b (by simp [hb])
    simp only [hb, List.head?_cons, Option.bind_some, ht, Option.toList_some, List.map_cons,
      List.map_nil] at hes
    have hall : (∀ b' ∈ b :: bs, ∀ c ∈ b :: bs, b'.terminal = c.terminal) ↔
        ∀ c ∈ bs, c.terminal = b.terminal := by
      constructor
      · exact fun h c hc => h c (List.mem_cons_of_mem _ hc) b List.mem_cons_self
      · intro h b' hb' c hc
        have heq : ∀ c ∈ b :: bs, c.terminal = b.terminal := by simpa using h
        rw [heq b' hb', heq c hc]
    rw [hall]
    constructor
    · rintro ⟨s'', es', hs', _, hf⟩ c hc
      cases Except.ok.inj (hs.symm.trans hs')
      obtain ⟨t', ht'⟩ := ho c (by simp [hb, hc])
      have hm := (hf (t', d)).mpr ⟨⟨c, by simp [hbs, hb, hc], ht'⟩, rfl⟩
      rw [hes, List.mem_singleton] at hm
      cases hm
      exact hl.owned.distinct _ _ _ (Leaf.view_object.trans ht') (Leaf.view_object.trans ht)
    · intro hall
      refine ⟨s', es, hs, hes ▸ List.nodup_singleton _, fun p => ?_⟩
      have hbt : Bound s.leaf bd p.1 ↔ p.1 = t := by
        simp only [Bound, hbs, hb]
        constructor
        · rintro ⟨c, hc, hct⟩
          have heq : c.terminal = b.terminal := by
            cases List.mem_cons.mp hc
            case inl hc => rw [hc]
            case inr hc => exact hall c hc
          rw [heq, ht] at hct
          exact (Option.some.inj hct).symm
        · intro hp
          exact ⟨b, List.mem_cons_self, hp ▸ ht⟩
      rw [hes, List.mem_singleton, hbt, Prod.ext_iff]

-- Two terminals, and two bindings of the first terminal and the terminal `tm` to the same target.
def setup (tm : Id) : List Action :=
  [.base (.connectionStarted false), .base (.newTerminal 0 ⟨1, "a", false⟩),
    .base (.newTerminal 1 ⟨1, "b", false⟩), .base (.newBinding ⟨0, 1⟩ ⟨1, "c", false⟩),
    .base (.newBinding ⟨1, tm⟩ ⟨1, "c", false⟩)]

theorem data_fans_out_one_terminal :
    ∃ s, (machine false).Reachable s ∧
      s.leaf.bindingsOf 1 = [⟨0, 1⟩, ⟨1, 1⟩] ∧
      FansOut s 1 ([7], false) (s.onMessageReceived false (.data 1 [7])) := by
  have h : ((machine false).run {} (setup 1)).map (·.leaf.bindingsOf 1) =
    some [⟨0, 1⟩, ⟨1, 1⟩] := by decide +kernel
  obtain ⟨s, hs, hb⟩ := Option.map_eq_some_iff.mp h
  have hr := Machine.Reachable.of_run (.init rfl) hs
  obtain ⟨e, hg, _⟩ := Leaf.exists_group (l := s.leaf) (i := 1) (b := ⟨0, 1⟩) (by simp [hb])
  have he : e.data.bindings = [⟨0, 1⟩, ⟨1, 1⟩] := by simpa [Leaf.bindingsOf, hg] using hb
  exact ⟨s, hr, hb, (data_fans_out_iff hr hg rfl rfl).mpr (by simp [he])⟩

theorem second_terminal_misses_data :
    ∃ s, (machine false).Reachable s ∧
      s.leaf.bindingsOf 1 = [⟨0, 1⟩, ⟨1, 2⟩] ∧
      ¬FansOut s 1 ([7], false) (s.onMessageReceived false (.data 1 [7])) := by
  have h : ((machine false).run {} (setup 2)).map (fun s =>
      (s.leaf.bindingsOf 1, s.leaf.objectOf 1, s.leaf.objectOf 2)) =
    some ([⟨0, 1⟩, ⟨1, 2⟩], some 0, some 1) := by decide +kernel
  obtain ⟨s, hs, hb⟩ := Option.map_eq_some_iff.mp h
  simp only [Prod.mk.injEq] at hb
  obtain ⟨hb, h₁, h₂⟩ := hb
  have hr := Machine.Reachable.of_run (.init rfl) hs
  obtain ⟨m, hm⟩ := sound_of_reachable hr
  obtain ⟨e, hg, _⟩ := Leaf.exists_group (l := s.leaf) (i := 1) (b := ⟨0, 1⟩) (by simp [hb])
  have he : e.data.bindings = [⟨0, 1⟩, ⟨1, 2⟩] := by simpa [Leaf.bindingsOf, hg] using hb
  have hh : (Message.data 1 [7]).handled false = true := rfl
  obtain ⟨s', es, hs', hes⟩ := onMessageReceived_eq (d := ([7], false)) hm hh rfl hg
  refine ⟨s, hr, hb, ?_⟩
  rintro ⟨s'', es', hs'', _, hf⟩
  cases Except.ok.inj (hs'.symm.trans hs'')
  have := (hf (1, [7], false)).mpr ⟨⟨⟨1, 2⟩, by simp [hb], h₂⟩, rfl⟩
  simp [hes, he, h₁] at this

end Yogi.PublishSubscribeLeaf
