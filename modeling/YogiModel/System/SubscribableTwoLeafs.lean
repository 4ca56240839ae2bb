import YogiModel.Core.SubscribableLeaf
import YogiModel.System.TwoLeafs

namespace Yogi

-- Two leafs whose terminals are subscribable. They never send messages other than those of the mapping
-- protocol.
structure SubscribableTwoLeafs where
  base       : TwoLeafs := {}
  subscribed : Side → Id → Bool := fun _ _ => false

namespace SubscribableTwoLeafs

def step (s : SubscribableTwoLeafs) (i : Side) (a : TwoLeafs.Action) :
    Except Fault SubscribableTwoLeafs := do
  let r ← s.base.step i a
  let t ← SubscribableLeaf.onEffects (s.subscribed i) r.2
  return ⟨r.1, Function.update s.subscribed i t.1⟩

def machine : Machine SubscribableTwoLeafs (Side × TwoLeafs.Action) Fault where
  init    := fun s => s = {}
  enabled := fun s a => s.base.enabled a.1 a.2
  step    := fun s a => s.step a.1 a.2

-- If the remote endpoint is a leaf, a terminal is subscribed if it is mapped.
theorem onEffect_eq {e : Leaf.Effect} {r : Id → Bool}
    (h : ∀ {l b tm}, e = .call l (.terminalMappingChanged b tm) → l.connection = some false) :
    ∃ es, SubscribableLeaf.onEffect r e = .ok (Leaf.reported r [e], es) := by
  cases e
  case terminalInserted tm =>
    rw [(Leaf.Does.inserted (c := none) tm).reported]
    exact ⟨[], rfl⟩
  case call l k =>
    cases k
    case terminalMappingChanged b tm =>
      have hc := h rfl
      rw [(Leaf.Does.terminalMappingChanged b tm hc).reported]
      simp only [SubscribableLeaf.onEffect, SubscribableLeaf.onTerminalMappingChanged, hc]
      cases b
      case true  => exact ⟨_, rfl⟩
      case false =>
        cases hr : r tm
        case true  => exact ⟨_, rfl⟩
        case false =>
          have hu : Function.update r tm false = r := by rw [← hr, Function.update_eq_self]
          simp only [hu]
          exact ⟨[], rfl⟩
    all_goals exact ⟨[], rfl⟩
  all_goals exact ⟨[], rfl⟩

theorem onEffects_eq {es : List Leaf.Effect} {r : Id → Bool}
    (h : ∀ {l b tm}, .call l (.terminalMappingChanged b tm) ∈ es → l.connection = some false) :
    ∃ es', SubscribableLeaf.onEffects r es = .ok (Leaf.reported r es, es') := by
  induction es generalizing r
  case nil => exact ⟨[], rfl⟩
  case cons e es ih =>
    obtain ⟨es₁, h₁⟩ := onEffect_eq (e := e) (r := r) fun he => h (List.mem_cons.mpr (.inl he.symm))
    obtain ⟨es₂, h₂⟩ := ih (r := Leaf.reported r [e]) fun hm => h (List.mem_cons_of_mem _ hm)
    refine ⟨.base e :: es₁ ++ es₂, ?_⟩
    simp only [SubscribableLeaf.onEffects, h₁, bind, Except.bind, h₂]
    rfl

variable {s : SubscribableTwoLeafs} {i : Side} {x : Identifier}

theorem invariant : machine.Invariant fun s => s.base.Inv s.subscribed where
  init := by
    rintro _ rfl
    exact TwoLeafs.inv_init
  step := by
    rintro s ⟨i, a⟩ h he
    obtain ⟨t, es, hs, hst⟩ := h.step he
    have hc : ∀ {l b tm}, .call l (.terminalMappingChanged b tm) ∈ es →
        l.connection = some false := by
      intro l b tm hm
      have hl := hst.calls hm
      cases hn : (t.leaf i).connection
      case none   => exact absurd hm (hst.idle hn)
      case some c =>
        cases c
        case false => exact hl.trans hn
        case true  => exact absurd hn (hst.inv.conn i)
    obtain ⟨es', he'⟩ := onEffects_eq (r := s.subscribed i) hc
    refine ⟨⟨t, Function.update s.subscribed i (Leaf.reported (s.subscribed i) es)⟩, ?_, hst.inv⟩
    simp only [machine, step, hs, bind, Except.bind, he']
    rfl

-- The connection is up and there are no messages in flight.
def Quiescent (s : SubscribableTwoLeafs) : Prop :=
  ∀ i, (s.base.leaf i).connection ≠ none ∧ s.base.channel i = []

-- The two sides agree about a terminal and a binding group with the same identifier.
def Agree (s : SubscribableTwoLeafs) (i : Side) (x : Identifier) : Prop :=
  match (s.base.leaf i).terminals.find? x, (s.base.leaf i.other).bindings.find? x with
  | some tm, some bd =>
    tm.data.fsm.state = .mappedConfirmed ∧ bd.data.fsm.state = .mappedConfirmed ∧
    tm.data.fsm.mappedId = bd.id ∧ bd.data.fsm.mappedId = tm.id ∧
    bd.data.established = true ∧ s.subscribed i tm.id = true
  | some tm, none => tm.data.fsm.state = .unusedConfirmed ∧ s.subscribed i tm.id = false
  | none, some bd => bd.data.fsm.state = .unusedConfirmed ∧ bd.data.established = false
  | none, none    => True

theorem linked_of_quiescent (h : s.base.Inv s.subscribed) (hq : s.Quiescent) (i : Side) :
    Mapping.Linked (s.base.leaf i).objs (s.base.leaf i.other).objs [] [] Mapping.Linked.none
      Mapping.Linked.none := by
  have hk := h.link i
  rwa [TwoLeafs.endpoint_of_connected (hq i).left, TwoLeafs.endpoint_of_connected (hq _).left,
    TwoLeafs.unused_of_connected (hq i).left, TwoLeafs.unused_of_connected (hq _).left,
    (hq i).right, (hq _).right] at hk

theorem agree_of_quiescent (h : s.base.Inv s.subscribed) (hq : s.Quiescent) : s.Agree i x := by
  have hk := linked_of_quiescent h hq i
  have hcf : ∀ i, (s.base.leaf i).connection = some false := fun i => by
    cases hc : (s.base.leaf i).connection
    case none   => exact absurd hc (hq i).left
    case some c =>
      cases c
      case false => rfl
      case true  => exact absurd hc (h.conn i)
  simp only [Agree]
  cases ht : (s.base.leaf i).terminals.find? x
  case none =>
    cases hb : (s.base.leaf i.other).bindings.find? x
    case none    => trivial
    case some bd =>
      obtain ⟨hg, hx, hh⟩ := Register.find?_eq_some_iff.mp hb
      have hok := (h.leaf _).binding hg
      cases hk.swap.of_quiescent (Leaf.objs_binding_eq_some.mpr ⟨bd, hg, hx, rfl⟩)
      case inl hf =>
        refine ⟨by rw [hf.left], ?_⟩
        rw [hok.reported hh (hcf _), hf.left]
        rfl
      case inr hf =>
        obtain ⟨j, _, hj⟩ := hf
        have := (h.leaf i).destroyed_of_find?_none_terminal ht hj
        simp [Fsm.destroyed] at this
  case some tm =>
    obtain ⟨hg, hx, hh⟩ := Register.find?_eq_some_iff.mp ht
    have hok := (h.leaf _).terminal hg
    cases hk.of_quiescent (Leaf.objs_terminal_eq_some.mpr ⟨tm, hg, hx, rfl⟩)
    case inl hf =>
      cases hb : (s.base.leaf i.other).bindings.find? x
      case none =>
        refine ⟨by rw [hf.left], ?_⟩
        rw [hok.reported hh, hf.left]
        rfl
      case some bd =>
        obtain ⟨hg', hx', _⟩ := Register.find?_eq_some_iff.mp hb
        have := hf.right bd.id
        simp [Mapping.Key.flip, Role.flip, Leaf.objs, hg', hx'] at this
    case inr hf =>
      obtain ⟨j, hf, hj⟩ := hf
      obtain ⟨bd, hg', hx', hf'⟩ := Leaf.objs_binding_eq_some.mp hj
      cases Register.get?_id hg'
      have hok' := (h.leaf _).binding hg'
      have hh' : bd.hidden = false := by
        rw [← hok'.hidden, hf']
        rfl
      have hb := Register.find?_of_get? hg' hh'
      rw [hx'] at hb
      rw [hb]
      refine ⟨by rw [hf], by rw [hf'], by rw [hf], by rw [hf'], ?_, ?_⟩
      · rw [hok'.reported hh' (hcf _), hf']
        rfl
      · rw [hok.reported hh, hf]
        rfl

structure Settled (s : SubscribableTwoLeafs) : Prop where
  terminal : ∀ {i tm e}, (s.base.leaf i).terminals.get? tm = some e →
    e.hidden = false ∧ e.data.fsm.skipRemovedAcks = 0
  binding  : ∀ {i bd e}, (s.base.leaf i).bindings.get? bd = some e →
    e.hidden = false ∧ e.data.fsm.skipRemovedAcks = 0
  agree    : ∀ {i x}, s.Agree i x

theorem settled_of_quiescent_objs {k : Mapping.Key} {A B : Mapping.Objs} {j : Id} {f : Fsm}
    (h : Mapping.Linked A B [] [] Mapping.Linked.none Mapping.Linked.none) (hf : A k j = some f) :
    f.destroyed = false ∧ f.skipRemovedAcks = 0 := by
  cases h.of_quiescent hf
  case inl hf =>
    rw [hf.left]
    exact ⟨rfl, rfl⟩
  case inr hf =>
    obtain ⟨_, hf, _⟩ := hf
    rw [hf]
    exact ⟨rfl, rfl⟩

-- With no messages in flight, there are no remains of the past and the two sides agree.
theorem quiescent_agreement (h : machine.Reachable s) (hq : s.Quiescent) : s.Settled := by
  have hinv := invariant.reachable h
  refine ⟨fun {i tm e} hg => ?_, fun {i bd e} hg => ?_, agree_of_quiescent hinv hq⟩
  · rw [← ((hinv.leaf i).terminal hg).hidden]
    exact settled_of_quiescent_objs (linked_of_quiescent hinv hq i)
      (Leaf.objs_terminal_eq_some.mpr ⟨e, hg, rfl, rfl⟩)
  · rw [← ((hinv.leaf i).binding hg).hidden]
    exact settled_of_quiescent_objs (linked_of_quiescent hinv hq i)
      (Leaf.objs_binding_eq_some.mpr ⟨e, hg, rfl, rfl⟩)

instance {s a} : Decidable (machine.enabled s a) :=
  inferInstanceAs (Decidable (s.base.enabled a.1 a.2))

-- The remaining messages of two generations of a terminal are received.
def crossing (x : Identifier) : List (Side × TwoLeafs.Action) :=
  TwoLeafs.crossing x ++ (List.replicate 3 (.b, .messageReceived) ++
    List.replicate 2 (.a, .messageReceived))

theorem quiescent_agreement_crossing :
    ∃ s, machine.run {} (crossing ⟨1, "X", false⟩) = some s ∧ s.Quiescent ∧ s.Settled := by
  obtain ⟨s, hs⟩ := Option.isSome_iff_exists.mp
    (show (machine.run {} (crossing ⟨1, "X", false⟩)).isSome by decide)
  have hd : (machine.run {} (crossing ⟨1, "X", false⟩)).all (fun s =>
      (s.base.leaf .a).connection ≠ none ∧ s.base.channel .a = [] ∧
      (s.base.leaf .b).connection ≠ none ∧ s.base.channel .b = []) := by decide
  have hq : s.Quiescent := by
    simp only [hs, Option.all_some, decide_eq_true_eq] at hd
    intro i
    cases i
    case a => exact ⟨hd.left, hd.right.left⟩
    case b => exact hd.right.right
  exact ⟨s, hs, hq, quiescent_agreement (.of_run (.init rfl) hs) hq⟩

end SubscribableTwoLeafs
end Yogi
