import YogiModel.Base.Except
import YogiModel.Base.Machine
import YogiModel.Core.LeafView

namespace Yogi

namespace Leaf

open LeafView

-- What a leaf is asked to do by the library user and by its connection.
inductive Action
  | connectionStarted (remoteIsNode : Bool)
  | connectionDestroyed
  | newTerminal (terminal : Nat) (x : Identifier)
  | terminalDestroyed (terminal : Nat) (tm : Id)
  | newBinding (binding : Binding) (x : Identifier)
  | bindingDestroyed (binding : Binding) (bd : Id)
  | messageReceived (m : Message)

def objectOf (l : Leaf) (tm : Id) : Option Nat :=
  (l.terminals.get? tm).bind (·.data.terminal)

def bindingsOf (l : Leaf) (bd : Id) : List Binding :=
  match l.bindings.get? bd with
  | some e => e.data.bindings
  | none   => []

-- The terminals that exist, and the terminals that bindings hold a reference to.

def objects (l : Leaf) : List Nat :=
  l.terminals.elements.filterMap (·.data.terminal)

def bound (l : Leaf) : List Id :=
  l.bindings.elements.flatMap (·.data.bindings.map (·.terminal))

-- Objects of the library user are new when they are created and exist when they are destroyed, a
-- binding keeps its terminal alive, and the remote endpoint sends what endpoints of its kind send.
def enabled (l : Leaf) : Action → Prop
  | .connectionStarted _     => l.connection = none
  | .connectionDestroyed     => l.connection ≠ none
  | .newTerminal t _         => t ∉ l.objects
  | .terminalDestroyed t tm  => l.objectOf tm = some t ∧ tm ∉ l.bound
  | .newBinding b _          => l.objectOf b.terminal ≠ none
  | .bindingDestroyed b bd   => b ∈ l.bindingsOf bd
  | .messageReceived m       => l.connection ≠ none ∧ (ofNode m = true → l.connection = some true)

instance {l : Leaf} {a : Action} : Decidable (l.enabled a) := by
  cases a <;> simp only [enabled] <;> infer_instance

def act (l : Leaf) : Action → Result
  | .connectionStarted remoteIsNode => l.onConnectionStarted remoteIsNode
  | .connectionDestroyed            => l.onConnectionDestroyed
  | .newTerminal t x                => let r := l.onNewTerminal t x; return (r.1, r.2.1)
  | .terminalDestroyed t tm         => l.onTerminalDestroyed t tm
  | .newBinding b x                 => let r := l.onNewBinding b x; return (r.1, r.2.1)
  | .bindingDestroyed b bd          => l.onBindingDestroyed b bd
  | .messageReceived m              => l.onMessageReceived m

variable {l : Leaf} {m : Id → Bool} {r : Leaf × List Effect} {a : Action} {i j : Id} {t : Nat}
  {b : Binding}

theorem view_object : (l.view m).object i = l.objectOf i := by
  simp only [LeafView.object, view, objectOf]
  cases l.terminals.get? i <;> rfl

theorem view_bindings : (l.view m).bindings i = l.bindingsOf i := by
  simp only [LeafView.bindings, view, bindingsOf]
  cases l.bindings.get? i <;> rfl

theorem mem_objects : t ∈ l.objects ↔ ∃ i, l.objectOf i = some t := by
  simp only [objects, List.mem_filterMap, objectOf, Option.bind_eq_some_iff]
  constructor
  · rintro ⟨e, he, ht⟩
    exact ⟨e.id, e, Register.mem_elements_iff.mp he, ht⟩
  · rintro ⟨i, e, he, ht⟩
    cases Register.get?_id he
    exact ⟨e, Register.mem_elements_iff.mpr he, ht⟩

theorem mem_bound : i ∈ l.bound ↔ ∃ bd, ∃ b ∈ l.bindingsOf bd, b.terminal = i := by
  simp only [bound, List.mem_flatMap, List.mem_map, bindingsOf]
  constructor
  · rintro ⟨e, he, b, hb⟩
    refine ⟨e.id, b, ?_⟩
    simpa [Register.mem_elements_iff.mp he] using hb
  · rintro ⟨i, b, hb⟩
    cases he : l.bindings.get? i <;> simp only [he] at hb
    case none   => simp at hb
    case some e =>
      cases Register.get?_id he
      exact ⟨e, Register.mem_elements_iff.mpr he, b, hb⟩

end Leaf

-- Bindings refer to terminals that exist, and every terminal has an ID of its own.
structure LeafView.Owned (v : LeafView) : Prop where
  owned    : ∀ bd, ∀ b ∈ v.bindings bd, v.object b.terminal ≠ none
  distinct : ∀ i j t, v.object i = some t → v.object j = some t → i = j

namespace LeafView.Owned

variable {v : LeafView} {i : Id} {t : Nat}

theorem newTerminal (h : v.Owned) (ht : ∀ j, v.object j ≠ some t) :
    ((v.setTerminal i (some (some t))).setMapped i false).Owned := by
  have ho : ∀ j, ((v.setTerminal i (some (some t))).setMapped i false).object j =
      if j = i then some t else v.object j := fun j => object_setTerminal
  constructor
  case owned =>
    intro bd b hb
    rw [ho]
    split
    case isTrue  => simp
    case isFalse => exact h.owned bd b hb
  case distinct =>
    intro j k t' hj hk
    rw [ho] at hj hk
    split at hj <;> split at hk
    case isTrue.isTrue   => simp_all
    case isTrue.isFalse  => exact absurd (hk.trans hj.symm) (ht k)
    case isFalse.isTrue  => exact absurd (hj.trans hk.symm) (ht j)
    case isFalse.isFalse => exact h.distinct j k t' hj hk

theorem terminalDestroyed (h : v.Owned) (hb : ∀ bd, ∀ b ∈ v.bindings bd, b.terminal ≠ i) :
    (v.setTerminal i (some none)).Owned := by
  have ho : ∀ j, (v.setTerminal i (some none)).object j = if j = i then none else v.object j :=
    fun j => object_setTerminal
  constructor
  case owned =>
    intro bd b hm
    rw [ho, if_neg (hb bd b hm)]
    exact h.owned bd b hm
  case distinct =>
    intro j k t hj hk
    rw [ho] at hj hk
    split at hj <;> split at hk
    case isFalse.isFalse => exact h.distinct j k t hj hk
    all_goals simp_all

theorem setGroup (h : v.Owned) {bs : List Binding} {e : Bool}
    (hb : ∀ b ∈ bs, v.object b.terminal ≠ none) : (v.setGroup i (some (bs, e))).Owned := by
  constructor
  case owned =>
    intro bd b hm
    rw [bindings_setGroup] at hm
    split at hm
    case isTrue  => exact hb b hm
    case isFalse => exact h.owned bd b hm
  case distinct => exact h.distinct

end LeafView.Owned

namespace Leaf

variable {l : Leaf} {m : Id → Bool} {r : Leaf × List Effect} {a : Action} {i : Id} {t : Nat}

-- What holds for a leaf whatever it is asked to do, `m` being the mapping states that inheriting
-- classes have been told.
structure Sound (l : Leaf) (m : Id → Bool) : Prop where
  inv   : l.Inv m
  owned : (l.view m).Owned

theorem sound_init : Sound {} m where
  inv   := inv_init
  owned := ⟨by simp [view_bindings, bindingsOf], by simp [view_object, objectOf]⟩

theorem Runs.sound {v : LeafView} (h : Runs m v r) (ho : v.Owned) : r.1.Sound (reported m r.2) where
  inv   := h.inv
  owned := by
    constructor
    case owned =>
      intro bd b hb
      rw [h.trace.bindings] at hb
      rw [h.trace.object]
      exact ho.owned bd b hb
    case distinct =>
      intro i j t hi hj
      rw [h.trace.object] at hi hj
      exact ho.distinct i j t hi hj

theorem Runs.objectOf {v : LeafView} (h : Runs m v r) : r.1.objectOf i = v.object i := by
  rw [← view_object (m := reported m r.2)]
  exact h.trace.object

theorem Runs.bindingsOf {v : LeafView} (h : Runs m v r) : r.1.bindingsOf i = v.bindings i := by
  rw [← view_bindings (m := reported m r.2)]
  exact h.trace.bindings

theorem Runs.connection {v : LeafView} (h : Runs m v r) : r.1.connection = v.connection :=
  h.trace.connection

theorem Sound.exists_visible (h : l.Sound m) (ht : l.objectOf i = some t) :
    ∃ e, l.terminals.get? i = some e ∧ e.hidden = false ∧ e.data.terminal = some t := by
  obtain ⟨e, he, ht⟩ := Option.bind_eq_some_iff.mp ht
  have := (h.inv.terminal he).object
  exact ⟨e, he, by simpa [ht] using this, ht⟩

theorem exists_group {b : Binding} (h : b ∈ l.bindingsOf i) :
    ∃ e, l.bindings.get? i = some e ∧ b ∈ e.data.bindings := by
  simp only [bindingsOf] at h
  split at h
  case h_1 e he => exact ⟨e, he, h⟩
  case h_2      => simp at h

theorem Sound.act (h : l.Sound m) (he : l.enabled a) (hr : l.act a = .ok r) :
    r.1.Sound (reported m r.2) := by
  cases a <;> simp only [enabled] at he <;> simp only [Leaf.act] at hr
  case connectionStarted b =>
    exact (h.inv.runs_connectionStarted he hr).sound ⟨h.owned.owned, h.owned.distinct⟩
  case connectionDestroyed =>
    exact (h.inv.runs_connectionDestroyed he hr).sound ⟨h.owned.owned, h.owned.distinct⟩
  case messageReceived msg => exact (h.inv.runs_message he.left he.right hr).sound h.owned
  case newTerminal t x =>
    cases hr
    cases h.inv.runs_newTerminal (t := t) (x := x)
    case inl hn =>
      obtain ⟨i, _, _, _, es, hes, hruns⟩ := hn
      have := hruns.sound (h.owned.newTerminal fun j hj =>
        he (mem_objects.mpr ⟨j, view_object ▸ hj⟩))
      rw [← reported_inserted, ← hes] at this
      exact this
    case inr hn =>
      obtain ⟨hes, hv, hinv⟩ := hn
      rw [show (l.onNewTerminal t x).2.1 = [] from congrArg Prod.fst hes]
      exact ⟨hinv, hv ▸ h.owned⟩
  case terminalDestroyed t i =>
    obtain ⟨e, hg, hh, _⟩ := h.exists_visible he.left
    obtain ⟨l₁, es, hes, _, hruns⟩ := h.inv.runs_terminalDestroyed hg hh hr
    have := hruns.sound (h.owned.terminalDestroyed fun bd b hb hi => he.right
      (mem_bound.mpr ⟨bd, b, view_bindings (m := m) ▸ hb, hi⟩))
    rw [hes]
    exact this
  case newBinding b x =>
    cases hr
    have hob := view_object (m := m) ▸ he
    cases h.inv.runs_newBinding (b := b) (x := x)
    case inl hn => exact hn.2.2.2.sound (h.owned.setGroup (by simpa using hob))
    case inr hn =>
      obtain ⟨e, hf, _, hruns⟩ := hn
      refine hruns.sound (h.owned.setGroup fun c hc => ?_)
      have hg := (Register.find?_eq_some_iff.mp hf).left
      cases List.mem_append.mp hc
      case inl hc => exact h.owned.owned e.id c (by simp [LeafView.bindings, view, hg, hc])
      case inr hc => exact List.mem_singleton.mp hc ▸ hob
  case bindingDestroyed b i =>
    obtain ⟨e, hg, hb⟩ := exists_group he
    obtain ⟨l₁, es, hes, _, hruns⟩ := h.inv.runs_bindingDestroyed hg hb hr
    have := hruns.sound (h.owned.setGroup fun c hc =>
      h.owned.owned i c (by simp [LeafView.bindings, view, hg, List.mem_of_mem_erase hc]))
    rw [hes]
    exact this

-- Without reports the transition of a binding does nothing but send messages.
theorem sends_of_silent {bd : Element BindingInfo} {remote : Id} {cs : List Fsm.Call}
    (h : ∀ b, .mappStCh b ∉ cs) : ∀ e ∈ (run (bindingCall bd remote) l cs).2, ∃ m, e = .send m := by
  induction cs generalizing l
  case nil => simp [run]
  case cons c cs ih =>
    intro e he
    cases List.mem_append.mp he
    case inr he => exact ih (fun b hb => h b (List.mem_cons_of_mem _ hb)) e he
    case inl he =>
      cases c
      case mappStCh => exact absurd List.mem_cons_self (h _)
      all_goals
        simp only [bindingCall, Fsm.Call.body, List.mem_singleton] at he
        exact ⟨_, he⟩

-- The destruction of a binding does not change mappings.
theorem onBindingDestroyed_effects {b : Binding} (h : l.onBindingDestroyed b i = .ok r) :
    ∃ l', ∀ e ∈ r.2, e = .call l' (.bindingRemoved b i) ∨ ∃ m, e = .send m := by
  simp only [onBindingDestroyed] at h
  obtain ⟨d, _, h⟩ := Except.bind_eq_ok.mp h
  simp only [Except.error_bind] at h
  refine ⟨{ l with bindings := l.bindings.modify i fun d =>
    { d with bindings := d.bindings.erase b } }, fun e he => ?_⟩
  split at h
  case isTrue => cases h
  split at h
  case isTrue =>
    cases h
    exact .inl (List.mem_singleton.mp he)
  case isFalse =>
    split at h
    case isFalse =>
      cases h
      exact .inl (List.mem_singleton.mp he)
    case isTrue =>
      obtain ⟨out, hout, h⟩ := Except.bind_eq_ok.mp h
      cases h
      cases List.mem_cons.mp he
      case inl he => exact .inl he
      case inr he =>
        simp only [evalBinding] at he
        split at he <;> exact .inr (sends_of_silent (fun b => Fsm.silent_destroyed hout) e he)

end Leaf
end Yogi
