import YogiModel.Base.Machine
import YogiModel.Core.LeafOperations
import YogiModel.Core.LeafConnection

namespace Yogi

open Mapping

inductive Side
  | a
  | b
  deriving DecidableEq, Repr

def Side.other : Side → Side
  | a => b
  | b => a

@[simp] theorem Side.other_other {i : Side} : i.other.other = i := by
  cases i <;> rfl

@[simp] theorem Side.other_ne {i : Side} : i.other ≠ i := by
  cases i <;> simp [other]

@[simp] theorem Side.ne_other {i : Side} : i ≠ i.other := by
  cases i <;> simp [other]

theorem Side.eq_other_of_ne {i j : Side} (h : j ≠ i) : j = i.other := by
  cases i <;> cases j <;> simp_all [other]

-- Two leafs joined by a connection; `channel i` holds the messages that have been sent by `i` and not
-- been received yet.
structure TwoLeafs where
  leaf    : Side → Leaf := fun _ => {}
  channel : Side → List Message := fun _ => []

namespace TwoLeafs

inductive Action
  | connectionStarted
  | newTerminal (terminal : Nat) (x : Identifier)
  | terminalDestroyed (terminal : Nat) (tm : Id)
  | newBinding (binding : Binding) (x : Identifier)
  | bindingDestroyed (binding : Binding) (bd : Id)
  | messageReceived

-- The library user destroys objects that exist.
def enabled (s : TwoLeafs) (i : Side) : Action → Prop
  | .connectionStarted       => (s.leaf i).connection = none
  | .newTerminal _ _         => True
  | .terminalDestroyed t tm  =>
    ∃ e, (s.leaf i).terminals.get? tm = some e ∧ e.data.terminal = some t
  | .newBinding _ _          => True
  | .bindingDestroyed b bd   => ∃ e, (s.leaf i).bindings.get? bd = some e ∧ b ∈ e.data.bindings
  | .messageReceived         => (s.leaf i).connection ≠ none ∧ s.channel i.other ≠ []

instance {s : TwoLeafs} {i : Side} {a : Action} : Decidable (s.enabled i a) :=
  match a with
  | .connectionStarted       => inferInstanceAs (Decidable (_ = none))
  | .newTerminal _ _         => inferInstanceAs (Decidable True)
  | .terminalDestroyed t tm  =>
    decidable_of_iff (∃ e ∈ (s.leaf i).terminals.get? tm, e.data.terminal = some t) (by simp [enabled])
  | .newBinding _ _          => inferInstanceAs (Decidable True)
  | .bindingDestroyed b bd   =>
    decidable_of_iff (∃ e ∈ (s.leaf i).bindings.get? bd, b ∈ e.data.bindings) (by simp [enabled])
  | .messageReceived         => inferInstanceAs (Decidable (_ ∧ _))

-- What `i` does and the messages that are still to be received by it.
def react (s : TwoLeafs) (i : Side) : Action → Except Fault ((Leaf × List Leaf.Effect) × List Message)
  | .connectionStarted => do
    return (← (s.leaf i).onConnectionStarted false, s.channel i.other)
  | .newTerminal t x =>
    let r := (s.leaf i).onNewTerminal t x
    return ((r.1, r.2.1), s.channel i.other)
  | .terminalDestroyed t tm => do
    return (← (s.leaf i).onTerminalDestroyed t tm, s.channel i.other)
  | .newBinding b x =>
    let r := (s.leaf i).onNewBinding b x
    return ((r.1, r.2.1), s.channel i.other)
  | .bindingDestroyed b bd => do
    return (← (s.leaf i).onBindingDestroyed b bd, s.channel i.other)
  | .messageReceived =>
    match s.channel i.other with
    | []      => return ((s.leaf i, []), [])
    | m :: ms => do
      return (← (s.leaf i).onMessageReceived m, ms)

def put (s : TwoLeafs) (i : Side) (r : (Leaf × List Leaf.Effect) × List Message) : TwoLeafs where
  leaf    := fun j => if j = i then r.1.1 else s.leaf j
  channel := fun j => if j = i then s.channel i ++ Leaf.sent r.1.2 else r.2

def step (s : TwoLeafs) (i : Side) (a : Action) : Except Fault (TwoLeafs × List Leaf.Effect) := do
  let r ← s.react i a
  return (s.put i r, r.1.2)

def machine : Machine TwoLeafs (Side × Action) Fault where
  init    := fun s => s = {}
  enabled := fun s a => s.enabled a.1 a.2
  step    := fun s a => (s.step a.1 a.2).map Prod.fst

instance {s a} : Decidable (machine.enabled s a) :=
  inferInstanceAs (Decidable (s.enabled a.1 a.2))

-- A leaf takes part in the protocol as soon as it has been told about the connection.
def endpoint (l : Leaf) : Objs :=
  if l.connection = none then fun _ _ => none else l.objs

-- The terminals need not be described when a connection is established.
def unused (l : Leaf) : Key → Prop :=
  if l.connection = none then fun k => k.1 = .terminal else Linked.none

structure Inv (s : TwoLeafs) (r : Side → Id → Bool) : Prop where
  leaf : ∀ i, (s.leaf i).Inv (r i)
  conn : ∀ i, (s.leaf i).connection ≠ some true
  idle : ∀ i, (s.leaf i).connection = none → s.channel i = []
  link : ∀ i, Linked (endpoint (s.leaf i)) (endpoint (s.leaf i.other)) (s.channel i)
    (s.channel i.other) (unused (s.leaf i)) (unused (s.leaf i.other))

variable {s : TwoLeafs} {r : Side → Id → Bool} {i : Side}

theorem endpoint_of_connected {l : Leaf} (h : l.connection ≠ none) : endpoint l = l.objs :=
  if_neg h

theorem unused_of_connected {l : Leaf} (h : l.connection ≠ none) : unused l = Linked.none :=
  if_neg h

theorem inv_init : Inv {} fun _ _ => false where
  leaf := fun _ => Leaf.inv_init
  conn := by simp
  idle := fun _ _ => rfl
  link := fun _ => Linked.init

-- It suffices to have a look at the side that makes a step.
theorem Inv.put (h : s.Inv r) {l : Leaf} {es : List Leaf.Effect} {ms : List Message}
    (hl : l.Inv (Leaf.reported (r i) es)) (hc : l.connection ≠ some true)
    (hi : l.connection = none → s.channel i ++ Leaf.sent es = [])
    (hm : (s.leaf i.other).connection = none → ms = [])
    (hk : Linked (endpoint l) (endpoint (s.leaf i.other)) (s.channel i ++ Leaf.sent es) ms (unused l)
      (unused (s.leaf i.other))) :
    (s.put i ((l, es), ms)).Inv (Function.update r i (Leaf.reported (r i) es)) := by
  constructor
  · intro j
    simp only [TwoLeafs.put, Function.update_apply]
    split
    case isTrue  => exact hl
    case isFalse => exact h.leaf j
  · intro j
    simp only [TwoLeafs.put]
    split
    case isTrue  => exact hc
    case isFalse => exact h.conn j
  · intro j
    simp only [TwoLeafs.put]
    split
    case isTrue     => exact hi
    case isFalse hj => exact Side.eq_other_of_ne hj ▸ hm
  · intro j
    cases Decidable.em (j = i)
    case inl hj => simpa [TwoLeafs.put, hj] using hk
    case inr hj =>
      cases Side.eq_other_of_ne hj
      simpa [TwoLeafs.put] using hk.swap

theorem Inv.operates (h : s.Inv r) {l : Leaf} {es : List Leaf.Effect}
    (ho : (s.leaf i).Operates (r i) l es) :
    (s.put i ((l, es), s.channel i.other)).Inv (Function.update r i (Leaf.reported (r i) es)) := by
  have hk := h.link i
  refine h.put ho.inv (ho.connection ▸ h.conn i) (fun hn => ?_) (h.idle _) ?_
  · rw [ho.connection] at hn
    simp [h.idle i hn, (ho.idle hn).left]
  · cases Decidable.em ((s.leaf i).connection = none)
    case inl hn => simpa [endpoint, unused, ho.connection, hn, (ho.idle hn).left] using hk
    case inr hn =>
      have hn' : l.connection ≠ none := ho.connection ▸ hn
      rw [endpoint_of_connected hn, unused_of_connected hn] at hk
      rw [endpoint_of_connected hn', unused_of_connected hn']
      exact hk.moves (ho.moves hn)

-- What is known about the effects of a step of `i`.
structure Steps (s : TwoLeafs) (r : Side → Id → Bool) (i : Side) (s' : TwoLeafs)
    (es : List Leaf.Effect) : Prop where
  inv   : s'.Inv (Function.update r i (Leaf.reported (r i) es))
  calls : ∀ {l h}, .call l h ∈ es → l.connection = (s'.leaf i).connection
  idle  : (s'.leaf i).connection = none →
    ∀ {l b tm}, .call l (.terminalMappingChanged b tm) ∉ es

theorem Inv.steps_operates (h : s.Inv r) {l : Leaf} {es : List Leaf.Effect}
    (ho : (s.leaf i).Operates (r i) l es) :
    s.Steps r i (s.put i ((l, es), s.channel i.other)) es := by
  refine ⟨h.operates ho, fun hm => ?_, fun hn => ?_⟩
  · simpa [TwoLeafs.put, ho.connection] using ho.calls hm
  · simp only [TwoLeafs.put, if_true, ho.connection] at hn
    exact (ho.idle hn).right

theorem Inv.step (h : s.Inv r) {a : Action} (he : s.enabled i a) :
    ∃ s' es, s.step i a = .ok (s', es) ∧ s.Steps r i s' es := by
  cases a
  case connectionStarted =>
    have hn : (s.leaf i).connection = none := he
    have hk := h.link i
    simp only [endpoint, unused, hn, if_true, h.idle i hn] at hk
    obtain ⟨l, es, hr, hl, hinv, hc, hcl⟩ := (h.leaf i).onConnectionStarted (b := false) hn hk
      (fun _ k hk => hk) fun _ k hk => by
        split at hk
        case isTrue  => exact hk
        case isFalse => exact hk.elim
    have hcn : l.connection ≠ none := by simp [hc]
    have hinv' := h.put hinv (by simp [hc]) (fun hn => absurd hn hcn) (h.idle _) (by
      rw [endpoint_of_connected hcn, unused_of_connected hcn, h.idle i hn]
      exact hl)
    refine ⟨s.put i ((l, es), s.channel i.other), es, ?_, hinv', fun hm => ?_, fun hn => ?_⟩
    · simp only [TwoLeafs.step, react, hr, bind, Except.bind]
      rfl
    · simpa [TwoLeafs.put, hc] using hcl hm
    · simp [TwoLeafs.put, hc] at hn
  case newTerminal t x =>
    exact ⟨_, _, rfl, h.steps_operates (h.leaf i).onNewTerminal⟩
  case terminalDestroyed t tm =>
    obtain ⟨e, hg, ht⟩ := he
    have hh : e.hidden = false := by
      have := ((h.leaf i).terminal hg).object
      simpa [ht] using this.symm
    obtain ⟨l, es, hr, ho⟩ := (h.leaf i).onTerminalDestroyed (t := t) hg hh
    refine ⟨s.put i ((l, es), s.channel i.other), es, ?_, h.steps_operates ho⟩
    simp only [TwoLeafs.step, react, hr, bind, Except.bind]
    rfl
  case newBinding b x =>
    exact ⟨_, _, rfl, h.steps_operates (h.leaf i).onNewBinding⟩
  case bindingDestroyed b bd =>
    obtain ⟨e, hg, hb⟩ := he
    obtain ⟨l, es, hr, ho⟩ := (h.leaf i).onBindingDestroyed hg hb
    refine ⟨s.put i ((l, es), s.channel i.other), es, ?_, h.steps_operates ho⟩
    simp only [TwoLeafs.step, react, hr, bind, Except.bind]
    rfl
  case messageReceived =>
    obtain ⟨hc, hne⟩ := he
    cases hm : s.channel i.other
    case nil => exact absurd hm hne
    case cons m ms =>
      have hk := h.link i
      rw [endpoint_of_connected hc, unused_of_connected hc, hm] at hk
      obtain ⟨l, es, hr, hl, hinv, hcn, hcl⟩ := (h.leaf i).reacts hc hk
      have hc' : l.connection ≠ none := hcn ▸ hc
      have hinv' := h.put hinv (hcn ▸ h.conn i) (fun hn => absurd hn hc')
        (fun hn => by simpa [hm] using h.idle _ hn) (by
          rw [endpoint_of_connected hc', unused_of_connected hc']
          exact hl)
      refine ⟨s.put i ((l, es), ms), es, ?_, hinv', fun hm => ?_, fun hn => ?_⟩
      · simp only [TwoLeafs.step, react, hm, hr, bind, Except.bind]
        rfl
      · simpa [TwoLeafs.put, hcn] using hcl hm
      · simp only [TwoLeafs.put, if_true] at hn
        exact absurd hn hc'

theorem invariant : machine.Invariant fun s => ∃ r, s.Inv r where
  init := by
    rintro _ rfl
    exact ⟨_, inv_init⟩
  step := by
    rintro s a ⟨r, h⟩ he
    obtain ⟨s', es, hs, hst⟩ := h.step he
    exact ⟨s', by simp [machine, hs, Except.map], _, hst.inv⟩

theorem endpoint_of_terminal {l : Leaf} {tm : Id} {e : Element TerminalInfo}
    (hg : l.terminals.get? tm = some e) (hc : l.connection ≠ none) :
    endpoint l (.terminal, e.identifier) tm = some e.data.fsm := by
  rw [endpoint_of_connected hc]
  exact Leaf.objs_terminal_eq_some.mpr ⟨e, hg, rfl, rfl⟩

theorem endpoint_of_binding {l : Leaf} {bd : Id} {e : Element BindingInfo}
    (hg : l.bindings.get? bd = some e) (hc : l.connection ≠ none) :
    endpoint l (.binding, e.identifier) bd = some e.data.fsm := by
  rw [endpoint_of_connected hc]
  exact Leaf.objs_binding_eq_some.mpr ⟨e, hg, rfl, rfl⟩

theorem live_of_endpoint {l : Leaf} {k : Role × Id} {x f}
    (h : endpoint l (k.1, x) k.2 = some f) : l.Live k.1 k.2 := by
  obtain ⟨r, j⟩ := k
  cases Decidable.em (l.connection = none)
  case inl hc => simp [endpoint, hc] at h
  case inr hc =>
    rw [endpoint_of_connected hc] at h
    cases r
    case terminal =>
      obtain ⟨e, he, _⟩ := Leaf.objs_terminal_eq_some.mp h
      exact ⟨e, he⟩
    case binding =>
      obtain ⟨e, he, _⟩ := Leaf.objs_binding_eq_some.mp h
      exact ⟨e, he⟩

-- No assertion fails, no counter is negative and the IDs that are received are valid.
structure Safe (s : TwoLeafs) : Prop where
  step     : ∀ {a}, machine.enabled s a → ∃ s', machine.step s a = .ok s'
  terminal : ∀ {i tm e}, (s.leaf i).terminals.get? tm = some e → 0 ≤ e.data.fsm.skipRemovedAcks
  binding  : ∀ {i bd e}, (s.leaf i).bindings.get? bd = some e → 0 ≤ e.data.fsm.skipRemovedAcks
  live     : ∀ {i m ms k}, machine.enabled s (i, .messageReceived) → s.channel i.other = m :: ms →
    m.names = some k → (s.leaf i).Live k.1 k.2

-- Whatever the two sides do and in whichever order, nothing goes wrong.
theorem mapping_protocol_safe (h : machine.Reachable s) : s.Safe := by
  obtain ⟨r, hinv⟩ := invariant.reachable h
  refine ⟨fun he => invariant.safe h he, fun hg => ((hinv.leaf _).terminal hg).skip,
    fun hg => ((hinv.leaf _).binding hg).skip, fun {i m ms k} he hm hn => ?_⟩
  have hk := hinv.link i
  rw [hm, unused_of_connected he.left] at hk
  obtain ⟨x, f, hf⟩ := hk.exists_of_names hn
  exact live_of_endpoint hf

-- A terminal is destroyed and created anew while the messages about the first one are in flight.
def crossing (x : Identifier) : List (Side × Action) :=
  [(.a, .newTerminal 1 x), (.a, .connectionStarted), (.b, .newBinding ⟨1, 1⟩ x),
    (.b, .connectionStarted), (.a, .messageReceived), (.a, .terminalDestroyed 1 1),
    (.a, .newTerminal 2 x)]

theorem mapping_protocol_safe_crossing :
    ∃ s, machine.run {} (crossing ⟨1, "X", false⟩) = some s ∧ s.Safe := by
  obtain ⟨s, hs⟩ := Option.isSome_iff_exists.mp
    (show (machine.run {} (crossing ⟨1, "X", false⟩)).isSome by decide)
  exact ⟨s, hs, mapping_protocol_safe (.of_run (.init rfl) hs)⟩

end TwoLeafs
end Yogi
