import YogiModel.ScatterGather.Relay

-- A node passes answers back to operations only that are not finished.
namespace Yogi.ScatterGatherNode

open Except (Returns)
open ScatterGather (gatherFinished finished)

variable {s s' : ScatterGatherNode} {n : Node} {tm i : Id} {c : Conn} {h' : Node.Hook}
variable {op op' : NodeOperation} {flags : Nat} {data : List Wire.Byte}

-- What happens to the operations of the connections: they are scattered by them and answered by the node.
inductive Entry
  | scattered (c : Conn) (operationId : Id)
  | effect (e : Effect)

abbrev Open := Set (Conn × Id)

variable {O O' O'' : Open} {es es' : List Entry}

def Entry.after (O : Open) : Entry → Open
  | .scattered c i                 => insert (c, i) O
  | .effect (.gather c i flags _)  => if finished flags then O \ {(c, i)} else O
  | .effect _                      => O

def Entry.Due (O : Open) : Entry → Prop
  | .effect (.gather c i _ _) => (c, i) ∈ O
  | _                         => True

def after (O : Open) : List Entry → Open
  | []      => O
  | e :: es => after (e.after O) es

-- Only open operations are answered, and finished ones are not open any more.
def Due (O : Open) : List Entry → Prop
  | []      => True
  | e :: es => e.Due O ∧ Due (e.after O) es

theorem Entry.after_mono {e : Entry} (h : O ⊆ O') : e.after O ⊆ e.after O' := by
  cases e
  case scattered => exact Set.insert_subset_insert h
  case effect e  =>
    cases e
    case gather c i flags data =>
      simp only [Entry.after]
      split
      · exact Set.sdiff_subset_sdiff_left h
      · exact h
    all_goals exact h

theorem Entry.Due.mono {e : Entry} (hd : e.Due O) (h : O ⊆ O') : e.Due O' := by
  cases e
  case scattered => trivial
  case effect e  =>
    cases e
    case gather => exact h hd
    all_goals trivial

theorem after_mono (h : O ⊆ O') : after O es ⊆ after O' es := by
  induction es generalizing O O'
  case nil          => exact h
  case cons e es ih => exact ih (e.after_mono h)

theorem Due.mono (hd : Due O es) (h : O ⊆ O') : Due O' es := by
  induction es generalizing O O'
  case nil          => trivial
  case cons e es ih => exact ⟨hd.1.mono h, ih hd.2 (e.after_mono h)⟩

theorem after_append : after O (es ++ es') = after (after O es) es' := by
  induction es generalizing O
  case nil          => rfl
  case cons e es ih => exact ih

theorem due_append : Due O (es ++ es') ↔ Due O es ∧ Due (after O es) es' := by
  induction es generalizing O
  case nil          => simp only [List.nil_append, Due, after, true_and]
  case cons e es ih => exact (and_congr_right fun _ => ih).trans and_assoc.symm

structure Answers (O : Open) (es : List Entry) (O' : Open) : Prop where
  due  : Due O es
  rest : O' ⊆ after O es

theorem Answers.append (h : Answers O es O') (h' : Answers O' es' O'') : Answers O (es ++ es') O'' where
  due  := due_append.mpr ⟨h.due, h'.due.mono h.rest⟩
  rest := after_append ▸ h'.rest.trans (after_mono h.rest)

theorem answers_nil (h : O' ⊆ O) : Answers O [] O' :=
  ⟨trivial, h⟩

-- Other messages do not matter.
def Effect.Quiet : Effect → Prop
  | .gather _ _ _ _ => False
  | _               => True

theorem answers_quiet {xs : List Effect} (hq : ∀ e ∈ xs, e.Quiet) (h : O' ⊆ O) : Answers O (xs.map .effect) O' := by
  induction xs
  case nil          => exact answers_nil h
  case cons e xs ih =>
    obtain ⟨he, hes⟩ := List.forall_mem_cons.mp hq
    cases e
    case gather => exact he.elim
    all_goals exact ⟨⟨trivial, (ih hes).due⟩, (ih hes).rest⟩

-- The operations that have been scattered by a connection which still waits for answers
def opened (s : ScatterGatherNode) : Open :=
  {p | ∃ i op, s.operations.get? i = some op ∧ op.source = some p.1 ∧ op.sourceOperationId = p.2}

-- A connection does not use an ID for two operations at once.
def Unique (s : ScatterGatherNode) : Prop :=
  ∀ i j op op' c, s.operations.get? i = some op → s.operations.get? j = some op' → op.source = some c →
    op'.source = some c → op.sourceOperationId = op'.sourceOperationId → i = j

-- There are no new operations and no new sources.
def Below (s' s : ScatterGatherNode) : Prop :=
  ∀ i op' c, s'.operations.get? i = some op' → op'.source = some c →
    ∃ op, s.operations.get? i = some op ∧ op.source = some c ∧ op.sourceOperationId = op'.sourceOperationId

theorem below_of_eq (h : s'.operations = s.operations) : Below s' s :=
  fun _ op _ hi hc => ⟨op, h ▸ hi, hc, rfl⟩

theorem Below.unique (h : Below s' s) (hu : Unique s) : Unique s' := by
  intro i j op op' c hi hj hc hc' hid
  obtain ⟨o, hoi, hoc, ho⟩ := h i op c hi hc
  obtain ⟨o', hoj, hoc', ho'⟩ := h j op' c hj hc'
  exact hu i j o o' c hoi hoj hoc hoc' (ho.trans (hid.trans ho'.symm))

theorem Below.opened_subset (h : Below s' s) : opened s' ⊆ opened s := by
  rintro p ⟨i, op, hi, hc, hid⟩
  obtain ⟨o, ho, hoc, hoid⟩ := h i op p.1 hi hc
  exact ⟨i, o, ho, hoc, hoid.trans hid⟩

theorem below_setOperation (hi : s.operations.get? i = some op)
    (hs : ∀ c, op'.source = some c → op.source = some c) (hid : op.sourceOperationId = op'.sourceOperationId) :
    Below (s.setOperation i op') s := by
  intro j o c hj hc
  rcases get?_setOperation hi hj with ⟨rfl, rfl⟩ | ⟨_, hj⟩
  · exact ⟨op, hi, hs c hc, hid⟩
  · exact ⟨o, hj, hc, rfl⟩

theorem below_eraseOperation : Below (s.eraseOperation i) s := by
  intro j o c hj hc
  exact ⟨o, (get?_eraseOperation hj).2, hc, rfl⟩

theorem not_opened_erase (hu : Unique s) (hi : s.operations.get? i = some op) (hc : op.source = some c) :
    (c, op.sourceOperationId) ∉ opened (s.eraseOperation i) := by
  rintro ⟨j, o, hj, hoc, hid⟩
  obtain ⟨hji, hj⟩ := get?_eraseOperation hj
  exact hji (hu j i o op c hj hi hoc hc hid)

theorem answers_toSource (hi : s.operations.get? i = some op) (hs : opened s' ⊆ opened s)
    (hf : finished flags = true → ∀ c, op.source = some c → (c, op.sourceOperationId) ∉ opened s') :
    Answers (opened s) ((toSource op flags data).map .effect) (opened s') := by
  cases hc : op.source
  case none   =>
    simp only [toSource, hc, Option.elim_none, List.map_nil]
    exact answers_nil hs
  case some c =>
    simp only [toSource, hc, Option.elim_some, List.map_cons, List.map_nil]
    refine ⟨⟨⟨i, op, hi, hc, rfl⟩, trivial⟩, fun p hp => ?_⟩
    simp only [after, Entry.after]
    split
    case isTrue hfl => exact ⟨hs hp, fun h => hf hfl c hc (h ▸ hp)⟩
    case isFalse    => exact hs hp

-- What a call does to the operations
structure Relays (s : ScatterGatherNode) (r : ScatterGatherNode × List Effect) : Prop where
  unique  : Unique r.1
  answers : Answers (opened s) (r.2.map .effect) (opened r.1)

theorem relays_quiet {xs : List Effect} (hb : Below s' s) (hu : Unique s) (hq : ∀ e ∈ xs, e.Quiet) :
    Relays s (s', xs) :=
  ⟨hb.unique hu, answers_quiet hq hb.opened_subset⟩

theorem relays_nil (hb : Below s' s) (hu : Unique s) : Relays s (s', []) :=
  relays_quiet hb hu fun _ he => absurd he List.not_mem_nil

theorem relays_toSource (hi : s.operations.get? i = some op) (hb : Below s' s) (hu : Unique s)
    (hf : finished flags = true → ∀ c, op.source = some c → (c, op.sourceOperationId) ∉ opened s') :
    Relays s (s', toSource op flags data) :=
  ⟨hb.unique hu, answers_toSource hi hb.opened_subset hf⟩

theorem Relays.append {r t : ScatterGatherNode × List Effect} (h : Relays s r) (h' : Relays r.1 t) :
    Relays s (t.1, r.2 ++ t.2) := by
  refine ⟨h'.unique, ?_⟩
  rw [List.map_append]
  exact h.answers.append h'.answers

theorem forEach_relays {f : ScatterGatherNode → Id → Result} (hf : ∀ s i, Unique s → (f s i).Returns (Relays s))
    (is : List Id) (hu : Unique s) : (forEach f s is).Returns (Relays s) := by
  induction is generalizing s
  case nil          => exact .ok (relays_nil (below_of_eq rfl) hu)
  case cons i is ih => exact (hf s i hu).bind fun r hr => (ih hr.unique).bind fun t ht => .pure (hr.append ht)

theorem finish_relays (hi : s.operations.get? i = some op) (hu : Unique s) (hs : s'.operations = s.operations) :
    Relays s (s'.eraseOperation i, toSource op flags data) := by
  have hu' : Unique s' := (below_of_eq hs).unique hu
  have hb : Below (s'.eraseOperation i) s := by
    intro j o c hj hc
    obtain ⟨o', ho', h⟩ := below_eraseOperation j o c hj hc
    exact ⟨o', hs ▸ ho', h⟩
  exact relays_toSource hi hb hu fun _ c hc => not_opened_erase hu' (hs.symm ▸ hi) hc

theorem loseResponse_relays (hu : Unique s) : (loseResponse n c tm s i).Returns (Relays s) := by
  refine Node.deref_returns.bind fun op hi => .ite (fun _ => .pure (relays_nil (below_of_eq rfl) hu)) fun _ => ?_
  refine .ite (fun _ => .pure (finish_relays hi hu rfl)) fun _ => .pure ?_
  refine relays_toSource hi (below_setOperation hi (fun _ => id) rfl) hu fun hf => ?_
  split at hf
  · exact absurd hf (by decide)
  · exact absurd hf (by decide)

theorem onSubscriberRemoved_relays (hu : Unique s) : (s.onSubscriberRemoved n c tm).Returns (Relays s) :=
  forEach_relays (fun _ _ hu => loseResponse_relays hu) _ hu

theorem loseSource_relays (hu : Unique s) : (loseSource c tm s i).Returns (Relays s) := by
  refine Node.deref_returns.bind fun op hi => .ite (fun _ => .pure (relays_nil ?_ hu)) fun _ =>
    .pure (relays_nil (below_of_eq rfl) hu)
  exact below_setOperation (s := s.deactivate tm i) hi (fun _ hc => by cases hc) rfl

theorem quiet_sends {ms : SubscribableNode.Sends} : ∀ e ∈ ms.map fun o => Effect.send o.1 o.2, e.Quiet := by
  intro e he
  obtain ⟨o, _, rfl⟩ := List.mem_map.mp he
  trivial

theorem sends_relay {ms : SubscribableNode.Sends} {r : SubscribableNode.Subscriptions} (hu : Unique s) :
    Relays s ({ s with subscribers := r }, ms.map fun o => .send o.1 o.2) :=
  relays_quiet (below_of_eq rfl) hu quiet_sends

-- What follows the base class in a virtual function
theorem Relays.after_sends {ms : SubscribableNode.Sends} {r : SubscribableNode.Subscriptions} {x : Result}
    (hu : Unique s)
    (hx : ∀ s' : ScatterGatherNode, Unique s' → s' = { s with subscribers := r } → x.Returns (Relays s')) :
    (do let t ← x; return (t.1, (ms.map fun o => Effect.send o.1 o.2) ++ t.2) : Result).Returns (Relays s) := by
  have hfirst : Relays s ({ s with subscribers := r }, ms.map fun o => .send o.1 o.2) := sends_relay hu
  exact (hx _ hfirst.unique rfl).bind fun t ht => .pure (hfirst.append ht)

theorem onHook_relays (hu : Unique s) : (s.onHook n h').Returns (Relays s) := by
  refine .bind' fun r => ?_
  split
  case h_1 =>
    refine .ite (fun _ => ?_) fun _ => .pure (sends_relay hu)
    exact .after_sends hu fun s' hu' hs => hs ▸ onSubscriberRemoved_relays (hs ▸ hu')
  case h_2 => exact .after_sends hu fun s' hu' hs => hs ▸ forEach_relays (fun _ _ => loseSource_relays) _ (hs ▸ hu')
  case h_3 =>
    refine .bind' fun d => .ite (fun _ => .pure (sends_relay hu)) fun _ => ?_
    exact .after_sends hu fun s' hu' hs => hs ▸ onSubscriberRemoved_relays (hs ▸ hu')
  case h_4 => exact .pure (sends_relay hu)

theorem onEffect_relays {e : Node.Effect} (hu : Unique s) : (s.onEffect e).Returns (Relays s) := by
  cases e
  case terminalInserted      => exact .pure (relays_nil (below_of_eq rfl) hu)
  case call                  => exact onHook_relays hu
  case send                  => exact .pure (relays_quiet (below_of_eq rfl) hu (by simp [Effect.Quiet]))
  case knownTerminalsChanged => exact .pure (relays_quiet (below_of_eq rfl) hu (by simp [Effect.Quiet]))

theorem onEffects_relays {es : List Node.Effect} (hu : Unique s) : (s.onEffects es).Returns (Relays s) := by
  induction es generalizing s
  case nil          => exact .ok (relays_nil (below_of_eq rfl) hu)
  case cons e es ih =>
    exact (onEffect_relays hu).bind fun r hr => (ih hr.unique).bind fun t ht => .pure (hr.append ht)

theorem onBase_relays {r : Node.Result} (hu : Unique s) : (s.onBase r).Returns (Relays s) :=
  .bind' fun _ => (onEffects_relays hu).bind fun _ ht => .pure ⟨ht.unique, ht.answers⟩

theorem onUnsubscribe_relays (hu : Unique s) : (s.onUnsubscribe tm c).Returns (Relays s) := by
  refine .bind' fun r => .ite (fun _ => ?_) fun _ => .pure (sends_relay hu)
  exact .after_sends hu fun s' hu' hs => hs ▸ onSubscriberRemoved_relays (hs ▸ hu')

theorem not_finished_xor (h : finished flags = true) : finished (flags ^^^ gatherFinished) = false := by
  simp only [finished] at h ⊢
  rw [Nat.testBit_xor, h]
  rfl

-- The flag is not passed on while there are other responses to wait for.
theorem onGather_relays (hu : Unique s) : (s.onGather i flags data c).Returns (Relays s) := by
  refine Node.deref_returns.bind fun op hi => .bind' fun _ => .ite (fun hf => ?_) fun hf =>
    .pure (relays_toSource hi (below_of_eq rfl) hu fun hfl => absurd hfl hf)
  refine .ite (fun _ => .ite (fun _ => .bind' fun e => .bind' fun _ => .pure (finish_relays hi hu rfl)) fun _ =>
    .pure (finish_relays hi hu rfl)) fun _ => .pure ?_
  refine relays_toSource hi (below_setOperation hi (fun _ => id) rfl) hu fun hfl => ?_
  exact absurd ((not_finished_xor hf).symm.trans hfl) Bool.false_ne_true

theorem lt_of_get? {r : ObjectRegister NodeOperation} (h : r.get? i = some op) : i < r.lut.length + 1 := by
  simp only [ObjectRegister.get?] at h
  split at h
  case isTrue  => cases h
  case isFalse =>
    obtain ⟨hl, _⟩ := List.getElem?_eq_some_iff.mp h
    exact Nat.lt_succ_of_le (Nat.le_of_pred_lt hl)

theorem mem_opened_iff {p : Conn × Id} : p ∈ opened s ↔ ∃ i ∈ List.range (s.operations.lut.length + 1),
    (s.operations.get? i).any (fun op => op.source = some p.1 ∧ op.sourceOperationId = p.2) = true := by
  simp only [Option.any_eq_true, decide_eq_true_eq]
  refine ⟨fun h => ?_, fun h => ?_⟩
  · obtain ⟨i, op, hi, hp⟩ := h
    exact ⟨i, List.mem_range.mpr (lt_of_get? hi), op, hi, hp⟩
  · obtain ⟨i, _, op, hi, hp⟩ := h
    exact ⟨i, op, hi, hp⟩

instance {p : Conn × Id} : Decidable (p ∈ opened s) :=
  decidable_of_iff _ mem_opened_iff.symm

-- No open operation of the connection has the same ID.
def Event.Fresh (s : ScatterGatherNode) : Event → Prop
  | .scatter c _ i _ => (c, i) ∉ opened s
  | _                => True

instance {a : Event} : Decidable (a.Fresh s) :=
  match a with
  | .scatter _ _ _ _ => inferInstanceAs (Decidable (_ ∉ _))
  | .connectionStarted _ | .connectionDestroyed _ | .mapping _ _ | .subscribe _ _ | .unsubscribe _ _
  | .gather _ _ _ _ => inferInstanceAs (Decidable True)

def Event.entries : Event → List Entry
  | .scatter c _ i _ => [.scattered c i]
  | _                => []

theorem opened_insert {p : Conn × Id} (h : p ∈ opened { s with operations := (s.operations.insert op).1 }) :
    p ∈ opened s ∨ op.source = some p.1 ∧ op.sourceOperationId = p.2 := by
  obtain ⟨j, o, hj, hc, hid⟩ := h
  rcases get?_insertOperation hj with ⟨_, rfl⟩ | hj
  · exact .inr ⟨hc, hid⟩
  · exact .inl ⟨j, o, hj, hc, hid⟩

theorem unique_insert (hu : Unique s) (hn : ∀ c, op.source = some c → (c, op.sourceOperationId) ∉ opened s) :
    Unique { s with operations := (s.operations.insert op).1 } := by
  intro i j o o' c hi hj hc hc' hid
  rcases get?_insertOperation hi with ⟨hin, rfl⟩ | hio
  case inl =>
    rcases get?_insertOperation hj with ⟨hjn, _⟩ | hjo
    · exact hin.trans hjn.symm
    · exact absurd ⟨j, o', hjo, hc', hid.symm⟩ (hn c hc)
  case inr =>
    rcases get?_insertOperation hj with ⟨_, rfl⟩ | hjo
    · exact absurd ⟨i, o, hio, hc, hid⟩ (hn c hc')
    · exact hu i j o o' c hio hjo hc hc' hid

theorem onScatter_answers (hu : Unique s) (hn : (c, i) ∉ opened s) : (s.onScatter tm i data c).Returns fun r =>
    Unique r.1 ∧ Answers (insert (c, i) (opened s)) (r.2.map .effect) (opened r.1) := by
  refine .bind' fun e => .bind' fun _ => .bind' fun owners => ?_
  extract_lets receivers r
  have hopened : opened { s with operations := r.1 } ⊆ insert (c, i) (opened s) := by
    intro p hp
    rcases opened_insert hp with h | ⟨hc, hid⟩
    · exact Set.mem_insert_of_mem _ h
    · exact .inl (Prod.ext (Option.some.inj hc).symm hid.symm)
  have hunique : Unique { s with operations := r.1 } := unique_insert hu fun d hd => Option.some.inj hd ▸ hn
  refine .bind' fun _ => .ite (fun _ => .pure ?_) fun _ => .bind' fun _ => .pure ?_
  case refine_1 =>
    have hb : Below { s with operations := r.1.erase r.2 } { s with operations := r.1 } :=
      below_eraseOperation (s := { s with operations := r.1 })
    exact ⟨hb.unique hunique, answers_nil (hb.opened_subset.trans hopened)⟩
  case refine_2 =>
    refine ⟨hunique, answers_quiet (fun x hx => ?_) hopened⟩
    obtain ⟨o, _, rfl⟩ := List.mem_map.mp hx
    trivial

theorem Relays.event {r : ScatterGatherNode × List Effect} (h : Relays s r) :
    Unique r.1 ∧ Answers (opened s) ([] ++ r.2.map .effect) (opened r.1) :=
  ⟨h.unique, h.answers⟩

theorem onEvent_answers {a : Event} (hu : Unique s) (ha : a.Fresh s) : (s.onEvent a).Returns fun r =>
    Unique r.1 ∧ Answers (opened s) (a.entries ++ r.2.map .effect) (opened r.1) := by
  cases a
  case connectionStarted   => exact (onBase_relays hu).imp fun _ h => h.event
  case connectionDestroyed => exact (onBase_relays hu).imp fun _ h => h.event
  case mapping             => exact (onBase_relays hu).imp fun _ h => h.event
  case subscribe           => exact .bind' fun r => .pure (sends_relay hu).event
  case unsubscribe         => exact (onUnsubscribe_relays hu).imp fun _ h => h.event
  case gather              => exact (onGather_relays hu).imp fun _ h => h.event
  case scatter             =>
    exact (onScatter_answers hu ha).imp fun r h => ⟨h.1, ⟨trivial, h.2.due⟩, h.2.rest⟩

-- A run with all that happens to operations
structure Run where
  logic : ScatterGatherNode := {}
  log   : List Entry := []

namespace Run

def act (r : Run) (a : Event) : Except Fault Run := do
  let t ← r.logic.onEvent a
  return { logic := t.1, log := r.log ++ (a.entries ++ t.2.map .effect) }

def machine : Machine Run Event Fault where
  init    := (· = {})
  enabled := fun r a => a.Fresh r.logic
  step    := act

structure Inv (r : Run) : Prop where
  unique  : Unique r.logic
  answers : Answers ∅ r.log (opened r.logic)

theorem inv_of_reachable {r : Run} (h : machine.Reachable r) : r.Inv := by
  refine h.preserves (fun r hr => ?_) fun r a r' hr ha hs => ?_
  case refine_1 =>
    cases hr
    refine ⟨fun i j op op' c hi => by simp at hi, answers_nil ?_⟩
    rintro p ⟨i, op, hi, _⟩
    simp at hi
  case refine_2 =>
    obtain ⟨t, ht, hr'⟩ := Except.bind_eq_ok.mp hs
    cases hr'
    obtain ⟨hu, h⟩ := onEvent_answers hr.unique ha t ht
    exact ⟨hu, hr.answers.append h⟩

-- Every message Gather that a node sends back answers an operation that has been scattered and not been finished since.
theorem answers_due {r : Run} (h : machine.Reachable r) : Due ∅ r.log :=
  (inv_of_reachable h).answers.due

instance {r : Run} {a : Event} : Decidable (machine.enabled r a) :=
  inferInstanceAs (Decidable (a.Fresh r.logic))

-- A node answers twice.
def answered : List Event :=
  relayed ++ [.gather Node.nodeB 1 0 [], .gather Node.nodeB 1 1 []]

theorem answers_due_answered : ∃ r, machine.run {} answered = some r ∧ r.log.length = 8 ∧ Due ∅ r.log := by
  have h : (machine.run {} answered).map (·.log.length) = some 8 := rfl
  obtain ⟨r, hr, hl⟩ := Option.map_eq_some_iff.mp h
  exact ⟨r, hr, hl, answers_due (.of_run (.init rfl) hr)⟩

end Run

end Yogi.ScatterGatherNode
