import YogiModel.Core.LeafStart
import YogiModel.Core.NodeStart

namespace Yogi

inductive TerminalType
  | deafMute
  | publishSubscribe
  | scatterGather
  | cachedPublishSubscribe
  | producerConsumer
  | cachedProducerConsumer
  | masterSlave
  | cachedMasterSlave
  | serviceClient
  deriving DecidableEq, Repr

namespace TerminalType

-- The order in which the logics are told about a connection.
def order : List TerminalType :=
  [deafMute, publishSubscribe, scatterGather, cachedPublishSubscribe, producerConsumer,
    cachedProducerConsumer, masterSlave, cachedMasterSlave, serviceClient]

theorem mem_order (t : TerminalType) : t ∈ order := by
  cases t <;> decide

theorem order_nodup : order.Nodup := by
  decide

end TerminalType

-- The class `Leaf`, which inherits from a logic for each type of terminals.
structure LeafObject where
  connection        : Option Conn := none
  connectionStarted : Bool := false
  logics            : TerminalType → Leaf := fun _ => {}

namespace LeafObject

-- The result is `none` if an exception is thrown.
def onNewConnection (o : LeafObject) (c : Conn) : Option LeafObject :=
  if o.connection.isSome then none else some { o with connection := some c }

def onConnectionStarted (o : LeafObject) (c : Conn) (k : Nat) :
    Except Fault (Attempt LeafObject) := do
  assert (o.connection = some c)
  let start := fun _ => Leaf.tryOnConnectionStarted c.remoteIsNode
  let undo := fun _ l => do
    let r ← Leaf.onConnectionDestroyed l
    return r.1
  match ← Attempt.startAll start undo TerminalType.order o.logics k with
  | .done logics k  => return .done { o with logics := logics, connectionStarted := true } k
  | .thrown logics  => return .thrown { o with logics := logics }

def onConnectionDestroyed (o : LeafObject) : Except Fault LeafObject := do
  let o := { o with connection := none }
  if o.connectionStarted then
    let logics ← TerminalType.order.foldlM (fun logics t => do
      let r ← (logics t).onConnectionDestroyed
      return Function.update logics t r.1) o.logics
    return { o with logics := logics, connectionStarted := false }
  else
    return o

-- The number of messages that are sent at the start of a connection.
def descriptions (o : LeafObject) (c : Conn) : Nat :=
  (TerminalType.order.map fun t => (o.logics t).descriptions c.remoteIsNode).sum

-- If sending throws after `k` messages, then all logics are without a connection again.
def AllOrNothing (o : LeafObject) (c : Conn) (k : Nat) : Prop :=
  ∃ r, o.onConnectionStarted c k = .ok r ∧ ∀ o', r = .thrown o' → ∀ t, (o'.logics t).Disconnected

end LeafObject

-- The class `Node`.
structure NodeObject where
  logics : TerminalType → Node := fun _ => {}

namespace NodeObject

def onConnectionStarted (o : NodeObject) (c : Conn) (k : Nat) :
    Except Fault (Attempt NodeObject) := do
  let start := fun _ => Node.tryOnConnectionStarted c
  let undo := fun _ n => do
    let r ← Node.onConnectionDestroyed n c
    return r.1
  match ← Attempt.startAll start undo TerminalType.order o.logics k with
  | .done logics k  => return .done { logics := logics } k
  | .thrown logics  => return .thrown { logics := logics }

def descriptions (o : NodeObject) (c : Conn) : Nat :=
  (TerminalType.order.map fun t => (o.logics t).descriptions c).sum

def AllOrNothing (o : NodeObject) (c : Conn) (k : Nat) : Prop :=
  ∃ r, o.onConnectionStarted c k = .ok r ∧ ∀ o', r = .thrown o' → ∀ t, (o'.logics t).Unknown c

end NodeObject

variable {c : Conn} {k : Nat}

-- If the start of a connection fails, then the failing logic still has the connection. The ones before
-- it have been disconnected and those after it have not been told about the connection.
theorem LeafObject.sends_started {o : LeafObject} (h : ∀ t, (o.logics t).Startable) :
    Sends (Attempt.startAll (fun _ => Leaf.tryOnConnectionStarted c.remoteIsNode) (fun _ l => do
        let r ← Leaf.onConnectionDestroyed l
        return r.1) TerminalType.order o.logics) (o.descriptions c)
      (fun logics => ∀ t, (logics t).connection = some c.remoteIsNode)
      (fun logics => ∃ before failed after, TerminalType.order = before ++ failed :: after ∧
        Sends.RolledBack (fun _ => Leaf.Disconnected) (fun _ l => l.connection = some c.remoteIsNode)
          o.logics logics before failed) False := by
  have hs := Sends.startAll (F := False) (s := o.logics)
    (c := fun t => (o.logics t).descriptions c.remoteIsNode)
    (D := fun _ l => l.connection = some c.remoteIsNode)
    (U := fun _ => Leaf.Disconnected)
    (T := fun _ l => l.connection = some c.remoteIsNode)
    (fun _ => Leaf.tryOnConnectionStarted c.remoteIsNode)
    (fun _ l => do
      let r ← Leaf.onConnectionDestroyed l
      return r.1) TerminalType.order_nodup
    (fun t _ => (h t).sends.imp (fun l hl => Leaf.connection_of_started (h t) hl.choose_spec) fun _ => id)
    fun t l hl => by
      obtain ⟨l', es, hd, hl'⟩ := Leaf.disconnects (l := l) (by simp [hl])
      exact .inl ⟨l', by simp only [hd, Except.ok_bind]; rfl, hl'⟩
  exact hs.imp (fun logics hd t => hd.left t (TerminalType.mem_order t)) fun _ => id

-- The failing logic of a node still has the connection among the users of a terminal.
theorem NodeObject.sends_started {o : NodeObject} (h : ∀ t, (o.logics t).Startable c) :
    Sends (Attempt.startAll (fun _ => Node.tryOnConnectionStarted c) (fun _ n => do
        let r ← Node.onConnectionDestroyed n c
        return r.1) TerminalType.order o.logics) (o.descriptions c)
      (fun logics => ∀ t, ∃ es, (o.logics t).onConnectionStarted c = .ok (logics t, es))
      (fun logics => ∃ failed, (logics failed).Uses c) True := by
  have hs := Sends.startAll (F := True) (s := o.logics)
    (c := fun t => (o.logics t).descriptions c)
    (D := fun t n => ∃ es, (o.logics t).onConnectionStarted c = .ok (n, es))
    (U := fun _ _ => True)
    (T := fun _ => Node.Uses c)
    (fun _ => Node.tryOnConnectionStarted c)
    (fun _ n => do
      let r ← Node.onConnectionDestroyed n c
      return r.1) TerminalType.order_nodup
    (fun t _ => (h t).sends)
    fun t n _ => by
      cases hd : n.onConnectionDestroyed c
      case ok r    => exact .inl ⟨r.1, rfl, trivial⟩
      case error e => exact .inr ⟨⟨e, rfl⟩, trivial⟩
  refine hs.imp (fun logics hd t => hd.left t (TerminalType.mem_order t)) fun logics hr => ?_
  obtain ⟨_, failed, _, _, hr⟩ := hr
  exact ⟨failed, hr.stuck⟩

theorem LeafObject.allOrNothing_iff {o : LeafObject} (hc : o.connection = some c)
    (h : ∀ t, (o.logics t).Startable) : o.AllOrNothing c k ↔ o.descriptions c ≤ k := by
  have ha : assert (decide (o.connection = some c)) = .ok () := by simp [assert, hc]
  have hs := sends_started (c := c) h
  constructor
  · rintro ⟨r, hr, hall⟩
    refine Nat.le_of_not_lt fun hk => ?_
    obtain ⟨logics, hf, _, failed, _, _, hrb⟩ := (hs.thrown hk).resolve_right And.right
    simp only [onConnectionStarted, ha, Except.ok_bind, hf] at hr
    cases hr
    have hn := (hall _ rfl failed).connection
    exact absurd (hn.symm.trans hrb.stuck) (by simp)
  · intro hk
    obtain ⟨logics, hf, _⟩ := hs.done hk
    refine ⟨_, by simp only [onConnectionStarted, ha, Except.ok_bind, hf]; rfl, ?_⟩
    intro o' ho
    cases ho

theorem NodeObject.allOrNothing_iff {o : NodeObject} (h : ∀ t, (o.logics t).Startable c) :
    o.AllOrNothing c k ↔ o.descriptions c ≤ k := by
  have hs := sends_started h
  constructor
  · rintro ⟨r, hr, hall⟩
    refine Nat.le_of_not_lt fun hk => ?_
    cases hs.thrown hk
    case inl h =>
      obtain ⟨logics, hf, failed, tm, htm, hu⟩ := h
      simp only [onConnectionStarted, hf, Except.ok_bind] at hr
      cases hr
      have hn := (hall _ rfl failed).users tm htm
      simp [hn] at hu
    case inr h =>
      obtain ⟨⟨e, he⟩, _⟩ := h
      simp only [onConnectionStarted, he, Except.error_bind] at hr
      cases hr
  · intro hk
    obtain ⟨logics, hf, _⟩ := hs.done hk
    refine ⟨_, by simp only [onConnectionStarted, hf, Except.ok_bind]; rfl, ?_⟩
    intro o' ho
    cases ho

-- The start of a connection is all or nothing if and only if all messages can be sent.
theorem connection_start_all_or_nothing (c : Conn) (k : Nat) :
    (∀ o : LeafObject, o.connection = some c → (∀ t, (o.logics t).Startable) →
      (o.AllOrNothing c k ↔ o.descriptions c ≤ k)) ∧
    ∀ o : NodeObject, (∀ t, (o.logics t).Startable c) →
      (o.AllOrNothing c k ↔ o.descriptions c ≤ k) :=
  ⟨fun _ => LeafObject.allOrNothing_iff, fun _ => NodeObject.allOrNothing_iff⟩

-- A leaf and a node with one terminal on a connection that cannot send anything.
def exampleTerminal : Identifier := ⟨0, "T", false⟩

def exampleLeaf : LeafObject where
  connection := some ⟨1, true⟩
  logics     := Function.update (fun _ => {}) .publishSubscribe
    (({} : Leaf).onNewTerminal 0 exampleTerminal).1

def exampleNode : NodeObject where
  logics := Function.update (fun _ => {}) .publishSubscribe
    { terminals := (Register.empty.insert exampleTerminal {}).1 }

-- The leaf cannot be connected any more and the node keeps a pointer to the connection.
theorem connection_start_is_not_undone :
    (¬exampleLeaf.AllOrNothing ⟨1, true⟩ 0 ∧ ¬exampleNode.AllOrNothing ⟨1, true⟩ 0) ∧
    ∃ o o' o'', exampleLeaf.onConnectionStarted ⟨1, true⟩ 0 = .ok (.thrown o) ∧
      o.onConnectionDestroyed = .ok o' ∧ o'.onNewConnection ⟨2, true⟩ = some o'' ∧
      o''.onConnectionStarted ⟨2, true⟩ 1 = .error .assertion := by
  refine ⟨⟨?_, ?_⟩, _, _, _, rfl, rfl, rfl, rfl⟩
  · rintro ⟨r, hr, h⟩
    cases hr
    have hn := (h _ rfl .publishSubscribe).connection
    cases hn
  · rintro ⟨r, hr, h⟩
    cases hr
    have hn := (h _ rfl .publishSubscribe).users
    revert hn
    decide

theorem connection_start_all_or_nothing_example :
    ¬exampleLeaf.AllOrNothing ⟨1, true⟩ 0 ∧ exampleLeaf.AllOrNothing ⟨1, true⟩ 1 ∧
      ¬exampleNode.AllOrNothing ⟨1, true⟩ 0 ∧ exampleNode.AllOrNothing ⟨1, true⟩ 1 := by
  have hl : ∀ t, (exampleLeaf.logics t).Startable := by
    intro t
    cases t <;> exact ⟨rfl, by decide, by decide⟩
  have hn : ∀ t, (exampleNode.logics t).Startable ⟨1, true⟩ := by
    intro t
    cases t <;> exact ⟨by decide, by decide, by decide⟩
  obtain ⟨h₀, h₀'⟩ := connection_start_all_or_nothing ⟨1, true⟩ 0
  obtain ⟨h₁, h₁'⟩ := connection_start_all_or_nothing ⟨1, true⟩ 1
  exact ⟨fun ha => absurd ((h₀ _ rfl hl).mp ha) (by decide), (h₁ _ rfl hl).mpr (by decide),
    fun ha => absurd ((h₀' _ hn).mp ha) (by decide), (h₁' _ hn).mpr (by decide)⟩

end Yogi
