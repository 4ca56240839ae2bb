import YogiModel.Base.Rollback
import YogiModel.Core.Node

namespace Yogi.Node

-- The body of the loop of `onConnectionStarted`.
def tell (c : Conn) (n : Node) (tm : Id) : Result := do
  let e ← deref (n.terminals.get? tm)
  if e.hidden then
    return (n, [])
  assert (e.data.usingNodes.lookup c).isNone
  let r := n.describe tm e.identifier c
  return (r.1, r.2 ++ [.call r.1 (.terminalUserAdded c tm)])

-- The remote node becomes a user of the terminal before it is told about it.
def tryTell (c : Conn) (n : Node) (tm : Id) (k : Nat) : Except Fault (Attempt Node) := do
  let e ← deref (n.terminals.get? tm)
  if e.hidden then
    return .done n k
  assert (e.data.usingNodes.lookup c).isNone
  let user := n.modifyTerminal tm fun d => { d with usingNodes := d.usingNodes.insert c {} }
  return .sending 1 user (n.describe tm e.identifier c).1 k

-- The function `onConnectionStarted` on a connection on which only `k` messages can be sent.
def tryOnConnectionStarted (c : Conn) (n : Node) (k : Nat) : Except Fault (Attempt Node) := do
  if c.remoteIsNode then
    Attempt.andThen (Attempt.each (tryTell c) n.terminals.ids n k) fun n k => do
      assert (c ∉ n.nodeConnections)
      return .done { n with nodeConnections := n.nodeConnections ++ [c] } k
  else
    assert (c ∉ n.leafConnections)
    return .done { n with leafConnections := n.leafConnections ++ [c] } k

-- Only nodes are told about terminals.
def descriptions (c : Conn) (n : Node) : Nat :=
  if c.remoteIsNode then (n.terminals.elements.filter (!·.hidden)).length else 0

-- What the start of a connection asserts.
structure Startable (c : Conn) (n : Node) : Prop where
  leafs : c ∉ n.leafConnections
  nodes : c ∉ n.nodeConnections
  users : ∀ tm ∈ n.terminals.elements, tm.hidden = false → tm.data.usingNodes.lookup c = none

-- The node does not know anything about the connection.
structure Unknown (c : Conn) (n : Node) : Prop where
  leafs : c ∉ n.leafConnections
  nodes : c ∉ n.nodeConnections
  users : ∀ tm ∈ n.terminals.elements, tm.data.usingNodes.lookup c = none

variable {c : Conn} {n n' : Node} {F : Prop}

theorem forEach_cons {f : Node → Id → Result} {i : Id} {is : List Id} {r t : Node × List Effect}
    (hf : f n i = .ok r) (hr : forEach f r.1 is = .ok t) :
    forEach f n (i :: is) = .ok (t.1, r.2 ++ t.2) := by
  simp only [forEach, hf, Except.ok_bind, hr]
  rfl

theorem sum_visible {r : Register NodeTerminalInfo} (is : List Id) :
    (is.map fun i => if (r.get? i).any (!·.hidden) then 1 else 0).sum =
      ((is.filterMap r.get?).filter (!·.hidden)).length := by
  induction is
  case nil => rfl
  case cons i is ih =>
    rw [List.map_cons, List.sum_cons, ih]
    cases h : r.get? i
    case none   => simp [h]
    case some e => cases hh : e.hidden <;> simp [h, hh, Nat.add_comm]

-- A connection that is a user of a terminal.
def Uses (c : Conn) (n : Node) : Prop :=
  ∃ tm ∈ n.terminals.elements, (tm.data.usingNodes.lookup c).isSome

theorem sends_tryTell {tm : Id} {e : Element NodeTerminalInfo} (he : n.terminals.get? tm = some e)
    (hu : e.hidden = false → e.data.usingNodes.lookup c = none) :
    Sends (tryTell c n tm) (if e.hidden then 0 else 1)
      (fun n' => (∃ es, tell c n tm = .ok (n', es)) ∧ n'.nodeConnections = n.nodeConnections ∧
        ∀ i ≠ tm, n'.terminals.get? i = n.terminals.get? i) (Uses c) F := by
  change Sends (fun k => tryTell c n tm k) _ _ _ _
  cases hh : e.hidden
  case true =>
    simp only [tryTell, tell, he, deref, Except.ok_bind, hh]
    exact Sends.pure ⟨⟨[], rfl⟩, rfl, fun _ _ => rfl⟩
  case false =>
    simp only [tryTell, tell, he, deref, Except.ok_bind, hh, hu hh]
    refine Sends.sending ⟨⟨_, rfl⟩, rfl, fun i hi => ?_⟩ ?_
    · simp only [describe, modifyTerminal, Register.get?_modify, if_neg hi]
    · refine ⟨e.modify fun d => { d with usingNodes := d.usingNodes.insert c {} },
        Register.mem_elements_iff.mpr ?_, ?_⟩
      · simp only [modifyTerminal, Register.get?_modify, Element.modify_id, Register.get?_id he, if_true,
          he, Option.map_some]
      · simp

theorem Startable.sends_each (h : n.Startable c) :
    Sends (Attempt.each (tryTell c) n.terminals.ids n)
      (n.terminals.elements.filter (!·.hidden)).length
      (fun n' => (∃ es, forEach (tell c) n n.terminals.ids = .ok (n', es)) ∧
        n'.nodeConnections = n.nodeConnections) (Uses c) F := by
  have hs := Sends.each (Q := Uses c) (F := F) (f := tryTell c)
    (c := fun i => if (n.terminals.get? i).any (!·.hidden) then 1 else 0)
    (I := fun rest m => m.nodeConnections = n.nodeConnections ∧ rest.Nodup ∧
      (∀ i ∈ rest, m.terminals.get? i = n.terminals.get? i ∧ ∃ e, n.terminals.get? i = some e) ∧
      ∀ n' es, forEach (tell c) m rest = .ok (n', es) →
        ∃ es', forEach (tell c) n n.terminals.ids = .ok (n', es'))
    (fun i rest m hi => by
      obtain ⟨hm, hnd, hg, hw⟩ := hi
      obtain ⟨hir, hnd⟩ := List.nodup_cons.mp hnd
      obtain ⟨hgi, e, he⟩ := hg i List.mem_cons_self
      have hu : e.hidden = false → e.data.usingNodes.lookup c = none :=
        h.users e (Register.mem_elements_iff.mpr (Register.get?_id he ▸ he))
      have hn : (if (n.terminals.get? i).any (!·.hidden) then 1 else 0) = if e.hidden then 0 else 1 := by
        cases hh : e.hidden <;> simp [he, hh]
      rw [hn]
      refine (sends_tryTell (hgi.trans he) hu).imp (fun m' ht => ?_) fun _ => id
      obtain ⟨⟨es, ht⟩, hm', hj⟩ := ht
      refine ⟨hm'.trans hm, hnd, fun j hjr => ?_, fun n' es' hl => hw n' _ (forEach_cons ht hl)⟩
      have hji : j ≠ i := fun hji => hir (hji ▸ hjr)
      rw [hj j hji]
      exact hg j (List.mem_cons_of_mem _ hjr))
    (s := n) ⟨rfl, Register.ids_nodup, fun i hi => ⟨rfl, Register.mem_ids_iff.mp hi⟩,
      fun n' es hl => ⟨es, hl⟩⟩
  rw [sum_visible] at hs
  exact hs.imp (fun n' hn' => ⟨hn'.right.right.right n' [] rfl, hn'.left⟩) fun _ => id

-- The connection is still a user of a terminal if sending throws an exception.
theorem Startable.sends (h : n.Startable c) :
    Sends (n.tryOnConnectionStarted c) (n.descriptions c)
      (fun n' => ∃ es, n.onConnectionStarted c = .ok (n', es)) (Uses c) F := by
  change Sends (fun k => tryOnConnectionStarted c n k) _ _ _ _
  cases hc : c.remoteIsNode
  case false =>
    have hl : decide (c ∉ n.leafConnections) = true := decide_eq_true h.leafs
    simp only [tryOnConnectionStarted, descriptions, onConnectionStarted, hc, hl]
    exact Sends.pure ⟨[], rfl⟩
  case true =>
    simp only [tryOnConnectionStarted, descriptions, hc, if_true]
    refine Sends.andThen (m := 0) h.sends_each fun n₁ hn₁ => ?_
    obtain ⟨⟨es, hf⟩, hn⟩ := hn₁
    have hl : decide (c ∉ n₁.nodeConnections) = true := decide_eq_true (hn ▸ h.nodes)
    simp only [hl]
    refine Sends.pure ⟨es, ?_⟩
    simp only [onConnectionStarted, hc, if_true]
    erw [hf]
    simp only [Except.ok_bind, hl]
    rfl

end Yogi.Node
