import YogiModel.Base.Rollback
import YogiModel.Core.LeafConnection

namespace Yogi.Leaf

-- The transition `reset` of the state machine of a terminal or a binding: the message is sent before
-- the state machine changes.
def tryEvalTerminal (l : Leaf) (tm : Element TerminalInfo) (out : Fsm.Outcome) (k : Nat) :
    Attempt Leaf :=
  .sending out.calls.length l (l.evalTerminal tm 0 out).1 k

def tryEvalBinding (l : Leaf) (bd : Element BindingInfo) (out : Fsm.Outcome) (k : Nat) :
    Attempt Leaf :=
  .sending out.calls.length l (l.evalBinding bd 0 out).1 k

-- The function `onConnectionStarted` on a connection on which only `k` messages can be sent.
def tryOnConnectionStarted (remoteIsNode : Bool) (l : Leaf) (k : Nat) :
    Except Fault (Attempt Leaf) := do
  assert l.connection.isNone
  let l := { l with connection := some remoteIsNode }
  Attempt.andThen
    (Attempt.each (fun l tm k => do
      assert !tm.hidden
      return l.tryEvalTerminal tm (tm.data.fsm.reset !remoteIsNode) k) l.terminals.elements l k)
    fun l k => Attempt.each (fun l bd k => do
      assert !bd.hidden
      return l.tryEvalBinding bd (bd.data.fsm.reset false) k) l.bindings.elements l k

-- Only nodes are told about terminals.
def descriptions (remoteIsNode : Bool) (l : Leaf) : Nat :=
  (if remoteIsNode then l.terminals.elements.length else 0) + l.bindings.elements.length

-- What the start of a connection asserts.
structure Startable (l : Leaf) : Prop where
  connection : l.connection = none
  terminals  : ∀ tm ∈ l.terminals.elements, tm.hidden = false
  bindings   : ∀ bd ∈ l.bindings.elements, bd.hidden = false

-- The state of a logic that has lost its connection or never had one.
structure Disconnected (l : Leaf) : Prop extends Startable l where
  reset    : ∀ tm ∈ l.terminals.elements, tm.data.fsm = {}
  released : ∀ bd ∈ l.bindings.elements, bd.data.established = false

variable {α : Type} {b : Bool} {l l' : Leaf} {F : Prop}

-- The assertions hold as long as the mapping protocol is kept to.
theorem Inv.startable {s} (h : l.Inv s) (hc : l.connection = none) : l.Startable where
  connection := hc
  terminals  := fun _ htm => ((h.terminal (Register.mem_elements_iff.mp htm)).idle hc).left
  bindings   := fun _ hbd => ((h.binding (Register.mem_elements_iff.mp hbd)).idle hc).left

-- Both loops attempt what the loops of `onConnectionStarted` do.
theorem sends_each (eval : Leaf → Element α → Leaf × List Effect) (n : Element α → Nat)
    (hc : ∀ l e, (eval l e).1.connection = l.connection) {as : List (Element α)}
    (hh : ∀ a ∈ as, a.hidden = false) :
    Sends (Attempt.each (fun l a k => do
        assert !a.hidden
        return .sending (n a) l (eval l a).1 k) as l) (as.map n).sum
      (fun l' => ∃ es, forEach (fun l a => do
        assert !a.hidden
        return eval l a) l as = .ok (l', es))
      (fun l' => l'.connection = l.connection) F := by
  let loop := forEach fun l (a : Element α) => do
    assert !a.hidden
    return eval l a
  have hs := Sends.each (Q := fun l' => l'.connection = l.connection) (F := F) (c := n)
    (I := fun rest l₁ => l₁.connection = l.connection ∧ (∀ a ∈ rest, a.hidden = false) ∧
      ∀ l' es, loop l₁ rest = .ok (l', es) → ∃ es', loop l as = .ok (l', es'))
    (f := fun l a k => do
      assert !a.hidden
      return .sending (n a) l (eval l a).1 k)
    (fun a rest l₁ hi => by
      obtain ⟨hl, hr, hw⟩ := hi
      have ha := hr a List.mem_cons_self
      simp only [ha]
      refine Sends.sending ⟨(hc l₁ a).trans hl, fun e he => hr e (List.mem_cons_of_mem _ he), ?_⟩ hl
      intro l' es hf
      exact hw l' _ (forEach_cons (by simp only [ha]; rfl) hf))
    (s := l) ⟨rfl, hh, fun l' es hf => ⟨es, hf⟩⟩
  exact hs.imp (fun l' hl' => hl'.right.right l' [] rfl) fun _ => id

theorem sum_sendDesc {hidden : Bool} {fsm : α → Fsm} (as : List α) :
    (as.map fun a => ((fsm a).reset hidden).calls.length).sum = if hidden then 0 else as.length := by
  cases hidden <;> simp [Fsm.reset]

-- The connection is kept if sending throws an exception.
theorem Startable.sends (h : l.Startable) :
    Sends (l.tryOnConnectionStarted b) (l.descriptions b)
      (fun l' => ∃ es, l.onConnectionStarted b = .ok (l', es))
      (fun l' => l'.connection = some b) F := by
  have hn : l.connection.isNone = true := by simp [h.connection]
  obtain ⟨l₁, es, hr, hc, hb, _⟩ :=
    forEach_evalTerminal (l := { l with connection := some b }) (b := !b) h.terminals
  have hw : ∀ l', (∃ es', forEach (fun l bd => do
        assert !bd.hidden
        return l.evalBinding bd 0 (bd.data.fsm.reset false)) l₁ l₁.bindings.elements = .ok (l', es')) →
      ∃ es, l.onConnectionStarted b = .ok (l', es) := by
    rintro l' ⟨es', hr'⟩
    refine ⟨es ++ es', ?_⟩
    simp only [onConnectionStarted, hn, assert, if_true, Except.ok_bind]
    erw [hr]
    simp only [Except.ok_bind]
    erw [hr']
    rfl
  have ht := sends_each (l := { l with connection := some b }) (F := F)
    (fun l tm => l.evalTerminal tm 0 (tm.data.fsm.reset !b))
    (fun tm => (tm.data.fsm.reset !b).calls.length)
    (fun l tm => (evalTerminal_spec l tm 0 _).left) h.terminals
  have hs := sends_each (l := l₁) (F := F)
    (fun l bd => l.evalBinding bd 0 (bd.data.fsm.reset false))
    (fun bd => (bd.data.fsm.reset false).calls.length)
    (fun l bd => (evalBinding_spec l bd 0 _).left) (hb ▸ h.bindings)
  have hts := ht.andThen (g := fun l k => Attempt.each (fun l bd k => do
      assert !bd.hidden
      return l.tryEvalBinding bd (bd.data.fsm.reset false) k) l.bindings.elements l k)
    fun l₂ hl₂ => by
      obtain ⟨es₂, hr₂⟩ := hl₂
      cases hr.symm.trans hr₂
      exact hs.imp hw fun l' hl => hl.trans hc
  simp only [sum_sendDesc, hb] at hts
  change Sends (fun k => tryOnConnectionStarted b l k) _ _ _ _
  simp only [tryOnConnectionStarted, hn]
  cases b <;> exact hts

theorem connection_of_started (h : l.Startable) {es} (hs : l.onConnectionStarted b = .ok (l', es)) :
    l'.connection = some b := by
  obtain ⟨l₁, es₁, hr, hc, hb, _⟩ :=
    forEach_evalTerminal (l := { l with connection := some b }) (b := !b) h.terminals
  obtain ⟨l₂, es₂, hr₂, hc₂, _⟩ := forEach_evalBinding (l := l₁) (hb ▸ h.bindings)
  have hn : l.connection.isNone = true := by simp [h.connection]
  simp only [onConnectionStarted, hn, assert, if_true, Except.ok_bind] at hs
  erw [hr] at hs
  simp only [Except.ok_bind] at hs
  erw [hr₂] at hs
  cases hs
  exact hc₂.trans hc

-- Whatever has happened since the start of the connection, it leaves nothing behind.
theorem disconnects (h : l.connection ≠ none) :
    ∃ l' es, l.onConnectionDestroyed = .ok (l', es) ∧ l'.Disconnected := by
  let l₁ : Leaf := {
    connection := none
    terminals  := (l.terminals.elements.filter (·.hidden)).foldl (·.erase ·.id) l.terminals
    bindings   := (l.bindings.elements.filter (·.hidden)).foldl (·.erase ·.id) l.bindings }
  obtain ⟨l₂, es, hr, hc₂, ht₂, hb₂, _⟩ := forEach_updateBindingState l₁ l₁.bindings.elements
  let s : Id → Bool := fun _ => false
  have hs : ∀ e ∈ l₂.terminals.elements, e.data.fsm.isMapped = false → s e.id = false :=
    fun _ _ _ => rfl
  obtain ⟨l₃, es', hr', hc₃, hb₃, ht₃, _⟩ := forEach_resetTerminal (l := l₂) (s := s) hs
  have ht : ∀ tm ∈ l₃.terminals.elements, tm.hidden = false ∧ tm.data.fsm = {} := by
    intro tm htm
    have hg := Register.mem_elements_iff.mp htm
    rw [get?_of_forall ht₃, ht₂] at hg
    obtain ⟨d, hd, hm⟩ := Option.map_eq_some_iff.mp hg
    simp only [l₁, get?_visible, Option.filter_eq_some_iff, Bool.not_eq_true'] at hd
    rw [← hm]
    exact ⟨hd.right, rfl⟩
  have hb : ∀ bd ∈ l₃.bindings.elements, bd.hidden = false ∧ bd.data.established = false := by
    intro bd hbd
    have hg := Register.mem_elements_iff.mp hbd
    rw [hb₃, get?_of_forall hb₂] at hg
    obtain ⟨d, hd, hm⟩ := Option.map_eq_some_iff.mp hg
    simp only [l₁, get?_visible, Option.filter_eq_some_iff, Bool.not_eq_true'] at hd
    rw [← hm]
    exact ⟨hd.right, rfl⟩
  refine ⟨l₃, es ++ es', ?_, ?_⟩
  · simp only [onConnectionDestroyed, Option.isSome_iff_ne_none.mpr h, assert, if_true, Except.ok_bind]
    erw [hr]
    simp only [Except.ok_bind]
    erw [hr']
    rfl
  · exact {
      connection := hc₃.trans hc₂
      terminals  := fun tm h => (ht tm h).left
      bindings   := fun bd h => (hb bd h).left
      reset      := fun tm h => (ht tm h).right
      released   := fun bd h => (hb bd h).right }

end Yogi.Leaf
