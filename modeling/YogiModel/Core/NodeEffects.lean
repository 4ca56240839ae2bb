import YogiModel.Base.Except
import YogiModel.Core.Node

namespace Yogi.Node

open Except (Returns)

-- The owner that has been added to a binding or remapped, the binding and the mapped ID.
def Hook.newBindingOwner : Hook → Option (Conn × Id × Id)
  | .bindingOwnerAdded c bd id | .bindingOwnerRemapped c bd id => some (c, bd, id)
  | _                                                          => none

def Effect.newBindingOwner : Effect → Option (Node × Conn × Id × Id)
  | .call n h => h.newBindingOwner.map (n, ·)
  | _         => none

-- No owners of bindings are added or remapped.
def Quiet (es : List Effect) : Prop :=
  ∀ e ∈ es, e.newBindingOwner = none

variable {n n' : Node} {tm bd i : Id} {c : Conn} {es es' : List Effect} {h : Hook} {x : Identifier}

@[simp] theorem quiet_nil : Quiet [] := by
  simp [Quiet]

@[simp] theorem quiet_append : Quiet (es ++ es') ↔ Quiet es ∧ Quiet es' :=
  List.forall_mem_append

@[simp] theorem quiet_cons {e : Effect} : Quiet (e :: es) ↔ e.newBindingOwner = none ∧ Quiet es :=
  List.forall_mem_cons

@[simp] theorem quiet_post {r : Role} {own remote : Id} {cs : List Fsm.Call} :
    Quiet (post c r x own remote cs) := by
  intro e he
  obtain ⟨b, _, he⟩ := List.mem_map.mp he
  rw [← he]
  rfl

@[simp] theorem quiet_map_send {α : Type} {f : α → Conn} {m : α → Message} {as : List α} :
    Quiet (as.map fun a => .send (f a) (m a)) := by
  intro e he
  obtain ⟨b, _, he⟩ := List.mem_map.mp he
  rw [← he]
  rfl

@[simp] theorem quiet_released {d : Element NodeBindingInfo} : Quiet (released d c) :=
  quiet_map_send

@[simp] theorem quiet_established {d : Element NodeBindingInfo} : Quiet (established d c) :=
  quiet_map_send

-- A function of the node that does not add owners to bindings.
abbrev Quietly (r : Result) : Prop :=
  r.Returns fun s => Quiet s.2

theorem quietly_forEach {f : Node → Id → Result} (hf : ∀ n i, Quietly (f n i)) (is : List Id) :
    Quietly (forEach f n is) := by
  induction is generalizing n
  case nil => exact .ok quiet_nil
  case cons i is ih =>
    refine (hf n i).bind fun r hr => (ih (n := r.1)).bind fun s hs => .pure ?_
    exact quiet_append.mpr ⟨hr, hs⟩

theorem quietly_updateState : (n.updateState tm).Returns fun s => Quiet s.2.1 := by
  refine .bind' fun e => .ite (fun _ => .pure ?_) fun _ => .pure quiet_nil
  split <;> simp [Effect.newBindingOwner]

theorem quietly_abandonUsers {cs : List Conn} : Quietly (n.abandonUsers tm c cs) := by
  induction cs generalizing n
  case nil => exact .pure quiet_nil
  case cons d cs ih =>
    refine .bind' fun e => .bind' fun f => .ite (fun _ => ih) fun _ => .bind' fun out => ?_
    refine .ite (fun _ => ih.bind fun r hr => .pure ?_) fun _ => ih.bind fun r hr => .pure ?_
    · exact quiet_append.mpr ⟨quiet_post, hr⟩
    · exact quiet_append.mpr ⟨quiet_post, quiet_cons.mpr ⟨rfl, hr⟩⟩

theorem quietly_updateLastOwningNode : Quietly (n.updateLastOwningNode tm) := by
  refine .bind' fun e => .bind' fun d => .bind' fun user => .ite (fun _ => .pure quiet_nil) fun _ => ?_
  exact .bind' fun out => .bind' fun _ => .pure quiet_post

theorem quietly_releaseBindings : (n.releaseBindings tm bd c).Returns Quiet := by
  refine .ite (fun _ => .pure quiet_nil) fun _ => .bind' fun e => .bind' fun d => ?_
  refine .ite (fun _ => .bind' fun leaf => ?_) fun _ => .ite (fun _ => .pure quiet_released) fun _ =>
    .pure quiet_nil
  split
  · exact .pure quiet_nil
  · exact .pure (by simp [Effect.newBindingOwner])

theorem quietly_updateUsersForAbandonedTerminal :
    Quietly (n.updateUsersForAbandonedTerminal tm c) :=
  .bind' fun _ => quietly_abandonUsers

theorem quietly_terminalOwnerRemoved : Quietly (n.terminalOwnerRemoved tm c) := by
  refine .bind' fun e => ?_
  extract_lets bindingId next
  have h (s : Node × List Effect) (hs : Quiet s.2) : Quietly (next s) := by
    refine quietly_updateState.bind fun u h₂ => ?_
    obtain ⟨n₂, known, alive⟩ := u
    refine .ite (fun _ => ?_) fun _ => ?_
    · refine .ite (fun _ => .pure ?_) fun _ => .bind' fun bd => .pure ?_
      · simp_all [Effect.newBindingOwner, Hook.newBindingOwner]
      · simp_all [Effect.newBindingOwner, Hook.newBindingOwner]
    · refine .bind' fun e => ?_
      extract_lets last
      have h' (t : Node × List Effect) (ht : Quiet t.2) : Quietly (last t) := by
        refine quietly_releaseBindings.bind fun bindings h₄ => ?_
        extract_lets finish
        refine .ite (fun _ => .bind' fun n₄ => .pure ?_) fun _ => .bind' fun n₄ => .pure ?_
        · simp_all [Effect.newBindingOwner, Hook.newBindingOwner]
        · simp_all [Effect.newBindingOwner, Hook.newBindingOwner]
      refine .ite (fun _ => quietly_updateLastOwningNode.bind h') fun _ => ?_
      exact (Returns.pure (P := fun t : Node × List Effect => Quiet t.2) quiet_nil).bind h'
  have hn : Quietly (.ok (n, [])) := .ok quiet_nil
  split
  · exact .bind' fun _ => quietly_updateUsersForAbandonedTerminal.bind h
  · exact .bind' fun _ => quietly_updateUsersForAbandonedTerminal.bind h
  · exact hn.bind h
  · exact hn.bind h
  · exact hn.bind h
  · exact .error
  · exact .error

theorem quietly_removeTerminalOwner {broken : Bool} :
    Quietly (n.removeTerminalOwner tm c broken) := by
  refine .bind' fun e => ?_
  split
  · exact .ite (fun _ => .pure quiet_nil) fun _ => .error
  · refine .ite (fun _ => quietly_terminalOwnerRemoved) fun _ => .bind' fun out => ?_
    refine .ite (fun _ => .pure quiet_post) fun _ => quietly_terminalOwnerRemoved.bind fun r hr => ?_
    exact .pure (quiet_append.mpr ⟨quiet_post, hr⟩)

@[simp] theorem quiet_describe : Quiet (n.describe tm x c).2 :=
  quiet_post

@[simp] theorem quiet_describeToAll {cs : List Conn} : Quiet (n.describeToAll tm x cs).2 := by
  induction cs generalizing n
  case nil          => exact quiet_nil
  case cons d cs ih => exact quiet_append.mpr ⟨quiet_describe, ih⟩

theorem quietly_onConnectionStarted : Quietly (n.onConnectionStarted c) := by
  refine .ite (fun _ => ?_) fun _ => .bind' fun _ => .pure quiet_nil
  refine (quietly_forEach (fun n tm => .bind' fun e => ?_) _).bind fun r hr => .bind' fun _ => .pure hr
  refine .ite (fun _ => .pure quiet_nil) fun _ => .bind' fun _ => .pure ?_
  simp [Effect.newBindingOwner, Hook.newBindingOwner]

theorem quietly_onConnectionDestroyed : Quietly (n.onConnectionDestroyed c) := by
  refine .ite (fun _ => .pure quiet_nil) fun _ => ?_
  refine (quietly_forEach (fun n bd => .bind' fun e => ?bindings) _).bind fun r hr =>
    (quietly_forEach (fun n tm => ?terminals) _).bind fun s hs => .pure (quiet_append.mpr ⟨hr, hs⟩)
  case bindings =>
    refine .ite (fun _ => .bind' fun m => .pure ?_) fun _ => .pure ?_
    · split <;> simp [Effect.newBindingOwner, Hook.newBindingOwner]
    · split <;> simp [Effect.newBindingOwner, Hook.newBindingOwner]
  case terminals =>
    refine quietly_updateState.bind fun u hm => ?_
    obtain ⟨m, known, alive⟩ := u
    refine .ite (fun _ => ?_) fun _ => .pure ?_
    · refine quietly_removeTerminalOwner.bind fun r hr => .pure ?_
      simp_all [Effect.newBindingOwner, Hook.newBindingOwner]
    · simp_all [Effect.newBindingOwner, Hook.newBindingOwner]

theorem quietly_informUsers : Quietly (n.informUsers tm c) := by
  refine .bind' fun e => ?_
  split
  · exact .pure quiet_describeToAll
  · exact .pure quiet_nil
  · exact .pure quiet_nil
  · exact .pure quiet_nil
  · exact .pure quiet_nil
  · refine .bind' fun owner => .ite (fun _ => .pure quiet_describe) fun _ => .pure quiet_nil
  · exact .error

theorem quietly_establishBindings {o : Option Id} : (n.establishBindings tm o c).Returns Quiet := by
  cases o
  case none    => exact .pure quiet_nil
  case some bd =>
    refine .bind' fun e => .bind' fun d => .ite (fun _ => .pure quiet_established) fun _ => ?_
    refine .ite (fun _ => ?_) fun _ => .pure quiet_nil
    split
    · exact .pure quiet_nil
    · split
      · exact .pure quiet_nil
      · exact .pure (by simp [Effect.newBindingOwner])

theorem quietly_onTerminalDescription : Quietly (n.onTerminalDescription x i c) := by
  refine .bind' fun e => .bind' fun out => .ite (fun _ => .pure ?_) fun _ => ?_
  · simp only [quiet_append]
    refine ⟨⟨?_, quiet_post⟩, by simp [Effect.newBindingOwner, Hook.newBindingOwner]⟩
    split <;> simp [Effect.newBindingOwner]
  refine quietly_informUsers.bind fun u h₁ => .bind' fun w => ?_
  obtain ⟨n₁, users⟩ := u
  obtain ⟨n₂, bd⟩ := w
  refine quietly_establishBindings.bind fun bindings h₂ => ?_
  refine quietly_updateState.bind fun u h₃ => .pure ?_
  obtain ⟨n₃, known, _⟩ := u
  simp only [quiet_append]
  refine ⟨⟨⟨⟨⟨⟨?_, quiet_post⟩, h₁⟩, h₂⟩, h₃⟩, ?_⟩, ?_⟩
  · split <;> simp [Effect.newBindingOwner]
  · split <;> simp [Effect.newBindingOwner, Hook.newBindingOwner]
  · split <;> simp [Effect.newBindingOwner]

theorem quietly_onTerminalMapping : Quietly (n.onTerminalMapping tm i c) := by
  refine .bind' fun _ => .bind' fun e => .ite (fun _ => .error) fun _ => .bind' fun out => ?_
  exact .ite (fun _ => .error) fun _ => .pure quiet_post

theorem quietly_onTerminalRemovedAck : Quietly (n.onTerminalRemovedAck tm c) := by
  refine .bind' fun _ => .bind' fun e => ?_
  extract_lets user describe _ acknowledge next
  have hd : Quietly describe := .bind' fun _ => .pure quiet_describe
  have ha : Quietly acknowledge := by
    refine .bind' fun f => .bind' fun out => .ite (fun _ => .pure quiet_nil) fun _ => .pure ?_
    simp [Effect.newBindingOwner, Hook.newBindingOwner]
  have h (s : Node × List Effect) (hs : Quiet s.2) : Quietly (next s) := by
    refine .bind' fun e => ?_
    extract_lets last
    have h' (n' : Node) : Quietly (last n') :=
      quietly_updateState.bind fun _ ht => .pure (quiet_append.mpr ⟨hs, ht⟩)
    exact .ite (fun _ => .bind' h') fun _ => .bind' h'
  split
  · exact .error
  · exact hd.bind h
  · exact hd.bind h
  · exact hd.bind h
  · exact hd.bind h
  · exact .ite (fun _ => hd.bind h) fun _ => ha.bind h
  · exact ha.bind h

theorem quietly_onBindingRemoved : Quietly (n.onBindingRemoved i c) := by
  refine .bind' fun _ => .bind' fun e => .bind' fun owner => .bind' fun out => ?_
  refine .ite (fun _ => .pure quiet_post) fun _ => ?_
  refine .ite (fun _ => .bind' fun m => .pure ?_) fun _ => .pure ?_
  · simp [Effect.newBindingOwner, Hook.newBindingOwner]
  · simp [Effect.newBindingOwner, Hook.newBindingOwner]

-- The only owner of a binding that is added or remapped is that of a binding with a given identifier.
def Adds (n : Node) (x : Identifier) (c : Conn) (es : List Effect) : Prop :=
  ∀ e ∈ es, ∀ o, e.newBindingOwner = some o →
    o.1 = n ∧ o.2.1 = c ∧ ∃ b, n.bindings.get? o.2.2.1 = some b ∧ b.identifier = x

theorem Quiet.adds (h : Quiet es) : n.Adds x c es := by
  intro e he o ho
  rw [h e he] at ho
  cases ho

theorem adds_append : n.Adds x c (es ++ es') ↔ n.Adds x c es ∧ n.Adds x c es' :=
  List.forall_mem_append

theorem adds_call {b : Element NodeBindingInfo} (hb : n.bindings.get? bd = some b)
    (hx : b.identifier = x) (hh : h.newBindingOwner = some (c, bd, i)) :
    n.Adds x c [.call n h] := by
  intro e he o ho
  cases List.mem_singleton.mp he
  simp only [Effect.newBindingOwner, hh, Option.map_some, Option.some.injEq] at ho
  cases ho
  exact ⟨rfl, rfl, b, hb, hx⟩

theorem get?_modifyBinding {f : NodeBindingInfo → NodeBindingInfo} {b : Element NodeBindingInfo}
    (h : n.bindings.get? bd = some b) :
    ∃ b', (n.modifyBinding i f).bindings.get? bd = some b' ∧ b'.identifier = b.identifier := by
  simp only [modifyBinding, Register.get?_modify, h]
  split
  · exact ⟨_, rfl, rfl⟩
  · exact ⟨_, rfl, rfl⟩

theorem associateBinding_get? {b : Element NodeBindingInfo} (h : n.bindings.get? bd = some b) :
    (n.associateBinding i).Returns fun s =>
      ∃ b', s.1.bindings.get? bd = some b' ∧ b'.identifier = b.identifier := by
  refine .bind' fun e => .ite (fun _ => ?_) fun _ => ?_
  · split
    · exact .error
    · exact .bind' fun _ => .pure ⟨b, h, rfl⟩
  · split
    · exact .pure ⟨b, h, rfl⟩
    · exact .pure (get?_modifyBinding h)

theorem deref_returns {α : Type} {o : Option α} : (deref o).Returns (o = some ·) := by
  cases o
  case none   => exact .error
  case some a => exact .ok rfl

theorem at!_returns {α : Type} {r : Register α} : (at! r i).Returns (r.get? i = some ·) := by
  simp only [at!]
  split
  case h_1 e h => exact .ok h
  case h_2     => exact .error

theorem onBindingDescription_adds :
    (n.onBindingDescription x i c).Returns fun s => s.1.Adds x c s.2 := by
  have hx {e} := Register.insert_identifier (r := n.bindings) (x := x) (d := {}) (e := e)
  simp only [onBindingDescription]
  generalize n.bindings.insert x {} = inserted at *
  obtain ⟨bs, bd, _⟩ := inserted
  refine .bind' fun _ => deref_returns.bind fun e he => .bind' fun out => ?_
  obtain ⟨b, hb, hbx⟩ := get?_modifyBinding (n := { n with bindings := bs }) (i := bd)
    (f := fun d => { d with owningLeafs := d.owningLeafs.insert c out.fsm }) he
  have hxb := hbx.trans (hx he)
  refine .ite (fun _ => .pure ?_) fun _ => (associateBinding_get? hb).bind fun s hs => ?_
  · exact adds_append.mpr ⟨quiet_post.adds, adds_call hb hxb rfl⟩
  obtain ⟨n₁, tm⟩ := s
  obtain ⟨b', hb', hbx'⟩ := hs
  have h {es es'} (hes : Quiet es) (hes' : Quiet es') :
      n₁.Adds x c (es ++ es' ++ [.call n₁ (.bindingOwnerAdded c bd out.fsm.mappedId)]) :=
    adds_append.mpr ⟨(quiet_append.mpr ⟨hes, hes'⟩).adds, adds_call hb' (hbx'.trans hxb) rfl⟩
  cases tm
  case none    => exact .pure (h quiet_post quiet_nil)
  case some tm =>
    refine .bind' fun e => .ite (fun _ => .pure (h quiet_post ?_)) fun _ => .pure (h quiet_post quiet_nil)
    simp [Effect.newBindingOwner]

-- New owners of bindings are those that describe them.
theorem onMessageReceived_newBindingOwner {m : Message} :
    (n.onMessageReceived c m).Returns fun s => ∀ e ∈ s.2, ∀ o, e.newBindingOwner = some o →
      ∃ x i, m = .bindingDescription x i ∧ s.1.Adds x c s.2 := by
  have quiet {r : Result} (h : Quietly r) : r.Returns fun s => ∀ e ∈ s.2, ∀ o,
      e.newBindingOwner = some o → ∃ x i, m = .bindingDescription x i ∧ s.1.Adds x c s.2 :=
    h.imp fun s hs e he o ho => Option.noConfusion rfl (heq_of_eq ((hs e he).symm.trans ho))
  cases m
  case terminalDescription => exact quiet quietly_onTerminalDescription
  case terminalMapping     => exact quiet quietly_onTerminalMapping
  case terminalRemoved     => exact quiet quietly_removeTerminalOwner
  case terminalRemovedAck  => exact quiet quietly_onTerminalRemovedAck
  case bindingRemoved      => exact quiet quietly_onBindingRemoved
  case bindingDescription x i =>
    exact onBindingDescription_adds.imp fun s hs _ _ _ _ => ⟨x, i, rfl, hs⟩
  all_goals exact .error

end Yogi.Node
