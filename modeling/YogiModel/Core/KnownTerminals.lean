import YogiModel.Core.NodeInvariant

namespace Yogi.Node

open Except (Returns)

-- A call of the function that the library user has given for changes of the known terminals
def Effect.notification : Effect → Option (Identifier × Bool)
  | .knownTerminalsChanged x added => some (x, added)
  | _                              => none

def notifications (es : List Effect) : List (Identifier × Bool) :=
  es.filterMap Effect.notification

-- What a library user knows who keeps a list of the terminals. Only a terminal in the list can be removed.
def replay : List (Identifier × Bool) → Multiset Identifier → Option (Multiset Identifier)
  | [], known                => some known
  | (x, true) :: ns, known   => replay ns (x ::ₘ known)
  | (x, false) :: ns, known  => if x ∈ known then replay ns (known.erase x) else none

def known (n : Node) : Multiset Identifier :=
  n.getKnownTerminals

structure Run where
  node : Node := {}
  notifications : List (Identifier × Bool) := []

def Run.act (r : Run) (e : Event) : Except Fault Run := do
  let t ← r.node.onEvent e
  return { node := t.1, notifications := r.notifications ++ Node.notifications t.2 }

namespace Run

def machine : Machine Run Event Fault where
  init    := (· = {})
  enabled := fun r e => e.Enabled r.node
  step    := Run.act

end Run

variable {n n' : Node} {tm bd i : Id} {c : Conn} {es es' : List Effect} {x : Identifier}
variable {ns ns' : List (Identifier × Bool)} {ids : Multiset Identifier}

theorem replay_append : replay (ns ++ ns') ids = (replay ns ids).bind (replay ns') := by
  induction ns generalizing ids
  case nil           => rfl
  case cons p ns ih  =>
    obtain ⟨x, _ | _⟩ := p
    case true  => exact ih
    case false =>
      simp only [List.cons_append, replay]
      split
      case isTrue  => exact ih
      case isFalse => rfl

@[simp] theorem notifications_nil : notifications [] = [] :=
  rfl

@[simp] theorem notifications_append : notifications (es ++ es') = notifications es ++ notifications es' :=
  List.filterMap_append

@[simp] theorem notifications_cons {e : Effect} :
    notifications (e :: es) = e.notification.toList ++ notifications es := by
  cases h : e.notification <;> simp [notifications, h]

@[simp] theorem notifications_map_send {α : Type} {f : α → Conn} {m : α → Message} {as : List α} :
    notifications (as.map fun a => .send (f a) (m a)) = [] := by
  induction as
  case nil          => rfl
  case cons a as ih => exact ih

@[simp] theorem notifications_post {r : Role} {own remote : Id} {cs : List Fsm.Call} :
    notifications (post c r x own remote cs) = [] :=
  notifications_map_send

@[simp] theorem notifications_released {d : Element NodeBindingInfo} : notifications (released d c) = [] :=
  notifications_map_send

@[simp] theorem notifications_established {d : Element NodeBindingInfo} : notifications (established d c) = [] :=
  notifications_map_send

-- The known terminals only depend on the identifiers in the register.

theorem known_of_perm
    (h : (n.terminals.elements.map (·.identifier)).Perm (n'.terminals.elements.map (·.identifier))) :
    n.known = n'.known :=
  Multiset.coe_eq_coe.mpr (h.filter _)

theorem known_of_perm_cons
    (h : (n.terminals.elements.map (·.identifier)).Perm (x :: n'.terminals.elements.map (·.identifier))) :
    n.known = if x.hidden then n'.known else x ::ₘ n'.known := by
  have hp : n.known = ((x :: n'.terminals.elements.map (·.identifier)).filter (!·.hidden) : Multiset Identifier) :=
    Multiset.coe_eq_coe.mpr (h.filter _)
  rw [hp, List.filter_cons]
  cases x.hidden <;> rfl

@[simp] theorem known_modifyTerminal {f : NodeTerminalInfo → NodeTerminalInfo} :
    (n.modifyTerminal tm f).known = n.known :=
  known_of_perm Register.perm_identifiers_modify

@[simp] theorem known_modifyBinding {f : NodeBindingInfo → NodeBindingInfo} :
    (n.modifyBinding bd f).known = n.known :=
  rfl

theorem known_hide : { n with terminals := n.terminals.hide tm }.known = n.known :=
  known_of_perm Register.perm_identifiers_hide

theorem known_erase {e : Element NodeTerminalInfo} (h : n.terminals.get? tm = some e) :
    n.known = if e.identifier.hidden then { n with terminals := n.terminals.erase tm }.known
      else e.identifier ::ₘ { n with terminals := n.terminals.erase tm }.known :=
  known_of_perm_cons ((Register.perm_elements_erase h).map _)

theorem known_insert_some {d : NodeTerminalInfo} {e : Element NodeTerminalInfo} (h : n.terminals.find? x = some e) :
    { n with terminals := (n.terminals.insert x d).1 }.known = n.known :=
  known_of_perm ((Register.perm_elements_insert_some h).map _)

theorem known_insert_none {d : NodeTerminalInfo} (h : n.terminals.find? x = none) :
    { n with terminals := (n.terminals.insert x d).1 }.known = if x.hidden then n.known else x ::ₘ n.known :=
  known_of_perm_cons ((Register.perm_elements_insert h).map _)

-- A function that does not change the known terminals
def Still (n : Node) (s : Node × List Effect) : Prop :=
  s.1.known = n.known ∧ notifications s.2 = []

-- A function that reports what it changes
def Reports (n : Node) (s : Node × List Effect) : Prop :=
  replay (notifications s.2) n.known = some s.1.known

theorem Still.reports {s : Node × List Effect} (h : n.Still s) : n.Reports s := by
  rw [Reports, h.2, replay, h.1]

theorem Still.append {s t : Node × List Effect} (h : n.Still s) (h' : s.1.Still t) : n.Still (t.1, s.2 ++ t.2) :=
  ⟨h'.1.trans h.1, by rw [notifications_append, h.2, h'.2, List.append_nil]⟩

theorem Reports.append {s t : Node × List Effect} (h : n.Reports s) (h' : s.1.Reports t) :
    n.Reports (t.1, s.2 ++ t.2) := by
  rw [Reports, notifications_append, replay_append, h]
  exact h'

theorem still_abandonUsers {cs : List Conn} : (n.abandonUsers tm c cs).Returns n.Still := by
  induction cs generalizing n
  case nil => exact .pure ⟨rfl, rfl⟩
  case cons d cs ih =>
    refine .bind' fun e => .bind' fun f => .ite (fun _ => ih) fun _ => .bind' fun out => ?_
    refine .ite (fun _ => ih.bind fun r hr => .pure ?_) fun _ => ih.bind fun r hr => .pure ?_
    · exact ⟨hr.1.trans known_modifyTerminal, by simp [hr.2]⟩
    · exact ⟨hr.1.trans known_modifyTerminal, by simp [hr.2, Effect.notification]⟩

theorem still_updateUsersForAbandonedTerminal : (n.updateUsersForAbandonedTerminal tm c).Returns n.Still :=
  .bind' fun _ => still_abandonUsers

theorem still_updateLastOwningNode : (n.updateLastOwningNode tm).Returns n.Still := by
  refine .bind' fun e => .bind' fun d => .bind' fun user => .ite (fun _ => .pure ⟨rfl, rfl⟩) fun _ => ?_
  exact .bind' fun out => .bind' fun _ => .pure ⟨known_modifyTerminal, notifications_post⟩

theorem releaseBindings_notifications : (n.releaseBindings tm bd c).Returns (notifications · = []) := by
  refine .ite (fun _ => .pure rfl) fun _ => .bind' fun e => .bind' fun d => ?_
  refine .ite (fun _ => .bind' fun leaf => ?_) fun _ => .ite (fun _ => .pure notifications_released) fun _ => .pure rfl
  split
  · exact .pure rfl
  · exact .pure rfl

theorem associateTerminal_known : (n.associateTerminal tm).Returns fun s => s.1.known = n.known := by
  refine .bind' fun e => .ite (fun _ => ?_) fun _ => ?_
  · split
    · exact .error
    · exact .bind' fun _ => .pure rfl
  · split
    · exact .pure rfl
    · exact .pure (by simp)

theorem associateBinding_known : (n.associateBinding bd).Returns fun s => s.1.known = n.known := by
  refine .bind' fun e => .ite (fun _ => ?_) fun _ => ?_
  · split
    · exact .error
    · exact .bind' fun _ => .pure rfl
  · split
    · exact .pure rfl
    · exact .pure (by simp)

theorem disassociateTerminal_known : (n.disassociateTerminal tm).Returns fun s => s.known = n.known := by
  refine .bind' fun e => .ite (fun _ => .bind' fun d => .pure ?_) fun _ => .pure rfl
  simp

theorem disassociateBinding_known : (n.disassociateBinding bd).Returns fun s => s.known = n.known := by
  refine .bind' fun e => .ite (fun _ => .bind' fun d => .pure ?_) fun _ => .pure rfl
  simp

-- A terminal is reported when it is erased.
theorem reports_updateState : (n.updateState tm).Returns fun s => n.Reports (s.1, s.2.1) := by
  refine deref_returns.bind fun e he => .ite (fun _ => .pure ?_) fun _ =>
    .pure (Still.reports ⟨known_modifyTerminal, rfl⟩)
  have hk := known_erase he
  cases hh : e.identifier.hidden
  case true  =>
    rw [hh, if_pos rfl] at hk
    exact Still.reports ⟨hk.symm, rfl⟩
  case false =>
    rw [hh, if_neg Bool.false_ne_true] at hk
    simp only [Reports, Bool.false_eq_true, if_false, notifications_cons, Effect.notification, Option.toList_some,
      notifications_nil, List.append_nil, replay, hk, Multiset.mem_cons_self, if_true, Multiset.erase_cons_head]

-- What is reported in between is all that is reported.
theorem Reports.of_eq {s t : Node × List Effect} (h : n.Reports t) (hk : s.1.known = t.1.known)
    (hn : notifications s.2 = notifications t.2) : n.Reports s := by
  rw [Reports, hn, hk]
  exact h

theorem Reports.after {s : Node × List Effect} (h : n'.Reports s) (hk : n'.known = n.known) : n.Reports s := by
  rw [Reports, ← hk]
  exact h

theorem reports_terminalOwnerRemoved : (n.terminalOwnerRemoved tm c).Returns n.Reports := by
  refine .bind' fun e => ?_
  extract_lets bindingId next
  have h (s : Node × List Effect) (hs : n.Still s) : (next s).Returns n.Reports := by
    refine reports_updateState.bind fun u h₂ => ?_
    obtain ⟨n₂, known, alive⟩ := u
    replace h₂ : n.Reports (n₂, known) := h₂.after hs.1
    refine .ite (fun _ => ?_) fun _ => ?_
    · refine .ite (fun _ => .pure (h₂.of_eq rfl ?_)) fun _ => .bind' fun bd => .pure (h₂.of_eq rfl ?_)
      · simp [hs.2, Effect.notification]
      · simp [hs.2, Effect.notification]
    · refine .bind' fun e => ?_
      extract_lets last
      have h' (t : Node × List Effect) (ht : n₂.Still t) : (last t).Returns n.Reports := by
        refine releaseBindings_notifications.bind fun bindings h₄ => ?_
        extract_lets finish
        have hf (n₄ : Node) (hk : n₄.known = t.1.known) : (finish n₄).Returns n.Reports :=
          .pure (h₂.of_eq (hk.trans ht.1) (by simp [hs.2, ht.2, h₄, Effect.notification]))
        exact .ite (fun _ => disassociateTerminal_known.bind hf) fun _ => hf _ rfl
      refine .ite (fun _ => still_updateLastOwningNode.bind h') fun _ => ?_
      exact (Returns.pure (P := n₂.Still) ⟨rfl, rfl⟩).bind h'
  have hn : Returns (pure (n, []) : Result) n.Still := .pure ⟨rfl, rfl⟩
  have hu (n₁ : Node) (hk : n₁.known = n.known) :
      Returns (n₁.updateUsersForAbandonedTerminal tm c >>= next) n.Reports :=
    still_updateUsersForAbandonedTerminal.bind fun s hs => h s ⟨hs.1.trans hk, hs.2⟩
  split
  · exact disassociateTerminal_known.bind fun n₁ h₁ => hu n₁ (h₁.trans known_hide)
  · exact disassociateTerminal_known.bind fun n₁ h₁ => hu n₁ (h₁.trans known_hide)
  · exact hn.bind h
  · exact hn.bind h
  · exact hn.bind h
  · exact .error
  · exact .error

theorem reports_removeTerminalOwner {broken : Bool} : (n.removeTerminalOwner tm c broken).Returns n.Reports := by
  refine .bind' fun e => ?_
  split
  · exact .ite (fun _ => .pure (Still.reports ⟨rfl, rfl⟩)) fun _ => .error
  · refine .ite (fun _ => reports_terminalOwnerRemoved.imp fun s hs => hs.after known_modifyTerminal) fun _ =>
      .bind' fun out => ?_
    · refine .ite (fun _ => .pure (Still.reports ⟨known_modifyTerminal, notifications_post⟩)) fun _ => ?_
      exact reports_terminalOwnerRemoved.bind fun r hr => .pure ((hr.after known_modifyTerminal).of_eq rfl (by simp))

theorem still_describe : n.Still (n.describe tm x c) :=
  ⟨known_modifyTerminal, notifications_post⟩

theorem still_describeToAll {cs : List Conn} : n.Still (n.describeToAll tm x cs) := by
  induction cs generalizing n
  case nil          => exact ⟨rfl, rfl⟩
  case cons d cs ih => exact Still.append still_describe ih

theorem still_informUsers : (n.informUsers tm c).Returns n.Still := by
  refine .bind' fun e => ?_
  split
  · exact .pure still_describeToAll
  · exact .pure ⟨rfl, rfl⟩
  · exact .pure ⟨rfl, rfl⟩
  · exact .pure ⟨rfl, rfl⟩
  · exact .pure ⟨rfl, rfl⟩
  · refine .bind' fun owner => .ite (fun _ => .pure still_describe) fun _ => .pure ⟨rfl, rfl⟩
  · exact .error

theorem establishBindings_notifications {o : Option Id} :
    (n.establishBindings tm o c).Returns (notifications · = []) := by
  cases o
  case none    => exact .pure rfl
  case some bd =>
    refine .bind' fun e => .bind' fun d => .ite (fun _ => .pure notifications_established) fun _ => ?_
    refine .ite (fun _ => ?_) fun _ => .pure rfl
    split
    · exact .pure rfl
    · split
      · exact .pure rfl
      · exact .pure rfl

theorem reports_forEach {f : Node → Id → Result} (hf : ∀ n i, (f n i).Returns n.Reports) (is : List Id) :
    (forEach f n is).Returns n.Reports := by
  induction is generalizing n
  case nil          => exact .ok (Still.reports ⟨rfl, rfl⟩)
  case cons i is ih => exact (hf n i).bind fun r hr => ih.bind fun s hs => .pure (hr.append hs)

theorem reports_onConnectionStarted : (n.onConnectionStarted c).Returns n.Reports := by
  refine .ite (fun _ => ?_) fun _ => .bind' fun _ => .pure (Still.reports ⟨rfl, rfl⟩)
  refine (reports_forEach (fun n tm => .bind' fun e => ?_) _).bind fun r hr => .bind' fun _ => .pure hr
  refine .ite (fun _ => .pure (Still.reports ⟨rfl, rfl⟩)) fun _ => .bind' fun _ => .pure (Still.reports ?_)
  exact ⟨known_modifyTerminal, by simp [Node.describe, Effect.notification]⟩

theorem reports_onConnectionDestroyed : (n.onConnectionDestroyed c).Returns n.Reports := by
  refine .ite (fun _ => .pure (Still.reports ⟨rfl, rfl⟩)) fun _ => ?_
  refine (reports_forEach (fun n bd => .bind' fun e => ?bindings) _).bind fun r hr =>
    (reports_forEach (fun n tm => ?terminals) _).bind fun s hs => .pure ?rest
  case bindings =>
    refine .ite (fun _ => disassociateBinding_known.bind fun m hm => .pure ?_) fun _ => .pure ?_
    · exact Still.reports ⟨hm, by split <;> simp [Effect.notification]⟩
    · exact Still.reports ⟨rfl, by split <;> simp [Effect.notification]⟩
  case terminals =>
    refine reports_updateState.bind fun u hm => ?_
    obtain ⟨m, known, alive⟩ := u
    replace hm : n.Reports (m, known) := hm.after known_modifyTerminal
    refine .ite (fun _ => reports_removeTerminalOwner.bind fun r hr => .pure ?_) fun _ => .pure ?_
    · exact (hm.append hr).of_eq rfl (by simp [Effect.notification])
    · exact hm.of_eq rfl (by simp [Effect.notification])
  case rest =>
    refine (hr.append hs).after ?_
    split <;> rfl

theorem still_onTerminalMapping : (n.onTerminalMapping tm i c).Returns n.Still := by
  refine .bind' fun _ => .bind' fun e => .ite (fun _ => .error) fun _ => .bind' fun out => ?_
  exact .ite (fun _ => .error) fun _ => .pure ⟨known_modifyTerminal, notifications_post⟩

theorem reports_onTerminalRemovedAck : (n.onTerminalRemovedAck tm c).Returns n.Reports := by
  refine .bind' fun _ => .bind' fun e => ?_
  extract_lets user describe _ acknowledge next
  have hd : Returns describe n.Still := .bind' fun _ => .pure still_describe
  have ha : Returns acknowledge n.Still := by
    refine .bind' fun f => .bind' fun out => .ite (fun _ => .pure ⟨known_modifyTerminal, rfl⟩) fun _ => .pure ?_
    exact ⟨known_modifyTerminal, by simp [Effect.notification]⟩
  have h (s : Node × List Effect) (hs : n.Still s) : (next s).Returns n.Reports := by
    refine .bind' fun e => ?_
    extract_lets last
    have h' (n' : Node) (hk : n'.known = s.1.known) : (last n').Returns n.Reports := by
      exact reports_updateState.bind fun t ht => .pure ((ht.after (hk.trans hs.1)).of_eq rfl (by simp [hs.2]))
    exact .ite (fun _ => disassociateTerminal_known.bind h') fun _ => h' _ rfl
  split
  · exact .error
  · exact hd.bind h
  · exact hd.bind h
  · exact hd.bind h
  · exact hd.bind h
  · exact .ite (fun _ => hd.bind h) fun _ => ha.bind h
  · exact ha.bind h

theorem still_onBindingDescription : (n.onBindingDescription x i c).Returns n.Still := by
  refine .bind' fun _ => ?_
  simp only []
  refine .bind' fun e => .bind' fun out => ?_
  refine .ite (fun _ => .pure ⟨rfl, by simp [Effect.notification]⟩) fun _ => ?_
  refine associateBinding_known.bind fun s hs => ?_
  obtain ⟨n₁, tm⟩ := s
  cases tm
  case none    => exact .pure ⟨hs, by simp [Effect.notification]⟩
  case some tm =>
    refine .bind' fun e => .ite (fun _ => .pure ⟨hs, ?_⟩) fun _ => .pure ⟨hs, ?_⟩
    · simp [Effect.notification]
    · simp [Effect.notification]

theorem still_onBindingRemoved : (n.onBindingRemoved i c).Returns n.Still := by
  refine .bind' fun _ => .bind' fun e => .bind' fun owner => .bind' fun out => ?_
  refine .ite (fun _ => .pure ⟨rfl, notifications_post⟩) fun _ => ?_
  refine .ite (fun _ => disassociateBinding_known.bind fun m hm => .pure ⟨hm, ?_⟩) fun _ => .pure ⟨rfl, ?_⟩
  · simp [Effect.notification]
  · simp [Effect.notification]

theorem associateTerminal_entry {e : Element NodeTerminalInfo} (he : n.terminals.get? tm = some e) :
    (n.associateTerminal tm).Returns fun s =>
      ∃ b, s.1.terminals.get? tm = some { e with data := { e.data with binding := b } } := by
  refine .bind' fun _ => .ite (fun _ => ?_) fun _ => ?_
  · split
    · exact .error
    · exact .bind' fun _ => .pure ⟨e.data.binding, he⟩
  · split
    case h_1   => exact .pure ⟨e.data.binding, he⟩
    case h_2 d _ =>
      refine .pure ⟨d.id, ?_⟩
      simp only [modifyTerminal, modifyBinding, Register.get?_modify, if_true, he]
      rfl

-- A terminal that has an owner is not erased.
theorem still_updateState {e : Element NodeTerminalInfo} (he : n.terminals.get? tm = some e)
    (hu : ¬Unowned e.data) : (n.updateState tm).Returns fun s => n.Still (s.1, s.2.1) := by
  refine deref_returns.bind fun e' he' => .ite (fun h => absurd ?_ hu) fun _ => .pure ⟨known_modifyTerminal, rfl⟩
  cases he.symm.trans he'
  exact ⟨h.1, h.2.1⟩

-- A terminal is reported when it is inserted.
theorem known_insert (hn : n.Consistent {}) {e : Element NodeTerminalInfo}
    (he : (n.terminals.insert x {}).1.get? (n.terminals.insert x {}).2.1 = some e) :
    { n with terminals := (n.terminals.insert x {}).1 }.known =
      if e.data.state = .justCreated ∧ ¬x.hidden then x ::ₘ n.known else n.known := by
  cases hf : n.terminals.find? x
  case some d =>
    have hd : e.data.state ≠ .justCreated := by
      rw [(Register.insert_of_find?_some hf).2] at he
      rw [(hn.get? he).state (Set.notMem_empty _)]
      exact stateOf_ne_justCreated
    rw [known_insert_some hf, if_neg fun h => hd h.1]
  case none   =>
    have hd : e.data.state = .justCreated := by
      rw [(Register.insert_of_find?_none hf).2.2.2, if_pos rfl, Option.some.injEq] at he
      exact he ▸ rfl
    rw [known_insert_none hf]
    cases x.hidden <;> simp [hd]

theorem reports_onTerminalDescription (hn : n.Consistent {}) (hc : c ∈ n.connections) :
    (n.onTerminalDescription x i c).Returns n.Reports := by
  have hins {e} {f} (he : (n.terminals.insert x {}).1.get? (n.terminals.insert x {}).2.1 = some e) :=
    hn.described (f := f) hc he
  have hkn {e} (he : (n.terminals.insert x {}).1.get? (n.terminals.insert x {}).2.1 = some e) := known_insert hn he
  simp only [onTerminalDescription]
  generalize n.terminals.insert x {} = inserted at *
  obtain ⟨ts, tm, ins⟩ := inserted
  refine deref_returns.bind fun e he => Returns.bind (fun _ => id) fun out hout => ?_
  obtain ⟨hcons, ⟨e', he', hh, hx, hd⟩, hknown, howner⟩ := hins (f := out.fsm) he
  have hk := hkn he
  have hout' : c ∉ ownersMap e.data c → oldMappedId out.calls = 0 := fun hm =>
    oldMappedId_of_new (i := i) (by rwa [AList.lookup_eq_none.mpr hm] at hout)
  have hsends : notifications ((if ins = true then [.terminalInserted tm] else []) ++
      post c .binding x tm i out.calls) = [] := by
    split <;> simp [Effect.notification]
  refine .ite (fun ho => .pure ?_) fun _ => ?_
  case refine_1 =>
    have hcn := howner (by_contra fun hm => ho (hout' hm))
    have hs : e.data.state ≠ .justCreated := by
      have hs := (hcn.get? he').state (Set.notMem_empty _)
      rw [hd, insertOwner_state] at hs
      exact hs ▸ stateOf_ne_justCreated
    refine Still.reports ⟨known_modifyTerminal.trans (hk.trans (if_neg fun h => hs h.1)), ?_⟩
    rw [notifications_append, hsends]
    rfl
  case refine_2 =>
    have hinform : (Node.informUsers (Node.modifyTerminal { n with terminals := ts } tm fun d =>
        setOwnersMap d c ((ownersMap d c).insert c out.fsm)) tm c).Returns fun s =>
        Still _ s ∧ Told e' s.1 := fun s hs =>
      ⟨still_informUsers s hs, (hcons.informUsers he' subset_rfl s hs).2⟩
    refine hinform.bind fun s hs => ?_
    obtain ⟨h₁, users, ht⟩ := hs
    rw [Register.get?_id he'] at ht
    have hassoc : (s.1.associateTerminal tm).Returns fun t => t.1.known = s.1.known ∧
        ∃ e, t.1.terminals.get? tm = some e ∧ ¬Unowned e.data := by
      intro t h
      obtain ⟨b, hb⟩ := associateTerminal_entry ht t h
      exact ⟨associateTerminal_known t h, _, hb, hd ▸ not_unowned_insertOwner⟩
    refine hassoc.bind fun t h₂ => establishBindings_notifications.bind fun bindings h₃ => ?_
    obtain ⟨h₂, e₂, he₂, hu⟩ := h₂
    refine (still_updateState he₂ hu).bind fun u h₄ => .pure ?_
    have hkn' : u.1.known = _ := (h₄.1.trans (h₂.trans (h₁.1.trans known_modifyTerminal))).trans hk
    have hadd {p : Prop} [Decidable p] {h : Hook} : notifications (if p then [.call u.1 h] else []) = [] := by
      split <;> simp [Effect.notification]
    simp only [Reports, notifications_append] at hsends ⊢
    rw [hsends, h₁.2, h₃, h₄.2, hadd, hkn']
    split
    · rfl
    · rfl

theorem reports_onMessageReceived {m : Message} (hn : n.Consistent {}) (hc : c ∈ n.connections) :
    (n.onMessageReceived c m).Returns n.Reports := by
  cases m
  case terminalDescription => exact reports_onTerminalDescription hn hc
  case terminalMapping     => exact still_onTerminalMapping.imp fun _ => Still.reports
  case terminalRemoved     => exact reports_removeTerminalOwner
  case terminalRemovedAck  => exact reports_onTerminalRemovedAck
  case bindingDescription  => exact still_onBindingDescription.imp fun _ => Still.reports
  case bindingRemoved      => exact still_onBindingRemoved.imp fun _ => Still.reports
  all_goals exact .error

theorem reports_onEvent {a : Event} (hn : n.Consistent {}) (ha : a.Enabled n) : (n.onEvent a).Returns n.Reports := by
  cases a
  case connectionStarted   => exact reports_onConnectionStarted
  case connectionDestroyed => exact reports_onConnectionDestroyed
  case message             => exact reports_onMessageReceived hn ha

namespace Run

variable {r : Run}

theorem reachable_node (h : machine.Reachable r) : Node.machine.Reachable r.node := by
  refine h.project (fun hr => ?_) fun hn he hs => ?_
  · cases hr
    exact .init rfl
  · obtain ⟨t, ht, hs⟩ := Except.bind_eq_ok.mp hs
    cases hs
    exact hn.step he (Except.map_eq_ok.mpr ⟨t, ht, rfl⟩)

-- Whoever applies the notifications to a list of terminals has the known terminals in the list.
theorem known_of_notifications (h : machine.Reachable r) : replay r.notifications 0 = some r.node.known := by
  induction h
  case init hr =>
    cases hr
    rfl
  case step r a s h he hs ih =>
    obtain ⟨t, ht, hs⟩ := Except.bind_eq_ok.mp hs
    cases hs
    rw [replay_append, ih]
    exact reports_onEvent (consistent_of_reachable (reachable_node h)) he t ht

instance (r : Run) (e : Event) : Decidable (machine.enabled r e) :=
  inferInstanceAs (Decidable (Node.machine.enabled r.node e))

theorem reachable_of_run (as : List Event) (r : Run) (h : machine.run {} as = some r) : machine.Reachable r :=
  .of_run (.init rfl) h

theorem known_of_notifications_closed :
    ∃ r, machine.run {} closed = some r ∧
    r.notifications = [(⟨1, "a", false⟩, true), (⟨1, "a", false⟩, false)] ∧
    replay r.notifications 0 = some r.node.known :=
  ⟨_, rfl, rfl, known_of_notifications (reachable_of_run closed _ rfl)⟩

end Run
end Yogi.Node
