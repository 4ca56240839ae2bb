import YogiModel.ScatterGather.LeafLogic

namespace Yogi.ScatterGather.LeafLogic

open LeafView
open Wire (Byte)

variable {s s' s'' : LeafLogic} {es : List Effect} {t : Nat} {op : Id}

-- Loops.

theorem forEach_cons {α : Type} {f : LeafLogic → α → Result} {a : α} {as : List α} {r} :
    forEach f s (a :: as) = .ok r ↔ ∃ p q, f s a = .ok p ∧ forEach f p.1 as = .ok q ∧
      r = (q.1, p.2 ++ q.2) := by
  simp only [forEach, Except.bind_eq_ok]
  constructor
  · rintro ⟨p, hp, q, hq, hr⟩
    cases hr
    exact ⟨p, q, hp, hq, rfl⟩
  · rintro ⟨p, q, hp, hq, hr⟩
    exact ⟨p, hp, q, hq, by rw [hr]; rfl⟩

theorem forEach_rel {α : Type} {R : LeafLogic → LeafLogic → Prop} {f : LeafLogic → α → Result}
    {as : List α} {r} (hr : ∀ s, R s s) (ht : ∀ {s s' s''}, R s s' → R s' s'' → R s s'')
    (hf : ∀ {s a p}, f s a = .ok p → R s p.1) (h : forEach f s as = .ok r) : R s r.1 := by
  induction as generalizing s r
  case nil =>
    cases h
    exact hr s
  case cons a as ih =>
    obtain ⟨p, q, hp, hq, he⟩ := forEach_cons.mp h
    cases he
    exact ht (hf hp) (ih hq : R p.1 q.1)

-- What does not matter to the operations of this leaf.
structure SameScatter (s s' : LeafLogic) : Prop where
  leaf       : s'.leaf = s.leaf
  subscribed : s'.subscribed = s.subscribed
  operations : s'.scatterOperations = s.scatterOperations
  terminals  : ∀ t, (s'.terminals t).map (fun o => (o.id, o.tasks)) =
    (s.terminals t).map fun o => (o.id, o.tasks)
  ext        : ∀ tm, (s'.terminalExt tm).scatterOperations = (s.terminalExt tm).scatterOperations

namespace SameScatter

theorem refl (s : LeafLogic) : SameScatter s s :=
  ⟨rfl, rfl, rfl, fun _ => rfl, fun _ => rfl⟩

theorem trans (h : SameScatter s s') (h' : SameScatter s' s'') : SameScatter s s'' where
  leaf       := h'.leaf.trans h.leaf
  subscribed := h'.subscribed.trans h.subscribed
  operations := h'.operations.trans h.operations
  terminals  := fun t => (h'.terminals t).trans (h.terminals t)
  ext        := fun tm => (h'.ext tm).trans (h.ext tm)

theorem gather {g : List (Id × Nat)} : SameScatter s { s with gatherOperations := g } :=
  ⟨rfl, rfl, rfl, fun _ => rfl, fun _ => rfl⟩

theorem bindingExt {bd : Id} {e : List (Id × Id)} : SameScatter s (s.setBindingExt bd e) :=
  ⟨rfl, rfl, rfl, fun _ => rfl, fun _ => rfl⟩

theorem terminalExt {tm : Id} {g : List (Id × Id)} :
    SameScatter s (s.setTerminalExt tm { s.terminalExt tm with gatherOperations := g }) where
  leaf       := rfl
  subscribed := rfl
  operations := rfl
  terminals  := fun _ => rfl
  ext        := by
    intro i
    simp only [setTerminalExt, Function.update_apply]
    split
    case isTrue h  => rw [h]
    case isFalse   => rfl

theorem reply {o : Terminal} {r : Option Nat} (ho : s.terminals t = some o) :
    SameScatter s (s.setTerminal t (some { o with reply := r })) where
  leaf       := rfl
  subscribed := rfl
  operations := rfl
  terminals  := by
    intro i
    simp only [setTerminal, Function.update_apply]
    split
    case isTrue h  => simp [h, ho]
    case isFalse   => rfl
  ext        := fun _ => rfl

theorem forEach {α : Type} {f : LeafLogic → α → Result} {as : List α} {r}
    (hf : ∀ {s a p}, f s a = .ok p → SameScatter s p.1) (h : LeafLogic.forEach f s as = .ok r) :
    SameScatter s r.1 :=
  forEach_rel refl trans hf h

end SameScatter

-- The functions that are about the operations of other leafs.

theorem removeGatherOperation_same {e : Id × Id} {r} (h : s.removeGatherOperation t e = .ok r) :
    SameScatter s r.1 := by
  simp only [removeGatherOperation, Except.bind_eq_ok] at h
  obtain ⟨bd, _, g, _, o, _, x, _, hr⟩ := h
  cases hr
  exact SameScatter.gather.trans .bindingExt

theorem removeAllGatherOperations_same {tm : Element TerminalInfo} {r}
    (h : s.removeAllGatherOperations tm = .ok r) : SameScatter s r.1 := by
  simp only [removeAllGatherOperations] at h
  split at h
  case h_1 => exact SameScatter.forEach removeGatherOperation_same h
  case h_2 =>
    obtain ⟨_, _, hr⟩ := Except.bind_eq_ok.mp h
    cases hr
    exact .refl s

theorem takeGatherOperation_same {e : Id × Id} {r} (h : s.takeGatherOperation e = .ok r) :
    SameScatter s r.1 := by
  simp only [takeGatherOperation, Except.bind_eq_ok] at h
  obtain ⟨tm, _, _, _, h⟩ := h
  split at h
  case h_1 => cases h
  case h_2 =>
    obtain ⟨g, _, hr⟩ := Except.bind_eq_ok.mp h
    cases hr
    exact SameScatter.terminalExt.trans .gather

theorem onBindingGroupMappingChanged_same {b : Bool} {bd : Id} {r}
    (h : s.onBindingGroupMappingChanged b bd = .ok r) : SameScatter s r.1 := by
  simp only [onBindingGroupMappingChanged, Except.bind_eq_ok] at h
  obtain ⟨bd, _, h⟩ := h
  split at h
  case isTrue =>
    obtain ⟨_, _, h⟩ := Except.bind_eq_ok.mp h
    obtain ⟨q, hq, h⟩ := Except.bind_eq_ok.mp h
    cases h
    exact (SameScatter.forEach takeGatherOperation_same hq).trans .bindingExt
  case isFalse =>
    cases h
    exact .refl s

theorem destroyGatherOperation_same {b : Binding} {bd : Id} {e : Id × Id} {r}
    (h : destroyGatherOperation b bd s e = .ok r) : SameScatter s r.1 := by
  obtain ⟨tm, _, h⟩ := Except.bind_eq_ok.mp h
  obtain ⟨_, _, h⟩ := Except.bind_eq_ok.mp h
  cases ht : tm.data.terminal <;> simp only [ht] at h
  case none => cases h
  case some =>
    obtain ⟨o, _, h⟩ := Except.bind_eq_ok.mp h
    split at h
    case isFalse =>
      cases h
      exact .refl s
    case isTrue =>
      obtain ⟨q, hq, h⟩ := Except.bind_eq_ok.mp h
      have hs : SameScatter s (q.1.setBindingExt bd ((q.1.bindingExt bd).erase e)) :=
        (takeGatherOperation_same hq).trans .bindingExt
      split at h
      case isTrue =>
        obtain ⟨_, _, h⟩ := Except.bind_eq_ok.mp h
        cases h
        exact hs
      case isFalse =>
        cases h
        exact hs

theorem onBindingRemoved_same {b : Binding} {bd : Id} {r} (h : s.onBindingRemoved b bd = .ok r) :
    SameScatter s r.1 := by
  obtain ⟨_, _, h⟩ := Except.bind_eq_ok.mp h
  exact SameScatter.forEach destroyGatherOperation_same h

theorem sgRespond_same {flags : Nat} {data : List Byte} {r}
    (h : s.sgRespondToScatteredMessage t op flags data = .ok r) : SameScatter s r.1 := by
  simp only [sgRespondToScatteredMessage, Except.bind_eq_ok] at h
  obtain ⟨_, _, _, _, _, _, o, _, tm, _, h⟩ := h
  split at h
  case h_1 =>
    cases h
    exact .refl s
  case h_2 =>
    simp only [Except.bind_eq_ok] at h
    obtain ⟨bd, _, x, _, g, _, _, _, h⟩ := h
    split at h <;> cases h <;> exact SameScatter.bindingExt.trans (SameScatter.terminalExt.trans .gather)

theorem storeGatherOperation_same {bd tm : Id} {o : Terminal} :
    SameScatter s (s.storeGatherOperation op bd tm t o) :=
  SameScatter.gather.trans (.trans .bindingExt .terminalExt)

theorem terminal!_ok {o : Terminal} (h : s.terminal! t = .ok o) : s.terminals t = some o := by
  simp only [LeafLogic.terminal!] at h
  split at h
  case h_1 hs => exact Except.ok.inj h ▸ hs
  case h_2    => cases h

-- The operations of this leaf.

-- A terminal that exists for the leaf as well as for the library user.
def Proper (v : LeafView) (s : LeafLogic) (t : Nat) (o : Terminal) : Prop :=
  s.terminals t = some o ∧ v.object o.id = some t

structure ScatterInv (v : LeafView) (s : LeafLogic) : Prop where
  same   : ∀ {t o tm}, s.terminals t = some o → v.object tm = some t → o.id = tm
  tasks  : ∀ {t o}, Proper v s t o → ∀ op,
    op ∈ o.tasks.map Prod.fst ↔ s.scatterOperations.get? op = some (some t)
  ops    : ∀ {t o}, Proper v s t o → ∀ op,
    op ∈ (s.terminalExt o.id).scatterOperations ↔ s.scatterOperations.get? op = some (some t)
  nodup  : ∀ {t o}, Proper v s t o → (s.terminalExt o.id).scatterOperations.Nodup
  owner  : ∀ {t op}, s.scatterOperations.get? op = some (some t) → ∃ o, Proper v s t o
  mapped : ∀ {t o}, Proper v s t o → (s.terminalExt o.id).scatterOperations ≠ [] →
    v.mapped o.id = true

-- Only mapped terminals are subscribed.
def Subscribed (v : LeafView) (s : LeafLogic) : Prop :=
  ∀ {tm}, v.object tm ≠ none → s.subscribed tm = true → v.mapped tm = true

namespace ScatterInv

variable {v w : LeafView}

theorem congr (h : ScatterInv v s) (hs : SameScatter s s') : ScatterInv v s' := by
  have ht : ∀ {t o'}, s'.terminals t = some o' →
      ∃ o, s.terminals t = some o ∧ o.id = o'.id ∧ o.tasks = o'.tasks := by
    intro t o' ho'
    have := hs.terminals t
    rw [ho', Option.map_some, eq_comm, Option.map_eq_some_iff] at this
    obtain ⟨o, ho, he⟩ := this
    exact ⟨o, ho, (Prod.mk.inj he).left, (Prod.mk.inj he).right⟩
  have hp : ∀ {t o'}, Proper v s' t o' →
      ∃ o, Proper v s t o ∧ o.id = o'.id ∧ o.tasks = o'.tasks := by
    rintro t o' ⟨ho', hv⟩
    obtain ⟨o, ho, hi, hk⟩ := ht ho'
    exact ⟨o, ⟨ho, hi ▸ hv⟩, hi, hk⟩
  constructor
  case same =>
    intro t o' tm ho' hv
    obtain ⟨o, ho, hi, _⟩ := ht ho'
    exact hi ▸ h.same ho hv
  case tasks =>
    intro t o' hp'
    obtain ⟨o, ho, _, hk⟩ := hp hp'
    rw [hs.operations, ← hk]
    exact h.tasks ho
  case ops =>
    intro t o' hp'
    obtain ⟨o, ho, hi, _⟩ := hp hp'
    rw [hs.operations, hs.ext, ← hi]
    exact h.ops ho
  case nodup =>
    intro t o' hp'
    obtain ⟨o, ho, hi, _⟩ := hp hp'
    rw [hs.ext, ← hi]
    exact h.nodup ho
  case owner =>
    intro t op hop
    rw [hs.operations] at hop
    obtain ⟨o, ho, hv⟩ := h.owner hop
    have := hs.terminals t
    rw [ho, Option.map_some, Option.map_eq_some_iff] at this
    obtain ⟨o', ho', he⟩ := this
    exact ⟨o', ho', (Prod.mk.inj he).left ▸ hv⟩
  case mapped =>
    intro t o' hp' hne
    obtain ⟨o, ho, hi, _⟩ := hp hp'
    rw [hs.ext, ← hi] at hne
    exact hi ▸ h.mapped ho hne
-- The invariant is about the objects of the leaf and their mapping states.
theorem view (h : ScatterInv v s) (ho : ∀ tm, w.object tm = v.object tm)
    (hm : ∀ tm, v.object tm ≠ none → w.mapped tm = v.mapped tm) : ScatterInv w s := by
  have hp : ∀ {t o}, Proper w s t o ↔ Proper v s t o := by simp only [Proper, ho, implies_true]
  constructor
  case same       => exact fun ht hv => h.same ht (ho _ ▸ hv)
  case tasks      => exact fun hpr => h.tasks (hp.mp hpr)
  case ops        => exact fun hpr => h.ops (hp.mp hpr)
  case nodup      => exact fun hpr => h.nodup (hp.mp hpr)
  case owner      =>
    intro t op hop
    obtain ⟨o, hpr⟩ := h.owner hop
    exact ⟨o, hp.mpr hpr⟩
  case mapped     =>
    intro t o hpr hne
    have hpr := hp.mp hpr
    rw [hm o.id (by simp [hpr.right])]
    exact h.mapped hpr hne
theorem registered (h : ScatterInv v s) {r : ObjectRegister (Option Nat)}
    (hr : ∀ op u, r.get? op = some (some u) ↔ s.scatterOperations.get? op = some (some u)) :
    ScatterInv v { s with scatterOperations := r } where
  same   := h.same
  tasks  := fun hpr op => (h.tasks hpr op).trans (hr op _).symm
  ops    := fun hpr op => (h.ops hpr op).trans (hr op _).symm
  nodup  := h.nodup
  owner  := fun hop => h.owner ((hr _ _).mp hop)
  mapped := h.mapped

end ScatterInv

-- The operations are kept track of, and nothing happens to terminals that do not exist.
structure Keeps (v : LeafView) (s s' : LeafLogic) : Prop where
  inv        : ScatterInv v s'
  leaf       : s'.leaf = s.leaf
  subscribed : s'.subscribed = s.subscribed
  ext        : ∀ tm, v.object tm = none →
    (s'.terminalExt tm).scatterOperations = (s.terminalExt tm).scatterOperations
  objects    : ∀ t, (s'.terminals t).map (·.id) = (s.terminals t).map (·.id)

theorem Keeps.trans {v : LeafView} (h : Keeps v s s') (h' : Keeps v s' s'') : Keeps v s s'' where
  inv        := h'.inv
  leaf       := h'.leaf.trans h.leaf
  subscribed := h'.subscribed.trans h.subscribed
  ext        := fun tm htm => (h'.ext tm htm).trans (h.ext tm htm)
  objects    := fun t => (h'.objects t).trans (h.objects t)

theorem SameScatter.objects (h : SameScatter s s') (t : Nat) :
    (s'.terminals t).map (·.id) = (s.terminals t).map (·.id) := by
  have := congrArg (Option.map Prod.fst) (h.terminals t)
  simpa only [Option.map_map, Function.comp_def] using this

namespace ScatterInv

variable {v w : LeafView}

theorem keeps (h : ScatterInv v s) (hs : SameScatter s s') : Keeps v s s' where
  inv        := h.congr hs
  leaf       := hs.leaf
  subscribed := hs.subscribed
  ext        := fun tm _ => hs.ext tm
  objects    := hs.objects

-- It suffices to have a look at the terminal that makes a change.
theorem change {o o' : Terminal} (h : ScatterInv v s) (hpr : Proper v s t o)
    (ho : s'.terminals t = some o') (hi : o'.id = o.id)
    (ht : ∀ u, u ≠ t → s'.terminals u = s.terminals u)
    (he : ∀ tm, tm ≠ o.id →
      (s'.terminalExt tm).scatterOperations = (s.terminalExt tm).scatterOperations)
    (hr : ∀ op u, u ≠ t →
      (s'.scatterOperations.get? op = some (some u) ↔ s.scatterOperations.get? op = some (some u)))
    (htasks : ∀ op, op ∈ o'.tasks.map Prod.fst ↔ s'.scatterOperations.get? op = some (some t))
    (hops : ∀ op, op ∈ (s'.terminalExt o.id).scatterOperations ↔
      s'.scatterOperations.get? op = some (some t))
    (hnd : (s'.terminalExt o.id).scatterOperations.Nodup)
    (hm : (s'.terminalExt o.id).scatterOperations ≠ [] → v.mapped o.id = true)
    (hl : s'.leaf = s.leaf) (hs : s'.subscribed = s.subscribed) : Keeps v s s' := by
  have hpr' : ∀ {u c}, Proper v s' u c → u = t ∧ c = o' ∨ u ≠ t ∧ c.id ≠ o.id ∧ Proper v s u c := by
    intro u c hpu
    cases Decidable.em (u = t)
    case inl hu =>
      subst hu
      exact .inl ⟨rfl, Option.some.inj (hpu.left.symm.trans ho)⟩
    case inr hu =>
      refine .inr ⟨hu, fun hc => ?_, ht u hu ▸ hpu.left, hpu.right⟩
      have := hpu.right
      rw [hc, hpr.right] at this
      exact hu (Option.some.inj this).symm
  refine ⟨?_, hl, hs, fun tm htm => he tm fun heq => by simp [heq, hpr.right] at htm, fun u => ?_⟩
  case refine_2 =>
    cases Decidable.em (u = t)
    case inl hu => simp [hu, ho, hpr.left, hi]
    case inr hu => rw [ht u hu]
  constructor
  case same =>
    intro u c tm hc hv
    cases Decidable.em (u = t)
    case inl hu =>
      subst hu
      cases Option.some.inj (ho.symm.trans hc)
      exact hi.trans (h.same hpr.left hv)
    case inr hu => exact h.same (ht u hu ▸ hc) hv
  case tasks =>
    intro u c hpu op
    cases hpr' hpu
    case inl hu => exact hu.left ▸ hu.right ▸ htasks op
    case inr hu => rw [hr op u hu.left, h.tasks hu.right.right]
  case ops =>
    intro u c hpu op
    cases hpr' hpu
    case inl hu => exact hu.left ▸ hu.right ▸ hi ▸ hops op
    case inr hu => rw [hr op u hu.left, he _ hu.right.left, h.ops hu.right.right]
  case nodup =>
    intro u c hpu
    cases hpr' hpu
    case inl hu => exact hu.right ▸ hi ▸ hnd
    case inr hu => exact he _ hu.right.left ▸ h.nodup hu.right.right
  case owner =>
    intro u op hop
    cases Decidable.em (u = t)
    case inl hu => exact ⟨o', hu ▸ ho, hu ▸ hi ▸ hpr.right⟩
    case inr hu =>
      obtain ⟨c, hc, hv⟩ := h.owner ((hr op u hu).mp hop)
      exact ⟨c, (ht u hu).trans hc, hv⟩
  case mapped =>
    intro u c hpu hne
    cases hpr' hpu
    case inl hu => exact hu.right ▸ hi ▸ hm (hi ▸ hu.right ▸ hne)
    case inr hu => exact h.mapped hu.right.right (he _ hu.right.left ▸ hne)

end ScatterInv

theorem onGatheredMessageReceived_ok {flags : Nat} {data : List Byte} {goOn : Bool} {r}
    (h : s.onGatheredMessageReceived t op flags data goOn = .ok r) :
    ∃ o, s.terminals t = some o ∧ op ∈ o.tasks.map Prod.fst ∧
      r.1 = s.setTerminal t (some (if !goOn || finished flags then
        { o with tasks := o.tasks.filter (·.1 ≠ op) } else o)) := by
  simp only [onGatheredMessageReceived, Except.bind_eq_ok, terminal!] at h
  obtain ⟨o, ho, h⟩ := h
  split at ho
  case h_2 => cases ho
  case h_1 hs =>
    cases ho
    split at h
    case h_1 => cases h
    case h_2 hf =>
      cases h
      refine ⟨o, hs, ?_, rfl⟩
      have := List.find?_some hf
      simp only [decide_eq_true_eq] at this
      exact List.mem_map.mpr ⟨_, List.mem_of_find?_eq_some hf, this⟩

theorem leafTerminal!_ok {l : Leaf} {i : Id} {e : Element TerminalInfo} (h : l.terminal! i = .ok e) :
    l.terminals.get? i = some e ∧ e.id = i := by
  simp only [Leaf.terminal!] at h
  split at h
  case h_1 hg =>
    cases h
    exact ⟨hg, Register.get?_id hg⟩
  case h_2 => cases h

theorem assert_ok {b : Bool} {u : Unit} (h : assert b = .ok u) : b = true := by
  cases b
  case false => cases h
  case true  => rfl

namespace ScatterInv

variable {v w : LeafView}

theorem sgScatter {data : List Byte} {o : Terminal} {s₁ : LeafLogic} {id : Id} (buffer : Nat)
    (h : ScatterInv v s) (hsv : Subscribed v s) (hpr : Proper v s t o)
    (hs : s.sgScatter t data = .ok (s₁, es, some id)) :
    Keeps v s (s₁.setTerminal t (some { o with tasks := o.tasks ++ [(id, buffer)] })) ∧
      s₁.terminals = s.terminals ∧ s.scatterOperations.get? id = none := by
  simp only [LeafLogic.sgScatter, Except.bind_eq_ok, LeafLogic.terminal!, hpr.left] at hs
  obtain ⟨_, ho, info, hinfo, hs⟩ := hs
  cases ho
  obtain ⟨_, hi⟩ := leafTerminal!_ok hinfo
  split at hs
  case isTrue  => cases hs
  case isFalse hsub =>
    simp only [Except.bind_eq_ok] at hs
    obtain ⟨_, ha, _, _, hs⟩ := hs
    cases hs
    have hnone := s.scatterOperations.get?_insert_self (d := some t)
    have hget := fun j => s.scatterOperations.get?_insert (d := some t) (j := j)
    generalize s.scatterOperations.insert (some t) = p at hnone hget ⊢
    refine ⟨?_, rfl, hnone⟩
    have hext : ∀ tm, (Function.update s.terminalExt info.id { s.terminalExt info.id with
        scatterOperations := (s.terminalExt info.id).scatterOperations ++ [p.2] } tm).scatterOperations =
        if tm = o.id then (s.terminalExt o.id).scatterOperations ++ [p.2]
        else (s.terminalExt tm).scatterOperations := by
      intro tm
      rw [Function.update_apply, hi]
      split <;> rfl
    have hops : ∀ op, (op ∈ (s.terminalExt o.id).scatterOperations ++ [p.2] ↔
        p.1.get? op = some (some t)) ∧ (op ∈ (o.tasks ++ [(p.2, buffer)]).map Prod.fst ↔
        p.1.get? op = some (some t)) := by
      intro op
      rw [hget, List.map_append, List.mem_append, List.mem_append, h.ops hpr, h.tasks hpr]
      cases Decidable.em (op = p.2) <;> simp [*]
    refine h.change hpr (show _ = some { o with tasks := o.tasks ++ [(p.2, buffer)] } from
      Function.update_self ..) rfl (fun u hu => Function.update_of_ne hu ..)
      (fun tm htm => (hext tm).trans (if_neg htm)) (fun op u hu => ?_) (fun op => (hops op).right)
      (fun op => ?_) ?_ (fun _ => ?_) rfl rfl
    · simp only [setTerminal, setTerminalExt, hget]
      split
      case isTrue hop => simp [hop, hnone, Ne.symm hu]
      case isFalse    => rfl
    · simp only [setTerminal, setTerminalExt, hext, if_true]
      exact (hops op).left
    · simp only [setTerminal, setTerminalExt, hext, if_true]
      refine List.nodup_append.mpr ⟨h.nodup hpr, by simp, fun a ha b hb => ?_⟩
      have := (h.ops hpr a).mp ha
      simp only [List.mem_singleton] at hb
      intro hab
      simp [← hb, ← hab, this] at hnone
    · exact hsv (by simp [hpr.right]) (by simpa [hi] using hsub)

-- The end of an operation for its terminal; `x` is what the register holds then.
theorem release {o : Terminal} {x : Option (Option Nat)} (h : ScatterInv v s) (hpr : Proper v s t o)
    (ho : s'.terminals t = some { o with tasks := o.tasks.filter (·.1 ≠ op) })
    (ht : ∀ u, u ≠ t → s'.terminals u = s.terminals u)
    (he : ∀ tm, (s'.terminalExt tm).scatterOperations = if tm = o.id then
      (s.terminalExt tm).scatterOperations.erase op else (s.terminalExt tm).scatterOperations)
    (hop : s.scatterOperations.get? op = some (some t))
    (hr : ∀ j, s'.scatterOperations.get? j = if j = op then x else s.scatterOperations.get? j)
    (hx : ∀ u, x ≠ some (some u)) (hl : s'.leaf = s.leaf) (hs : s'.subscribed = s.subscribed) :
    Keeps v s s' := by
  refine h.change hpr ho rfl ht (fun tm htm => (he tm).trans (if_neg htm)) (fun j u hu => ?_)
    (fun j => ?_) (fun j => ?_) ?_ (fun hne => ?_) hl hs
  · rw [hr]
    split
    case isTrue hj  => simp [hj, hop, hx, Ne.symm hu]
    case isFalse hj => rfl
  · rw [hr]
    have := h.tasks hpr j
    cases Decidable.em (j = op)
    case inl hj => simp [hj, hx]
    case inr hj => simpa [hj] using this
  · rw [hr, he, if_pos rfl, (h.nodup hpr).mem_erase_iff, h.ops hpr]
    split <;> simp [*]
  · rw [he, if_pos rfl]
    exact (h.nodup hpr).erase op
  · refine h.mapped hpr fun hnil => hne ?_
    rw [he, if_pos rfl, hnil]
    rfl

theorem sgCancel {s₁ : LeafLogic} {o : Terminal} (h : ScatterInv v s) (hpr : Proper v s t o)
    (hs : s.sgCancelScatter t op = .ok (s₁, es, true)) :
    Keeps v s (s₁.setTerminal t (some { o with tasks := o.tasks.filter (·.1 ≠ op) })) ∧
      s₁.terminals = s.terminals := by
  simp only [sgCancelScatter, Except.bind_eq_ok, LeafLogic.terminal!, hpr.left] at hs
  obtain ⟨_, ho, info, hinfo, hs⟩ := hs
  cases ho
  obtain ⟨_, hi⟩ := leafTerminal!_ok hinfo
  split at hs
  case isTrue       => cases hs
  case isFalse hext =>
    simp only [Except.bind_eq_ok] at hs
    obtain ⟨_, _, hs⟩ := hs
    cases hs
    rw [hi] at hext ⊢
    have hop := (h.ops hpr op).mp (by simpa using hext)
    refine ⟨h.release hpr (x := some none) (Function.update_self ..)
      (fun u hu => Function.update_of_ne hu ..) (fun tm => ?_) hop (fun j => ?_) (by simp) rfl rfl, rfl⟩
    · simp only [setTerminal, setTerminalExt, Function.update_apply]
      split
      case isTrue htm => rw [htm]
      case isFalse    => rfl
    · simp only [setTerminal, setTerminalExt, ObjectRegister.get?_set]
      split
      case isTrue hj => simp [hj, hop]
      case isFalse   => rfl

theorem releaseScatterOperation_ok {o : Terminal} (ho : s.terminals t = some o)
    (hs : s.releaseScatterOperation t op = .ok s') :
    s' = s.setTerminalExt o.id { s.terminalExt o.id with
      scatterOperations := (s.terminalExt o.id).scatterOperations.erase op } := by
  simp only [releaseScatterOperation, Except.bind_eq_ok, LeafLogic.terminal!, ho] at hs
  obtain ⟨_, ho, tm, htm, _, _, hs⟩ := hs
  cases ho
  cases hs
  rw [(leafTerminal!_ok htm).right]

theorem onGather {flags : Nat} {data : List Byte} {goOn : Bool} {r} (h : ScatterInv v s)
    (hs : s.onGather op flags data goOn = .ok r) : Keeps v s r.1 := by
  simp only [LeafLogic.onGather] at hs
  split at hs
  case h_1 => cases hs
  case h_2 hget =>
    split at hs <;> cases hs
    case isFalse => exact h.keeps (.refl s)
    case isTrue  =>
      refine ⟨h.registered fun j u => ?_, rfl, rfl, fun _ _ => rfl, fun _ => rfl⟩
      rw [ObjectRegister.get?_erase]
      split
      case isTrue hj => simp [hj, hget]
      case isFalse   => rfl
  case h_3 t hget =>
    obtain ⟨o, hpr⟩ := h.owner hget
    obtain ⟨⟨s₁, es₁⟩, hs₁, hs⟩ := Except.bind_eq_ok.mp hs
    obtain ⟨o', ho', _, hs₁'⟩ := onGatheredMessageReceived_ok hs₁
    cases Option.some.inj (hpr.left.symm.trans ho')
    simp only at hs₁' hs
    subst hs₁'
    -- the operation is over unless the handler goes on and other answers are to come
    have hrel : ∀ {s'}, (s.setTerminal t (some { o with
          tasks := o.tasks.filter (·.1 ≠ op) })).releaseScatterOperation t op = .ok s' →
        ∀ (x : Option (Option Nat)), (∀ u, x ≠ some (some u)) → ∀ q,
        (∀ j, q.get? j = if j = op then x else s.scatterOperations.get? j) →
        Keeps v s { s' with scatterOperations := q } := by
      intro s' hs' x hx q hq
      have ho : (s.setTerminal t (some { o with
        tasks := o.tasks.filter (·.1 ≠ op) })).terminals t = _ := Function.update_self ..
      cases releaseScatterOperation_ok ho hs'
      refine h.release hpr ho (fun u hu => Function.update_of_ne hu ..) (fun tm => ?_) hget hq hx rfl
        rfl
      simp only [setTerminal, setTerminalExt, Function.update_apply]
      split
      case isTrue htm => rw [htm]
      case isFalse    => rfl
    cases goOn
    case false =>
      simp only [Bool.not_false, Bool.true_or, if_true, Bool.false_eq_true, if_false] at hs
      obtain ⟨s₂, hs₂, hs⟩ := Except.bind_eq_ok.mp hs
      obtain ⟨_, _, hs⟩ := Except.bind_eq_ok.mp hs
      have hreg : s₂.scatterOperations = s.scatterOperations := by
        cases releaseScatterOperation_ok (Function.update_self ..) hs₂
        rfl
      split at hs <;> cases hs
      case isTrue  =>
        refine hrel hs₂ none (by simp) _ fun j => ?_
        simp only [ObjectRegister.get?_erase, ObjectRegister.get?_set, hreg]
        split <;> simp [*]
      case isFalse =>
        refine hrel hs₂ (some none) (by simp) _ fun j => ?_
        simp only [ObjectRegister.get?_set, hreg]
        split <;> simp [*]
    case true =>
      simp only [Bool.not_true, Bool.false_or, if_true] at hs
      split at hs
      case isTrue =>
        obtain ⟨s₂, hs₂, hs⟩ := Except.bind_eq_ok.mp hs
        have hreg : s₂.scatterOperations = s.scatterOperations := by
          cases releaseScatterOperation_ok (Function.update_self ..) hs₂
          rfl
        cases hs
        refine hrel hs₂ none (by simp) _ fun j => ?_
        simp only [ObjectRegister.get?_erase, hreg]
      case isFalse =>
        cases hs
        exact h.keeps (SameScatter.reply (r := o.reply) hpr.left)

theorem sgScatter_none {data : List Byte} {s₁ : LeafLogic}
    (hs : s.sgScatter t data = .ok (s₁, es, none)) : s₁ = s := by
  simp only [LeafLogic.sgScatter, Except.bind_eq_ok] at hs
  obtain ⟨_, _, _, _, hs⟩ := hs
  split at hs
  case isTrue =>
    cases hs
    rfl
  case isFalse =>
    simp only [Except.bind_eq_ok] at hs
    obtain ⟨_, _, _, _, hs⟩ := hs
    cases hs

theorem sgCancel_false {s₁ : LeafLogic} (hs : s.sgCancelScatter t op = .ok (s₁, es, false)) :
    s₁ = s := by
  simp only [sgCancelScatter, Except.bind_eq_ok] at hs
  obtain ⟨_, _, _, _, hs⟩ := hs
  split at hs
  case isTrue =>
    cases hs
    rfl
  case isFalse =>
    simp only [Except.bind_eq_ok] at hs
    obtain ⟨_, _, hs⟩ := hs
    cases hs

theorem call {c : Call} {r} (h : ScatterInv v s) (hsv : Subscribed v s)
    (hpr : ∀ {t o}, s.terminals t = some o → v.object o.id = some t) (hs : s.call c = .ok r) :
    Keeps v s r.1 := by
  cases c <;> simp only [LeafLogic.call] at hs
  case asyncScatterGather t data buffer =>
    obtain ⟨⟨s₁, es, id⟩, hs₁, hs⟩ := Except.bind_eq_ok.mp hs
    cases id
    case none =>
      cases hs
      cases sgScatter_none hs₁
      exact h.keeps (.refl s)
    case some id =>
      obtain ⟨o, ho, hs⟩ := Except.bind_eq_ok.mp hs
      obtain ⟨_, _, hs⟩ := Except.bind_eq_ok.mp hs
      cases hs
      have hot := terminal!_ok ho
      obtain ⟨o', ho', _⟩ := Except.bind_eq_ok.mp hs₁
      obtain ⟨hk, ht, _⟩ := h.sgScatter buffer hsv ⟨terminal!_ok ho', hpr (terminal!_ok ho')⟩ hs₁
      rw [ht, terminal!_ok ho'] at hot
      cases hot
      exact hk
  case cancelScatterGather t op =>
    obtain ⟨⟨s₁, es, isCanceled⟩, hs₁, hs⟩ := Except.bind_eq_ok.mp hs
    cases isCanceled
    case false =>
      cases hs
      cases sgCancel_false hs₁
      exact h.keeps (.refl s)
    case true =>
      obtain ⟨o, ho, hs⟩ := Except.bind_eq_ok.mp hs
      obtain ⟨_, _, hs⟩ := Except.bind_eq_ok.mp hs
      cases hs
      have hot := terminal!_ok ho
      obtain ⟨o', ho', _⟩ := Except.bind_eq_ok.mp hs₁
      obtain ⟨hk, ht⟩ := h.sgCancel ⟨terminal!_ok ho', hpr (terminal!_ok ho')⟩ hs₁
      rw [ht, terminal!_ok ho'] at hot
      cases hot
      exact hk
  case asyncReceiveScatteredMessage t buffer =>
    obtain ⟨o, ho, hs⟩ := Except.bind_eq_ok.mp hs
    split at hs <;> cases hs
    case isTrue  => exact h.keeps (.refl s)
    case isFalse => exact h.keeps (.reply (terminal!_ok ho))
  case cancelReceiveScatteredMessage t =>
    obtain ⟨o, ho, hs⟩ := Except.bind_eq_ok.mp hs
    split at hs <;> cases hs
    case isTrue  => exact h.keeps (.reply (terminal!_ok ho))
    case isFalse => exact h.keeps (.refl s)
  case respondToScatteredMessage => exact h.keeps (sgRespond_same hs)
  case ignoreScatteredMessage    => exact h.keeps (sgRespond_same hs)

end ScatterInv

-- All terminals of the library user exist for the leaf.
structure Settled (v : LeafView) (s : LeafLogic) : Prop where
  inv        : ScatterInv v s
  subscribed : Subscribed v s
  objects    : ∀ {t o}, s.terminals t = some o → v.object o.id = some t

namespace Settled

variable {v : LeafView}

theorem keeps (h : Settled v s) (hk : Keeps v s s') : Settled v s' where
  inv        := hk.inv
  subscribed := fun hv hs => h.subscribed hv (hk.subscribed ▸ hs)
  objects    := by
    intro t o ho
    have := hk.objects t
    rw [ho, Option.map_some, eq_comm, Option.map_eq_some_iff] at this
    obtain ⟨o', ho', hi⟩ := this
    exact hi ▸ h.objects ho'

theorem call {c : Call} {r} (h : Settled v s) (hs : s.call c = .ok r) : Keeps v s r.1 :=
  h.inv.call h.subscribed h.objects hs

theorem forEach {α : Type} {f : LeafLogic → α → Result} {as : List α} {r} (h : Settled v s)
    (hf : ∀ {s a p}, Settled v s → f s a = .ok p → Keeps v s p.1)
    (hs : LeafLogic.forEach f s as = .ok r) : Keeps v s r.1 := by
  induction as generalizing s r
  case nil =>
    cases hs
    exact h.inv.keeps (.refl s)
  case cons a as ih =>
    obtain ⟨p, q, hp, hq, he⟩ := forEach_cons.mp hs
    cases he
    exact (hf h hp).trans (ih (h.keeps (hf h hp)) hq : Keeps v p.1 q.1)

theorem onScatteredMessageReceived {data : List Byte} {calls : List Call} {r} (h : Settled v s)
    (hs : s.onScatteredMessageReceived t op data calls = .ok r) : Keeps v s r.1 := by
  obtain ⟨o, ho, hs⟩ := Except.bind_eq_ok.mp hs
  split at hs
  case h_1 => exact h.inv.keeps (sgRespond_same hs)
  case h_2 =>
    obtain ⟨q, hq, hs⟩ := Except.bind_eq_ok.mp hs
    cases hs
    have hk := h.inv.keeps (SameScatter.reply (r := none) (terminal!_ok ho))
    exact hk.trans ((h.keeps hk).forEach (fun h hs => h.call hs) hq : Keeps v _ q.1)

theorem scatterTo {bd : Id} {data : List Byte} {calls : Binding → List Call} {b : Binding} {r}
    (h : Settled v s) (hs : scatterTo op bd data calls s b = .ok r) : Keeps v s r.1 := by
  obtain ⟨tm, _, hs⟩ := Except.bind_eq_ok.mp hs
  split at hs
  case h_1 => cases hs
  case h_2 t _ =>
    obtain ⟨o, _, hs⟩ := Except.bind_eq_ok.mp hs
    have hk : Keeps v s (s.storeGatherOperation op bd tm.id t o) :=
      h.inv.keeps storeGatherOperation_same
    exact hk.trans ((h.keeps hk).onScatteredMessageReceived hs)

theorem onScatter {bd : Id} {data : List Byte} {calls : Binding → List Call} {r}
    (h : Settled v s) (hs : s.onScatter bd op data calls = .ok r) : Keeps v s r.1 := by
  simp only [LeafLogic.onScatter, Except.bind_eq_ok] at hs
  obtain ⟨_, _, _, _, _, _, hs⟩ := hs
  split at hs
  case isTrue =>
    cases hs
    exact h.inv.keeps (.refl s)
  case isFalse => exact h.forEach (fun h hs => h.scatterTo hs) hs

end Settled

-- The virtual functions.

-- The handlers of all operations of a terminal are called when its mapping is lost.
theorem finishAll {o : Terminal} {flags : Nat} {ops : List Id} {r} (ho : s.terminals t = some o)
    (hs : forEach (finishScatterOperation (some t) flags) s ops = .ok r) :
    ∃ T R, r.1 = { s with terminals := T, scatterOperations := R } ∧
      T t = some { o with tasks := o.tasks.filter (·.1 ∉ ops) } ∧ (∀ u, u ≠ t → T u = s.terminals u) ∧
      ∀ j, R.get? j = if j ∈ ops then none else s.scatterOperations.get? j := by
  induction ops generalizing s o r
  case nil =>
    cases hs
    refine ⟨s.terminals, s.scatterOperations, rfl, ?_, fun _ _ => rfl, fun _ => by simp⟩
    simp [ho]
  case cons op ops ih =>
    obtain ⟨p, q, hp, hq, he⟩ := forEach_cons.mp hs
    cases he
    obtain ⟨⟨s₁, es₁⟩, hs₁, hp⟩ := Except.bind_eq_ok.mp hp
    obtain ⟨_, _, hp⟩ := Except.bind_eq_ok.mp hp
    cases hp
    obtain ⟨o', ho', _, hs₁'⟩ := onGatheredMessageReceived_ok hs₁
    cases Option.some.inj (ho.symm.trans ho')
    have hf : finished (flags ||| gatherFinished) = true := by
      simp [finished, gatherFinished]
    simp only [hf, Bool.or_true, if_true] at hs₁'
    subst hs₁'
    obtain ⟨T, R, hr, hT, hu, hR⟩ := ih (o := { o with tasks := o.tasks.filter (·.1 ≠ op) })
      (Function.update_self ..) hq
    refine ⟨T, R, hr, ?_, fun u hut => ?_, fun j => ?_⟩
    · rw [hT, List.filter_filter]
      simp only [List.mem_cons, not_or, Bool.decide_and, Bool.and_comm]
    · rw [hu u hut]
      exact Function.update_of_ne hut ..
    · simp only [hR, eraseScatterOperation, ObjectRegister.get?_erase, List.mem_cons]
      cases Decidable.em (j = op) <;> cases Decidable.em (j ∈ ops) <;> simp [*, setTerminal]

theorem abandonAll {ops : List Id} {r} (hs : forEach abandonScatterOperation s ops = .ok r) :
    ∃ R, r.1 = { s with scatterOperations := R } ∧
      ∀ j, R.get? j = if j ∈ ops then some none else s.scatterOperations.get? j := by
  induction ops generalizing s r
  case nil =>
    cases hs
    exact ⟨s.scatterOperations, rfl, fun _ => by simp⟩
  case cons op ops ih =>
    obtain ⟨p, q, hp, hq, he⟩ := forEach_cons.mp hs
    cases he
    obtain ⟨_, ha, hp⟩ := Except.bind_eq_ok.mp hp
    cases hp
    obtain ⟨x, hx⟩ := Option.isSome_iff_exists.mp (assert_ok ha)
    obtain ⟨R, hr, hR⟩ := ih hq
    refine ⟨R, hr, fun j => ?_⟩
    simp only [hR, ObjectRegister.get?_set, List.mem_cons]
    cases Decidable.em (j = op) <;> cases Decidable.em (j ∈ ops) <;> simp [*]

theorem subscribed_of_mappingChanged {l : Leaf} {f : Id → Bool} {b : Bool} {tm : Id} {r}
    (hs : SubscribableLeaf.onTerminalMappingChanged l f b tm = .ok r) :
    (∀ i, i ≠ tm → r.1 i = f i) ∧ (b = false → r.1 tm = false) := by
  simp only [SubscribableLeaf.onTerminalMappingChanged] at hs
  split at hs
  case isTrue hb =>
    split at hs <;> cases hs
    case isTrue     => exact ⟨fun i hi => Function.update_of_ne hi .., fun _ => Function.update_self ..⟩
    case isFalse hf => exact ⟨fun _ _ => rfl, fun _ => Bool.not_eq_true _ ▸ hf⟩
  case isFalse hb =>
    split at hs <;> cases hs
    all_goals exact ⟨fun i hi => Function.update_of_ne hi .., fun hb' => absurd hb' (by simpa using hb)⟩

-- What a call of a virtual function does, `w` being what inheriting classes see after it.
structure Passes (v w : LeafView) (s s' : LeafLogic) : Prop where
  inv        : ScatterInv w s'
  subscribed : Subscribed w s'
  objects    : ∀ t, (s'.terminals t).map (·.id) = (s.terminals t).map (·.id)
  ext        : ∀ tm, v.object tm = none →
    (s'.terminalExt tm).scatterOperations = (s.terminalExt tm).scatterOperations
  empty      : ∀ tm, (s.terminalExt tm).scatterOperations = [] →
    (s'.terminalExt tm).scatterOperations = []
  null       : ∀ op, s'.scatterOperations.get? op = some none ↔
    s.scatterOperations.get? op = some none

theorem SameScatter.passes {v w : LeafView} (hs : SameScatter s s') (h : ScatterInv v s)
    (hsv : Subscribed v s) (ho : ∀ tm, w.object tm = v.object tm)
    (hm : ∀ tm, v.object tm ≠ none → w.mapped tm = v.mapped tm) : Passes v w s s' where
  inv        := (h.congr hs).view ho hm
  subscribed := by
    intro tm hv hsub
    rw [ho] at hv
    exact (hm tm hv).trans (hsv hv (hs.subscribed ▸ hsub))
  objects    := hs.objects
  ext        := fun tm _ => hs.ext tm
  empty      := fun tm he => (hs.ext tm).trans he
  null       := fun op => by rw [hs.operations]

theorem dropGatherOperations_same {tm : Element TerminalInfo} {r}
    (hs : s.dropGatherOperations tm = .ok r) : SameScatter s r.1 := by
  simp only [dropGatherOperations] at hs
  split at hs
  case isTrue =>
    obtain ⟨p, hp, hs⟩ := Except.bind_eq_ok.mp hs
    cases hs
    exact (removeAllGatherOperations_same hp).trans .terminalExt
  case isFalse =>
    cases hs
    exact .refl s

-- All operations of the terminal are gone.
theorem finishScatterOperations_keeps {v : LeafView} {b : Bool} {e : Element TerminalInfo} {r}
    (h : ScatterInv v s) (ht : v.object e.id = some t) (hte : e.data.terminal = some t)
    (hs : s.finishScatterOperations b e = .ok r) :
    Keeps v s r.1 ∧ (r.1.terminalExt e.id).scatterOperations = [] ∧
      (∀ i, i ≠ e.id → r.1.terminalExt i = s.terminalExt i) ∧
      ∀ op, r.1.scatterOperations.get? op = some none ↔ s.scatterOperations.get? op = some none := by
  simp only [finishScatterOperations] at hs
  split at hs
  case isFalse hn =>
    cases hs
    exact ⟨h.keeps (.refl s), by simpa using hn, fun _ _ => rfl, fun _ => Iff.rfl⟩
  case isTrue hn =>
    obtain ⟨_, _, hs⟩ := Except.bind_eq_ok.mp hs
    obtain ⟨p, hp, hs⟩ := Except.bind_eq_ok.mp hs
    cases hs
    rw [hte] at hp
    cases ho : s.terminals t
    case none =>
      -- the terminal must exist as its first operation is finished
      obtain ⟨op, ops, hops⟩ := List.exists_cons_of_ne_nil hn
      rw [hops] at hp
      obtain ⟨p₁, _, hp₁, _⟩ := forEach_cons.mp hp
      obtain ⟨_, hp₁, _⟩ := Except.bind_eq_ok.mp hp₁
      obtain ⟨o, ho', _⟩ := onGatheredMessageReceived_ok hp₁
      simp [ho] at ho'
    case some o =>
      have hi := h.same ho ht
      have hpr : Proper v s t o := ⟨ho, hi ▸ ht⟩
      obtain ⟨T, R, hr, hT, hu, hR⟩ := finishAll ho hp
      simp only [hr]
      have hext : ∀ i, (Function.update s.terminalExt e.id
          { s.terminalExt e.id with scatterOperations := [] } i).scatterOperations =
          if i = e.id then [] else (s.terminalExt i).scatterOperations := by
        intro i
        rw [Function.update_apply]
        split <;> rfl
      have hops := h.ops hpr
      rw [hi] at hops
      have hget : ∀ op, R.get? op ≠ some (some t) := by
        intro op
        rw [hR]
        split
        case isTrue     => simp
        case isFalse h' => exact fun hop => h' ((hops op).mpr hop)
      let o' := { o with tasks := o.tasks.filter (·.1 ∉ (s.terminalExt e.id).scatterOperations) }
      have htasks : ∀ op, op ∉ o'.tasks.map Prod.fst := by
        intro op hop
        obtain ⟨task, htask, hop⟩ := List.mem_map.mp hop
        obtain ⟨htask, hno⟩ := List.mem_filter.mp htask
        have := (h.tasks hpr task.1).mp (List.mem_map_of_mem htask)
        exact of_decide_eq_true hno ((hops _).mpr this)
      have hnil := (hext e.id).trans (if_pos rfl)
      refine ⟨h.change hpr hT rfl hu (fun i hne => (hext i).trans (if_neg (hi ▸ hne)))
        (fun op u hne => ?_) (fun op => iff_of_false (htasks op) (hget op))
        (fun op => iff_of_false ?_ (hget op)) ?_ (fun hne => ?_) rfl rfl, hnil,
        fun i hne => Function.update_of_ne hne .., fun op => ?_⟩
      · simp only [setTerminalExt, hR]
        split
        case isFalse    => rfl
        case isTrue hop => simp [(hops op).mp hop, Ne.symm hne]
      · simp [setTerminalExt, hi]
      · simp [setTerminalExt, hi]
      · simp [setTerminalExt, hi] at hne
      · simp only [setTerminalExt, hR]
        split
        case isTrue hop => simp [(hops op).mp hop]
        case isFalse    => rfl

theorem onTerminalMappingChanged_passes {v : LeafView} {b : Bool} {tm : Id} {r}
    (h : ScatterInv v s) (hsv : Subscribed v s) (hl : s.leaf.view v.mapped = v)
    (ht : v.terminal tm = some (some t))
    (hs : s.onTerminalMappingChanged b tm = .ok r) : Passes v (v.setMapped tm b) s r.1 := by
  obtain ⟨base, hbase, hs₁⟩ := Except.bind_eq_ok.mp hs
  obtain ⟨hsub, hsubf⟩ := subscribed_of_mappingChanged hbase
  obtain ⟨e, he, hs₂⟩ := Except.bind_eq_ok.mp hs₁
  obtain ⟨r₁, hr₁, hs₃⟩ := Except.bind_eq_ok.mp hs₂
  obtain ⟨r₂, hr₂, hs₄⟩ := Except.bind_eq_ok.mp hs₃
  cases hs₄
  obtain ⟨hg, hi⟩ := leafTerminal!_ok he
  have hte : e.data.terminal = some t := by
    rw [← hl] at ht
    simpa [Leaf.view, hg] using ht
  subst hi
  have hob : v.object e.id = some t := by simp [LeafView.object, ht]
  have hinv : ScatterInv v { s with subscribed := base.1 } :=
    ⟨h.same, h.tasks, h.ops, h.nodup, h.owner, h.mapped⟩
  obtain ⟨hk, hnil, hne, hnull⟩ := finishScatterOperations_keeps hinv hob hte hr₁
  have hsame := dropGatherOperations_same hr₂
  have hinv' := hk.inv.congr hsame
  have hmap : ∀ i, i ≠ e.id → (v.setMapped e.id b).mapped i = v.mapped i :=
    fun i hi => Function.update_of_ne hi ..
  refine ⟨⟨hinv'.same, hinv'.tasks, hinv'.ops, hinv'.nodup, hinv'.owner, fun {u o} hpr hext => ?_⟩,
    fun {i} hv hsb => ?_, fun u => (hsame.objects u).trans (hk.objects u),
    fun i hi => (hsame.ext i).trans (hk.ext i hi), fun i hi => ?_, fun op => ?_⟩
  · cases Decidable.em (o.id = e.id)
    case inl hoe => exact absurd ((hsame.ext _).trans (hoe ▸ hnil)) hext
    case inr hoe => exact (hmap _ hoe).trans (hinv'.mapped hpr hext)
  · rw [hsame.subscribed, hk.subscribed] at hsb
    cases Decidable.em (i = e.id)
    case inl hie =>
      subst hie
      cases b
      case false => simp [hsubf rfl] at hsb
      case true  => exact Function.update_self ..
    case inr hie => exact (hmap _ hie).trans (hsv hv (hsub i hie ▸ hsb))
  · rw [hsame.ext]
    cases Decidable.em (i = e.id)
    case inl hie => exact hie ▸ hnil
    case inr hie => rw [hne i hie, hi]
  · rw [hsame.operations]
    exact hnull op

-- Nobody waits for the operations of a terminal that has been destroyed.
theorem onTerminalRemoved_inv {v : LeafView} {o : Terminal} {r} (h : ScatterInv v s)
    (hsv : Subscribed v s) (hd : ∀ i j t, v.object i = some t → v.object j = some t → i = j)
    (hpr : Proper v s t o) (hs : s.onTerminalRemoved o.id = .ok r) :
    ScatterInv (v.setTerminal o.id (some none)) r.1 ∧
      Subscribed (v.setTerminal o.id (some none)) r.1 ∧
      (∀ u, (r.1.terminals u).map (·.id) = (s.terminals u).map (·.id)) ∧
      (∀ i, (r.1.terminalExt i).scatterOperations = (s.terminalExt i).scatterOperations) ∧
      ∀ op, r.1.scatterOperations.get? op = if op ∈ (s.terminalExt o.id).scatterOperations then
        some none else s.scatterOperations.get? op := by
  obtain ⟨e, he, hs₁⟩ := Except.bind_eq_ok.mp hs
  obtain ⟨r₁, hr₁, hs₂⟩ := Except.bind_eq_ok.mp hs₁
  obtain ⟨r₂, hr₂, hs₃⟩ := Except.bind_eq_ok.mp hs₂
  cases hs₃
  obtain ⟨_, hi⟩ := leafTerminal!_ok he
  rw [hi] at hr₁
  obtain ⟨R, hr, hR⟩ := abandonAll hr₁
  have hsame := removeAllGatherOperations_same hr₂
  have hob : ∀ i, (v.setTerminal o.id (some none)).object i =
      if i = o.id then none else v.object i := fun i => object_setTerminal
  have hvo : ∀ {i u}, (v.setTerminal o.id (some none)).object i = some u →
      v.object i = some u ∧ u ≠ t := by
    intro i u hv
    rw [hob] at hv
    split at hv
    case isTrue      => cases hv
    case isFalse hne => exact ⟨hv, fun hu => hne (hd _ _ _ hv (hu ▸ hpr.right))⟩
  have hget : ∀ {u}, u ≠ t → ∀ op, R.get? op = some (some u) ↔
      s.scatterOperations.get? op = some (some u) := by
    intro u hu op
    rw [hR]
    split
    case isTrue hop => simp [(h.ops hpr op).mp hop, Ne.symm hu]
    case isFalse    => rfl
  have hno : ∀ op, R.get? op ≠ some (some t) := by
    intro op hop
    rw [hR] at hop
    split at hop
    case isTrue      => cases hop
    case isFalse hne => exact hne ((h.ops hpr op).mpr hop)
  have hinv : ScatterInv (v.setTerminal o.id (some none)) r₁.1 := by
    rw [hr]
    constructor
    case same   => exact fun hu hv => h.same hu (hvo hv).left
    case tasks  =>
      intro u c hu op
      obtain ⟨hv, hut⟩ := hvo hu.right
      rw [hget hut]
      exact h.tasks ⟨hu.left, hv⟩ op
    case ops    =>
      intro u c hu op
      obtain ⟨hv, hut⟩ := hvo hu.right
      rw [hget hut]
      exact h.ops ⟨hu.left, hv⟩ op
    case nodup  => exact fun hu => h.nodup ⟨hu.left, (hvo hu.right).left⟩
    case owner  =>
      intro u op hop
      have hut : u ≠ t := fun hu => hno op (hu ▸ hop)
      obtain ⟨c, hc, hv⟩ := h.owner ((hget hut op).mp hop)
      refine ⟨c, hc, ?_⟩
      rw [hob, if_neg]
      · exact hv
      · intro hci
        rw [hci, hpr.right] at hv
        exact hut (Option.some.inj hv).symm
    case mapped => exact fun hu hne => h.mapped ⟨hu.left, (hvo hu.right).left⟩ hne
  refine ⟨hinv.congr hsame, fun {i} hv hsb => ?_, fun u => ?_, fun i => ?_, fun op => ?_⟩
  · obtain ⟨u, hu⟩ := Option.ne_none_iff_exists'.mp hv
    rw [hsame.subscribed, hr] at hsb
    exact hsv (by simp [(hvo hu).left]) hsb
  · rw [hsame.objects, hr]
  · rw [hsame.ext, hr]
  · simp only [hsame.operations, hr, hR]

end Yogi.ScatterGather.LeafLogic
