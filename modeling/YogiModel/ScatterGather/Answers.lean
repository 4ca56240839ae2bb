import YogiModel.ScatterGather.Agreement
import YogiModel.ScatterGather.Pending

namespace Yogi.ScatterGather.LeafLogic

open Pending
open Wire (Byte)

variable {s s' : LeafLogic} {P Q : Multiset Pending} {L : List Pending} {p : Pending} {t : Nat}
  {op tm bd i : Id} {A : Event → Prop}

-- The Gather messages among the things a leaf does.
def gathers (es : List Effect) : List (Id × Nat) :=
  es.filterMap fun | .sendGather op flags _ => some (op, flags) | _ => none

theorem gathers_append {es es' : List Effect} : gathers (es ++ es') = gathers es ++ gathers es' :=
  List.filterMap_append ..

theorem exists_terminal! {l : Leaf} (h : l.objectOf i = some t) :
    ∃ e, l.terminal! i = .ok e ∧ e.id = i ∧ e.data.terminal = some t := by
  obtain ⟨e, he, ht⟩ := Option.bind_eq_some_iff.mp h
  exact ⟨e, by rw [Leaf.terminal!, he], Register.get?_id he, ht⟩

theorem exists_binding! {l : Leaf} (h : (l.bindings.get? i).isSome = true) :
    ∃ e, l.binding! i = .ok e ∧ e.id = i ∧ l.bindings.get? i = some e := by
  obtain ⟨e, he⟩ := Option.isSome_iff_exists.mp h
  exact ⟨e, by rw [Leaf.binding!, he], Register.get?_id he, he⟩

theorem assert_true : assert true = .ok () :=
  rfl

theorem assert_of {b : Bool} (h : b = true) : assert b = .ok () := by
  rw [h]
  rfl

-- The functions that take one pending answer from two of the tables.

theorem takeGatherOperation_ok (hl : s.LeafTable (p ::ₘ Q)) (ht : s.TerminalTable (p ::ₘ Q))
    (hs : Single (p ::ₘ Q)) (ho : s.leaf.objectOf p.terminal = some t) :
    ∃ s', s.takeGatherOperation (p.operation, p.terminal) = .ok (s', []) ∧ s'.LeafTable Q ∧
      s'.TerminalTable Q ∧ s'.bindingExt = s.bindingExt ∧ s'.terminals = s.terminals := by
  obtain ⟨e, he, hi, het⟩ := exists_terminal! ho
  obtain ⟨g, hg, hgt⟩ := hl.erase ho
  have hm : ((s.terminalExt p.terminal).gatherOperations.map Prod.fst).contains p.operation = true := by
    rw [List.contains_iff_mem]
    exact ht.mem.mpr ⟨p, Multiset.mem_cons_self .., rfl, rfl⟩
  let s₁ := s.setTerminalExt p.terminal { s.terminalExt p.terminal with
    gatherOperations := (s.terminalExt p.terminal).gatherOperations.filter (·.1 ≠ p.operation) }
  have hr : s.takeGatherOperation (p.operation, p.terminal) =
      .ok ({ s₁ with gatherOperations := g }, []) := by
    simp only [takeGatherOperation, he, Except.ok_bind, hi, assert_of hm, het]
    rw [show (s.setTerminalExt _ _).gatherOperations = s.gatherOperations from rfl, hg]
    rfl
  exact ⟨_, hr, hgt, ht.filter hs, rfl, rfl⟩

theorem removeGatherOperation_ok (hl : s.LeafTable (p ::ₘ Q)) (hg : s.GroupTable (p ::ₘ Q))
    (hk : s.Known p t) :
    ∃ s', s.removeGatherOperation t (p.operation, p.group) = .ok (s', []) ∧ s'.LeafTable Q ∧
      s'.GroupTable Q ∧ s'.terminalExt = s.terminalExt ∧ s'.terminals = s.terminals := by
  obtain ⟨e, he, hi, _⟩ := exists_binding! hk.group
  obtain ⟨g, hgl, hgt⟩ := hl.erase hk.terminal
  obtain ⟨hge, hgg⟩ := hg.erase
  obtain ⟨o, ho, hoi⟩ := Option.map_eq_some_iff.mp hk.object
  have hr : s.removeGatherOperation t (p.operation, p.group) =
      .ok ({ s with gatherOperations := g }.setBindingExt p.group
        ((s.bindingExt p.group).erase (p.operation, p.terminal)), []) := by
    simp only [removeGatherOperation, he, Except.ok_bind, hgl, terminal!, ho, hi, hoi, hge]
    rfl
  exact ⟨_, hr, hgt, hgg, rfl, rfl⟩

-- The loops over the entries of a table, and what is left of the tables.

theorem forEach_ok {α : Type} {f : LeafLogic → α → Result} {a : α} {as : List α} {q r}
    (ha : f s a = .ok q) (h : forEach f q.1 as = .ok r) :
    forEach f s (a :: as) = .ok (r.1, q.2 ++ r.2) :=
  forEach_cons.mpr ⟨q, r, ha, h, rfl⟩

theorem forEach_takeGatherOperation (hl : s.LeafTable (L + Q)) (ht : s.TerminalTable (L + Q))
    (hs : Single (L + Q)) (ho : ∀ p ∈ L, ∃ t, s.leaf.objectOf p.terminal = some t) :
    ∃ s', forEach takeGatherOperation s (L.map fun p => (p.operation, p.terminal)) = .ok (s', []) ∧
      s'.LeafTable Q ∧ s'.TerminalTable Q ∧ s'.bindingExt = s.bindingExt ∧
      s'.terminals = s.terminals := by
  induction L generalizing s
  case nil =>
    simp only [Multiset.coe_nil, Multiset.zero_add] at hl ht
    exact ⟨s, rfl, hl, ht, rfl, rfl⟩
  case cons p L ih =>
    rw [← Multiset.cons_coe, Multiset.cons_add] at hl ht hs
    obtain ⟨t, hot⟩ := ho p List.mem_cons_self
    obtain ⟨s₁, hr₁, hl₁, ht₁, hb₁, hts₁⟩ := takeGatherOperation_ok hl ht hs hot
    have hsame := takeGatherOperation_same hr₁
    obtain ⟨s₂, hr₂, hl₂, ht₂, hb₂, hts₂⟩ := ih hl₁ ht₁ hs.of_cons.left fun q hq =>
      hsame.leaf ▸ ho q (List.mem_cons_of_mem _ hq)
    exact ⟨s₂, forEach_ok hr₁ hr₂, hl₂, ht₂, hb₂.trans hb₁, hts₂.trans hts₁⟩

theorem Known.congr (h : s.Known p t) (hl : s'.leaf = s.leaf) (ht : s'.terminals = s.terminals) :
    s'.Known p t :=
  ⟨hl ▸ h.terminal, ht ▸ h.object, hl ▸ h.group⟩

theorem forEach_removeGatherOperation (hl : s.LeafTable (L + Q)) (hg : s.GroupTable (L + Q))
    (hk : ∀ p ∈ L, s.Known p t) :
    ∃ s', forEach (removeGatherOperation · t) s (L.map fun p => (p.operation, p.group)) =
      .ok (s', []) ∧ s'.LeafTable Q ∧ s'.GroupTable Q ∧ s'.terminalExt = s.terminalExt ∧
      s'.terminals = s.terminals := by
  induction L generalizing s
  case nil =>
    simp only [Multiset.coe_nil, Multiset.zero_add] at hl hg
    exact ⟨s, rfl, hl, hg, rfl, rfl⟩
  case cons p L ih =>
    rw [← Multiset.cons_coe, Multiset.cons_add] at hl hg
    obtain ⟨s₁, hr₁, hl₁, hg₁, he₁, hts₁⟩ := removeGatherOperation_ok hl hg (hk p List.mem_cons_self)
    have hsame := removeGatherOperation_same hr₁
    obtain ⟨s₂, hr₂, hl₂, hg₂, he₂, hts₂⟩ := ih hl₁ hg₁ fun q hq =>
      (hk q (List.mem_cons_of_mem _ hq)).congr hsame.leaf hts₁
    exact ⟨s₂, forEach_ok (f := (removeGatherOperation · t)) hr₁ hr₂, hl₂, hg₂, he₂.trans he₁,
      hts₂.trans hts₁⟩

-- The pending answers that a list of a table stands for.

theorem GroupTable.split (h : s.GroupTable P) (bd : Id) :
    ∃ L : List Pending, s.bindingExt bd = L.map (fun p => (p.operation, p.terminal)) ∧
      P = L + P.filter (·.group ≠ bd) ∧ ∀ p ∈ L, p.group = bd :=
  Indexes.split (m := fun bd e => ⟨e.1, e.2, bd⟩) h (by simp) (by simp) (by simp) bd

theorem TerminalTable.split (h : s.TerminalTable P) (tm : Id) :
    ∃ L : List Pending, (s.terminalExt tm).gatherOperations = L.map (fun p => (p.operation, p.group)) ∧
      P = L + P.filter (·.terminal ≠ tm) ∧ ∀ p ∈ L, p.terminal = tm :=
  Indexes.split (m := fun tm e => ⟨e.1, tm, e.2⟩) h (by simp) (by simp) (by simp) tm

-- The virtual functions.

theorem Tables.known_of (h : s.Tables P) (hq : Q ≤ P) (hl : s'.leaf = s.leaf)
    (ht : s'.terminals = s.terminals) : ∀ p ∈ Q, ∃ t, s'.Known p t := by
  intro p hp
  obtain ⟨t, hk⟩ := h.known p (Multiset.mem_of_le hq hp)
  exact ⟨t, hk.congr hl ht⟩

theorem onBindingGroupMappingChanged_ok {b : Bool} (h : s.Tables P)
    (hb : (s.leaf.bindings.get? bd).isSome = true) (hn : (∃ p ∈ P, p.group = bd) → b = false) :
    ∃ s', s.onBindingGroupMappingChanged b bd = .ok (s', []) ∧
      s'.Tables (P.filter (·.group ≠ bd)) := by
  obtain ⟨e, he, hi, _⟩ := exists_binding! hb
  have hle : P.filter (·.group ≠ bd) ≤ P := Multiset.filter_le ..
  cases Decidable.em (s.bindingExt bd = [])
  case inl hnil =>
    have hP : P.filter (·.group ≠ bd) = P := Multiset.filter_eq_self.mpr (Indexes.eq_nil h.groups |>.mp hnil)
    refine ⟨s, ?_, by rwa [hP]⟩
    simp only [onBindingGroupMappingChanged, he, Except.ok_bind, hi, hnil]
    rfl
  case inr hne =>
    obtain ⟨L, hL, hP, hLg⟩ := h.groups.split bd
    have hex : ∃ p ∈ P, p.group = bd := by
      simpa using mt (Indexes.eq_nil h.groups).mpr hne
    obtain ⟨s₁, hr₁, hl₁, ht₁, hb₁, hts₁⟩ := forEach_takeGatherOperation (hP ▸ h.leaf)
      (hP ▸ h.terminals) (hP ▸ h.single) fun p hp => by
        obtain ⟨t, hk⟩ := h.known p (by rw [hP]; exact Multiset.mem_add.mpr (.inl hp))
        exact ⟨t, hk.terminal⟩
    have hsame := SameScatter.forEach takeGatherOperation_same hr₁
    refine ⟨s₁.setBindingExt bd [], ?_, hl₁, ?_, ht₁, h.single.mono hle,
      h.known_of hle hsame.leaf hts₁⟩
    · have ha : (!s.leaf.connection.isSome || !b) = true := by simp [hn hex]
      simp only [onBindingGroupMappingChanged, he, Except.ok_bind, hi, ne_eq, hne, not_false_eq_true,
        if_true, assert_of ha]
      rw [hL, hr₁]
      rfl
    · show Indexes _ _ (Function.update s₁.bindingExt bd []) _
      rw [hb₁]
      exact Indexes.clear h.groups

theorem dropGatherOperations_ok {e : Element TerminalInfo} (h : s.Tables P)
    (ht : e.data.terminal = some t) (hk : ∀ p ∈ P, p.terminal = e.id → s.Known p t) :
    ∃ s', s.dropGatherOperations e = .ok (s', []) ∧ s'.Tables (P.filter (·.terminal ≠ e.id)) := by
  have hle : P.filter (·.terminal ≠ e.id) ≤ P := Multiset.filter_le ..
  cases Decidable.em ((s.terminalExt e.id).gatherOperations = [])
  case inl hnil =>
    have hP : P.filter (·.terminal ≠ e.id) = P :=
      Multiset.filter_eq_self.mpr (Indexes.eq_nil h.terminals |>.mp hnil)
    refine ⟨s, ?_, by rwa [hP]⟩
    simp only [dropGatherOperations, hnil]
    rfl
  case inr hne =>
    obtain ⟨L, hL, hP, hLt⟩ := h.terminals.split e.id
    obtain ⟨s₁, hr₁, hl₁, hg₁, he₁, hts₁⟩ := forEach_removeGatherOperation (t := t) (hP ▸ h.leaf)
      (hP ▸ h.groups) fun p hp =>
        hk p (by rw [hP]; exact Multiset.mem_add.mpr (.inl hp)) (hLt p hp)
    have hsame := SameScatter.forEach removeGatherOperation_same hr₁
    refine ⟨s₁.setTerminalExt e.id { s₁.terminalExt e.id with gatherOperations := [] }, ?_, hl₁, hg₁, ?_,
      h.single.mono hle, h.known_of hle hsame.leaf hts₁⟩
    · simp only [dropGatherOperations, ne_eq, hne, not_false_eq_true, if_true,
        removeAllGatherOperations, ht]
      rw [hL, hr₁]
      rfl
    · refine .set ?_
      rw [he₁]
      exact Indexes.clear h.terminals

theorem removeAllGatherOperations_none {e : Element TerminalInfo} (h : s.Tables P)
    (ht : e.data.terminal = none) (hn : ∀ p ∈ P, p.terminal ≠ e.id) :
    s.removeAllGatherOperations e = .ok (s, []) := by
  have hnil : (s.terminalExt e.id).gatherOperations.isEmpty = true :=
    List.isEmpty_iff.mpr ((Indexes.eq_nil h.terminals).mpr hn)
  simp only [removeAllGatherOperations, ht, assert_of hnil]
  rfl

-- A binding that is destroyed answers in place of its terminal.
theorem destroyGatherOperation_ok {b : Binding} (h : s.Tables (p ::ₘ Q)) (hb : p.terminal = b.terminal)
    (hc : s.leaf.connection.isSome = true) :
    ∃ s' es, destroyGatherOperation b p.group s (p.operation, p.terminal) = .ok (s', es) ∧
      s'.Tables Q ∧ gathers es = (Event.destroyed p).gathers Q := by
  obtain ⟨t, hk⟩ := h.known p (Multiset.mem_cons_self ..)
  obtain ⟨e, he, hi, het⟩ := exists_terminal! hk.terminal
  obtain ⟨s₁, hr₁, hl₁, ht₁, hb₁, hts₁⟩ := takeGatherOperation_ok h.leaf h.terminals h.single hk.terminal
  have hsame := takeGatherOperation_same hr₁
  obtain ⟨o, ho, hoi⟩ := Option.map_eq_some_iff.mp hk.object
  have hm : ((s.terminalExt p.terminal).gatherOperations.map Prod.fst).contains p.operation = true := by
    rw [List.contains_iff_mem]
    exact h.terminals.mem.mpr ⟨p, Multiset.mem_cons_self .., rfl, rfl⟩
  let s₂ := s₁.setBindingExt p.group ((s₁.bindingExt p.group).erase (p.operation, p.terminal))
  have ht₂ : s₂.Tables Q := by
    refine ⟨hl₁, ?_, ht₁, h.single.of_cons.left, h.known_of (Multiset.le_cons_self ..) hsame.leaf hts₁⟩
    show Indexes _ _ (Function.update s₁.bindingExt p.group _) Q
    rw [hb₁]
    exact Indexes.erase h.groups
  have hmem : p.operation ∈ s₂.gatherOperations.map Prod.fst ↔ Awaited Q p.operation := ht₂.leaf.mem
  have hrun : destroyGatherOperation b p.group s (p.operation, p.terminal) =
      if p.operation ∉ s₂.gatherOperations.map Prod.fst then
        .ok (s₂, [.sendGather p.operation (gatherBindingDestroyed ||| gatherFinished) []])
      else
        .ok (s₂, []) := by
    simp only [destroyGatherOperation, he, Except.ok_bind, hi, assert_of hm, het, terminal!, ho,
      if_pos (hoi.trans hb), hr₁]
    split
    case isTrue  =>
      have hc₂ : s₂.leaf.connection.isSome = true := hsame.leaf ▸ hc
      rw [assert_of hc₂]
      rfl
    case isFalse => rfl
  cases Decidable.em (Awaited Q p.operation)
  case inl ha =>
    rw [if_neg (not_not.mpr (hmem.mpr ha))] at hrun
    exact ⟨s₂, _, hrun, ht₂, by simp [Event.gathers, ha, gathers]⟩
  case inr ha =>
    rw [if_pos (mt hmem.mp ha)] at hrun
    exact ⟨s₂, _, hrun, ht₂, by simp [Event.gathers, ha, gathers]⟩

theorem destroyGatherOperation_other {b : Binding} (bd : Id) (h : s.Tables P) (hp : p ∈ P)
    (hb : p.terminal ≠ b.terminal) :
    destroyGatherOperation b bd s (p.operation, p.terminal) = .ok (s, []) := by
  obtain ⟨t, hk⟩ := h.known p hp
  obtain ⟨e, he, hi, het⟩ := exists_terminal! hk.terminal
  obtain ⟨o, ho, hoi⟩ := Option.map_eq_some_iff.mp hk.object
  have hm : ((s.terminalExt p.terminal).gatherOperations.map Prod.fst).contains p.operation = true := by
    rw [List.contains_iff_mem]
    exact h.terminals.mem.mpr ⟨p, hp, rfl, rfl⟩
  have hne : ¬o.id = b.terminal := fun he => hb (hoi.symm.trans he)
  simp only [destroyGatherOperation, he, Except.ok_bind, hi, assert_of hm, het, terminal!, ho,
    if_neg hne]
  rfl

-- What happens if the binding `b` of the group `bd` is destroyed.
def Destroys (b : Binding) (bd : Id) : Event → Prop
  | .destroyed p => p.group = bd ∧ p.terminal = b.terminal
  | _            => False

theorem forEach_destroyGatherOperation {b : Binding} (h : s.Tables (L + Q)) (hL : ∀ p ∈ L, p.group = bd)
    (hc : L ≠ [] → s.leaf.connection.isSome = true) :
    ∃ s' es, forEach (destroyGatherOperation b bd) s (L.map fun p => (p.operation, p.terminal)) =
        .ok (s', es) ∧ s'.Tables ((L.filter (·.terminal ≠ b.terminal) : List Pending) + Q) ∧
      Run (Destroys b bd) (L + Q) (gathers es)
        ((L.filter (·.terminal ≠ b.terminal) : List Pending) + Q) := by
  induction L generalizing s Q
  case nil => exact ⟨s, [], rfl, h, .nil⟩
  case cons p L ih =>
    have hc := hc (List.cons_ne_nil _ _)
    have hLt : ∀ q ∈ L, q.group = bd := fun q hq => hL q (List.mem_cons_of_mem _ hq)
    cases Decidable.em (p.terminal = b.terminal)
    case inl hb =>
      rw [← Multiset.cons_coe, Multiset.cons_add] at h ⊢
      obtain ⟨s₁, es₁, hr₁, ht₁, hg₁⟩ := destroyGatherOperation_ok h hb hc
      have hsame := destroyGatherOperation_same hr₁
      obtain ⟨s₂, es₂, hr₂, ht₂, hrun₂⟩ := ih ht₁ hLt fun _ => hsame.leaf ▸ hc
      rw [hL p List.mem_cons_self] at hr₁
      rw [List.filter_cons_of_neg (by simp [hb])]
      refine ⟨s₂, _, forEach_ok hr₁ hr₂, ht₂, ?_⟩
      rw [gathers_append, hg₁]
      exact .cons .destroyed ⟨hL p List.mem_cons_self, hb⟩ hrun₂
    case inr hb =>
      have hp : p ∈ ((p :: L : List Pending) : Multiset Pending) + Q :=
        Multiset.mem_add.mpr (.inl (by simp))
      have hr₁ := destroyGatherOperation_other bd h hp hb
      have hswap : ∀ L : List Pending, ((p :: L : List Pending) : Multiset Pending) + Q = L + (p ::ₘ Q) := by
        intro L
        rw [← Multiset.cons_coe, Multiset.cons_add, Multiset.add_cons]
      rw [hswap] at h ⊢
      obtain ⟨s₂, es₂, hr₂, ht₂, hrun₂⟩ := ih h hLt fun _ => hc
      rw [List.filter_cons_of_pos (by simp [hb]), hswap]
      exact ⟨s₂, es₂, forEach_ok (q := (s, [])) hr₁ hr₂, ht₂, hrun₂⟩

theorem onBindingRemoved_ok {b : Binding} (h : s.Tables P)
    (hb : (s.leaf.bindings.get? bd).isSome = true) (hc : P ≠ 0 → s.leaf.connection.isSome = true) :
    ∃ s' es, s.onBindingRemoved b bd = .ok (s', es) ∧
      s'.Tables (P.filter fun p => ¬(p.group = bd ∧ p.terminal = b.terminal)) ∧
      Run (Destroys b bd) P (gathers es)
        (P.filter fun p => ¬(p.group = bd ∧ p.terminal = b.terminal)) := by
  obtain ⟨e, he, hi, _⟩ := exists_binding! hb
  obtain ⟨L, hL, hP, hLg⟩ := h.groups.split bd
  have hrest : P.filter (fun p => ¬(p.group = bd ∧ p.terminal = b.terminal)) =
      (L.filter (·.terminal ≠ b.terminal) : List Pending) + P.filter (·.group ≠ bd) := by
    conv_lhs => rw [hP]
    rw [Multiset.filter_add, Multiset.filter_coe, Multiset.filter_filter]
    congr 1
    · refine congrArg _ (List.filter_congr fun p hp => ?_)
      simp [hLg p hp]
    · refine Multiset.filter_congr fun p _ => ?_
      exact ⟨And.right, fun hp => ⟨fun ha => hp ha.left, hp⟩⟩
  obtain ⟨s', es, hr, ht, hrun⟩ := forEach_destroyGatherOperation (b := b) (hP ▸ h) hLg fun hne => hc fun h0 => by
    rw [h0] at hP
    exact hne (by simpa using hP.symm)
  rw [hrest]
  refine ⟨s', es, ?_, ht, ?_⟩
  · simp only [onBindingRemoved, he, Except.ok_bind, hi]
    rw [hL, hr]
  · conv => arg 2; rw [hP]
    exact hrun

-- The answers of terminals.

-- The flags of an answer of a terminal do not say that the operation has come to an end.
structure AnswerFlags (flags : Nat) : Prop where
  unfinished : finished flags = false
  exists_bd  : flags &&& gatherBindingDestroyed = 0
  connected  : flags &&& gatherConnectionLost = 0

theorem find_pending (h : s.TerminalTable (p ::ₘ Q)) (hs : Single (p ::ₘ Q)) :
    (s.terminalExt p.terminal).gatherOperations.find? (·.1 = p.operation) =
      some (p.operation, p.group) := by
  have hm := (Indexes.mem h).mpr ⟨p, Multiset.mem_cons_self .., rfl, rfl⟩
  cases hf : (s.terminalExt p.terminal).gatherOperations.find? (·.1 = p.operation)
  case none   => simpa using List.find?_eq_none.mp hf _ hm
  case some e =>
    have he : e.1 = p.operation := by simpa using List.find?_some hf
    obtain ⟨q, hq, ht, hv⟩ := (Indexes.mem h).mp (List.mem_of_find?_eq_some hf)
    cases Multiset.mem_cons.mp hq
    case inl hqp => rw [← hv, hqp]
    case inr hqQ => exact absurd ht (hs.of_cons.right q hqQ ((congrArg Prod.fst hv).trans he))

theorem respond_ok {o : Terminal} {flags : Nat} (data : List Byte) (h : s.Tables (p ::ₘ Q))
    (ho : s.terminals t = some o) (hi : o.id = p.terminal) (hf : AnswerFlags flags)
    (hot : s.leaf.objectOf p.terminal = some t) (hc : s.leaf.connection.isSome = true) :
    ∃ s', s.sgRespondToScatteredMessage t p.operation flags data = .ok (s', [.sendGather p.operation
        (if Awaited Q p.operation then flags else flags ||| gatherFinished) data]) ∧ s'.Tables Q := by
  obtain ⟨e, he, hei, _⟩ := exists_terminal! hot
  obtain ⟨_, hk⟩ := h.known p (Multiset.mem_cons_self ..)
  obtain ⟨d, hd, hdi, _⟩ := exists_binding! hk.group
  obtain ⟨g, hg, hgt⟩ := h.leaf.erase hot
  obtain ⟨hge, hgg⟩ := h.groups.erase
  have hfind := find_pending h.terminals h.single
  let s₁ := s.setBindingExt p.group ((s.bindingExt p.group).erase (p.operation, p.terminal))
  let s₂ := { s₁.setTerminalExt p.terminal { s₁.terminalExt p.terminal with
    gatherOperations := (s₁.terminalExt p.terminal).gatherOperations.erase (p.operation, p.group) } with
    gatherOperations := g }
  have ht₂ : s₂.Tables Q := ⟨hgt, hgg, h.terminals.erase, h.single.of_cons.left,
    h.known_of (Multiset.le_cons_self ..) rfl rfl⟩
  have hmem : p.operation ∈ g.map Prod.fst ↔ Awaited Q p.operation := ht₂.leaf.mem
  have ha₁ : (!finished flags) = true := by simp [hf.unfinished]
  have hrun : s.sgRespondToScatteredMessage t p.operation flags data =
      if p.operation ∉ g.map Prod.fst then
        .ok (s₂, [.sendGather p.operation (flags ||| gatherFinished) data])
      else
        .ok (s₂, [.sendGather p.operation flags data]) := by
    simp only [sgRespondToScatteredMessage, assert_of ha₁, hf.exists_bd, hf.connected, Except.ok_bind,
      terminal!, ho, hi, he, hei, hfind, hd, hdi, hge, decide_true, assert_true, assert_of hc,
      setTerminalExt_leaf, setBindingExt_leaf, setTerminalExt_gatherOperations,
      setBindingExt_gatherOperations, hg]
    split <;> rfl
  cases Decidable.em (Awaited Q p.operation)
  case inl ha =>
    rw [if_neg (not_not.mpr (hmem.mpr ha))] at hrun
    exact ⟨s₂, by rw [if_pos ha]; exact hrun, ht₂⟩
  case inr ha =>
    rw [if_pos (mt hmem.mp ha)] at hrun
    exact ⟨s₂, by rw [if_neg ha]; exact hrun, ht₂⟩

theorem respond_unknown {o : Terminal} {flags : Nat} (data : List Byte) (h : s.Tables P)
    (ho : s.terminals t = some o) (hn : ∀ p ∈ P, p.operation = op → p.terminal ≠ o.id)
    (hf : AnswerFlags flags) (hot : s.leaf.objectOf o.id = some t) :
    s.sgRespondToScatteredMessage t op flags data = .ok (s, [.threw .invalidId]) := by
  obtain ⟨e, he, hei, _⟩ := exists_terminal! hot
  have ha₁ : (!finished flags) = true := by simp [hf.unfinished]
  have hfind : (s.terminalExt o.id).gatherOperations.find? (·.1 = op) = none := by
    refine List.find?_eq_none.mpr fun e he => ?_
    obtain ⟨p, hp, ht, hv⟩ := (Indexes.mem h.terminals).mp he
    rw [← hv]
    simpa using fun hop => hn p hp hop ht
  simp only [sgRespondToScatteredMessage, assert_of ha₁, hf.exists_bd, hf.connected, Except.ok_bind,
    terminal!, ho, he, hei, hfind, decide_true, assert_true]
  rfl

theorem storeGatherOperation_ok {o : Terminal} (h : s.Tables P) (hk : s.Known ⟨op, tm, bd⟩ t)
    (ho : s.terminals t = some o) (hn : op ∉ (s.terminalExt tm).gatherOperations.map Prod.fst) :
    (s.storeGatherOperation op bd tm t o).Tables (⟨op, tm, bd⟩ ::ₘ P) := by
  have hno : ∀ q ∈ P, q.operation = op → q.terminal ≠ tm := fun q hq hop ht =>
    hn (h.terminals.mem.mpr ⟨q, hq, hop, ht⟩)
  have hoi : o.id = tm := by simpa [ho] using hk.object
  constructor
  case leaf =>
    show Multiset.map _ ((s.gatherOperations ++ [(op, t)] : List (Id × Nat)) : Multiset (Id × Nat)) =
      Multiset.map (fun p => (p.operation, s.leaf.objectOf p.terminal)) (⟨op, tm, bd⟩ ::ₘ P)
    rw [← Multiset.coe_add, Multiset.map_add, Multiset.add_comm, Multiset.map_cons, ← h.leaf,
      show s.leaf.objectOf tm = some t from hk.terminal]
    rfl
  case groups =>
    have := Indexes.insert (a := ⟨op, tm, bd⟩) h.groups
    rw [← hoi] at this ⊢
    exact this
  case terminals =>
    have hi := Indexes.insert (a := ⟨op, tm, bd⟩) h.terminals
    refine Indexes.congr hi fun i => ?_
    simp only [storeGatherOperation, setTerminalExt, setBindingExt, Function.update_apply]
    split
    case isTrue  => exact if_neg hn
    case isFalse => rfl
  case single => exact (Step.stored hno).single h.single
  case known =>
    intro p hp
    cases Multiset.mem_cons.mp hp
    case inl hp => exact ⟨t, hp ▸ ⟨hk.terminal, hk.object, hk.group⟩⟩
    case inr hp =>
      obtain ⟨u, hu⟩ := h.known p hp
      exact ⟨u, ⟨hu.terminal, hu.object, hu.group⟩⟩

-- The tables do not depend on the rest of the state.
theorem Tables.congr (h : s.Tables P) (hl : s'.leaf = s.leaf)
    (hg : s'.gatherOperations = s.gatherOperations) (hb : s'.bindingExt = s.bindingExt)
    (he : ∀ tm, (s'.terminalExt tm).gatherOperations = (s.terminalExt tm).gatherOperations)
    (ht : ∀ t, (s'.terminals t).map (·.id) = (s.terminals t).map (·.id)) : s'.Tables P where
  leaf      := by
    rw [LeafTable, hg, hl]
    exact h.leaf
  groups    := by
    rw [GroupTable, hb]
    exact h.groups
  terminals := Indexes.congr h.terminals he
  single    := h.single
  known     := by
    intro p hp
    obtain ⟨t, hk⟩ := h.known p hp
    exact ⟨t, hl ▸ hk.terminal, (ht t).trans hk.object, hl ▸ hk.group⟩

end Yogi.ScatterGather.LeafLogic
