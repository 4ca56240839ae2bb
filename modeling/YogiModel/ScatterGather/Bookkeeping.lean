import YogiModel.ScatterGather.Service

namespace Yogi.ScatterGather.LeafLogic

open LeafView Pending
open Wire (Byte)

variable {s s' : LeafLogic} {v w : LeafView} {m : Id → Bool} {P Q : Multiset Pending} {p : Pending}
  {t : Nat} {op tm bd : Id} {o : Terminal} {es : List Leaf.Effect}

-- What the base class does to the pending answers.

-- The operations of this leaf end without failure.
theorem forEach_finish_ok (flags : Nat) {ops : List Id} (hn : ops.Nodup) (ho : s.terminals t = some o)
    (ht : ∀ op ∈ ops, op ∈ o.tasks.map Prod.fst)
    (hr : ∀ op ∈ ops, (s.scatterOperations.get? op).isSome = true) :
    ∃ r, forEach (finishScatterOperation (some t) flags) s ops = .ok r ∧ SameGather s r.1 ∧
      gathers r.2 = [] := by
  induction ops generalizing s o
  case nil => exact ⟨(s, []), rfl, .refl s, rfl⟩
  case cons op ops ih =>
    obtain ⟨hop, hn⟩ := List.nodup_cons.mp hn
    obtain ⟨o', es, hg, hoi, hes⟩ := gathered_ok (flags ||| gatherFinished) [] true ho
      (ht op List.mem_cons_self)
    obtain ⟨o₁, ho₁, _, he₁⟩ := onGatheredMessageReceived_ok hg
    cases Option.some.inj (ho.symm.trans ho₁)
    have ho' : o' = if !true || finished (flags ||| gatherFinished) then
        { o with tasks := o.tasks.filter (·.1 ≠ op) } else o := by
      have := congrFun (congrArg LeafLogic.terminals he₁) t
      simpa [setTerminal] using this
    have ho' : o' = { o with tasks := o.tasks.filter (·.1 ≠ op) } := by
      rw [ho']
      simp [finished, gatherFinished]
    let s₁ := (s.setTerminal t (some o')).eraseScatterOperation op
    have hs₁ : SameGather s s₁ := (SameGather.setTerminal ho hoi).trans .operations
    have hr₁ : finishScatterOperation (some t) flags s op = .ok (s₁, es) := by
      have ha : ((s.setTerminal t (some o')).scatterOperations.get? op).isSome = true :=
        hr op List.mem_cons_self
      simp only [finishScatterOperation, hg, Except.ok_bind, assert_of ha]
      rfl
    obtain ⟨r, hr₂, hs₂, hes₂⟩ := ih (s := s₁) (o := o') hn (Function.update_self ..) (fun op' hop' => by
      have hne : op' ≠ op := fun he => hop (he ▸ hop')
      have := ht op' (List.mem_cons_of_mem _ hop')
      rw [ho']
      simp only [List.mem_map, List.mem_filter] at this ⊢
      obtain ⟨task, htask, he⟩ := this
      exact ⟨task, ⟨htask, by simpa [he] using hne⟩, he⟩) fun op' hop' => by
        have hne : op' ≠ op := fun he => hop (he ▸ hop')
        have := hr op' (List.mem_cons_of_mem _ hop')
        simp only [s₁, eraseScatterOperation, ObjectRegister.get?_erase, if_neg hne]
        exact this
    refine ⟨_, forEach_ok hr₁ hr₂, hs₁.trans hs₂, ?_⟩
    rw [gathers_append, hes, hes₂]
    rfl

theorem forEach_abandon_ok (ops : List Id)
    (hr : ∀ op ∈ ops, (s.scatterOperations.get? op).isSome = true) :
    ∃ r, forEach abandonScatterOperation s ops = .ok r ∧ SameGather s r.1 ∧ gathers r.2 = [] := by
  induction ops generalizing s
  case nil => exact ⟨(s, []), rfl, .refl s, rfl⟩
  case cons op ops ih =>
    let s₁ := { s with scatterOperations := s.scatterOperations.set op none }
    have hr₁ : s.abandonScatterOperation op = .ok (s₁, []) := by
      simp only [abandonScatterOperation, assert_of (hr op List.mem_cons_self)]
      rfl
    obtain ⟨r, hr₂, hs₂, hes₂⟩ := ih (s := s₁) fun op' hop' => by
      have := hr op' (List.mem_cons_of_mem _ hop')
      simp only [s₁, ObjectRegister.get?_set]
      split
      case isTrue he => simpa [he] using hr op List.mem_cons_self
      case isFalse   => exact this
    exact ⟨_, forEach_ok (q := (s₁, [])) hr₁ hr₂, SameGather.operations.trans hs₂, hes₂⟩

-- What holds before each call of a virtual function, `v` being what inheriting classes see then.
structure Passing (v : LeafView) (s : LeafLogic) (P : Multiset Pending) : Prop where
  inv        : ScatterInv v s
  subscribed : Subscribed v s
  fresh      : ∀ tm t, v.object tm = some t → s.terminals t = none →
    (s.terminalExt tm).scatterOperations = []
  tables     : s.Tables P
  fits       : Fits v P
  objects    : ∀ p ∈ P, s.leaf.objectOf p.terminal = v.object p.terminal

theorem finishScatterOperations_ok {b : Bool} {e : Element TerminalInfo} (h : ScatterInv v s)
    (hf : s.terminals t = none → (s.terminalExt e.id).scatterOperations = [])
    (ht : v.object e.id = some t) (hte : e.data.terminal = some t) (hm : v.mapped e.id = !b) :
    ∃ r, s.finishScatterOperations b e = .ok r ∧ SameGather s r.1 ∧ gathers r.2 = [] := by
  cases Decidable.em ((s.terminalExt e.id).scatterOperations = [])
  case inl hnil =>
    refine ⟨(s, []), ?_, .refl s, rfl⟩
    simp only [finishScatterOperations, hnil]
    rfl
  case inr hne =>
    cases ho : s.terminals t
    case none   => exact absurd (hf ho) hne
    case some o =>
      have hi := h.same ho ht
      have hpr : Proper v s t o := ⟨ho, hi ▸ ht⟩
      have hb : b = false := by
        have := h.mapped hpr (hi ▸ hne)
        rw [hi, hm] at this
        simpa using this
      have ha : (!s.leaf.connection.isSome || !b) = true := by simp [hb]
      obtain ⟨r, hr, hs, hes⟩ := forEach_finish_ok
        (if s.leaf.connection.isSome then gatherBindingDestroyed else gatherConnectionLost)
        (hi ▸ h.nodup hpr) ho
        (fun op hop => (h.tasks hpr op).mpr ((h.ops hpr op).mp (hi ▸ hop)))
        fun op hop => by simp [(h.ops hpr op).mp (hi ▸ hop)]
      let s₂ := r.1.setTerminalExt e.id { r.1.terminalExt e.id with scatterOperations := [] }
      have hs₂ : SameGather s s₂ := hs.trans .setTerminalExt
      refine ⟨(s₂, r.2), ?_, hs₂, hes⟩
      simp only [finishScatterOperations, ne_eq, hne, not_false_eq_true, if_true, assert_of ha,
        Except.ok_bind, hte, hr]
      rfl

theorem Tables.withLeaf {l : Leaf} (h : s.Tables P)
    (ho : ∀ p ∈ P, l.objectOf p.terminal = s.leaf.objectOf p.terminal)
    (hg : ∀ p ∈ P, (l.bindings.get? p.group).isSome = true) : { s with leaf := l }.Tables P where
  leaf      := by
    refine h.leaf.trans (Multiset.map_congr rfl fun p hp => ?_)
    rw [← ho p hp]
  groups    := h.groups
  terminals := h.terminals
  single    := h.single
  known     := by
    intro p hp
    obtain ⟨t, hk⟩ := h.known p hp
    exact ⟨t, (ho p hp).trans hk.terminal, hk.object, hg p hp⟩

-- The mapping of the terminal or of the group of a pending answer changes.
def Touches (es : List Leaf.Effect) (p : Pending) : Prop :=
  ∃ l b, .call l (.terminalMappingChanged b p.terminal) ∈ es ∨
    .call l (.bindingGroupMappingChanged b p.group) ∈ es

def Drops (es : List Leaf.Effect) : Event → Prop
  | .dropped p => Touches es p
  | _          => False

-- The answer to what the base class does: `P` is pending before it and `Q` after it.
structure Passed (es : List Leaf.Effect) (w : LeafView) (P : Multiset Pending)
    (r : LeafLogic × List Effect) (Q : Multiset Pending) : Prop where
  tables  : r.1.Tables Q
  fits    : Fits w Q
  objects : ∀ p ∈ Q, r.1.leaf.objectOf p.terminal = w.object p.terminal
  run     : Run (Drops es) P (gathers r.2) Q

theorem Passed.passing {r : LeafLogic × List Effect} (h : Passing v s P) (hp : Passed es w P r Q)
    (hk : Passes v w s r.1) (ho : ∀ tm, w.object tm = v.object tm) : Passing w r.1 Q where
  inv        := hk.inv
  subscribed := hk.subscribed
  fresh      := by
    intro tm t hot ht
    have := hk.objects t
    rw [ht, Option.map_none, eq_comm, Option.map_eq_none_iff] at this
    exact hk.empty tm (h.fresh tm t (ho tm ▸ hot) this)
  tables     := hp.tables
  fits       := hp.fits
  objects    := hp.objects

theorem forEach_single_ok {α : Type} {f : LeafLogic → α → Result} {a : α} {r} (h : f s a = .ok r) :
    forEach f s [a] = .ok r := by
  have hnil : forEach f r.1 [] = .ok (r.1, []) := rfl
  have := forEach_ok h hnil
  rwa [List.append_nil] at this

-- The leaf at the time of a call has the terminals and groups that pending answers refer to.
theorem Passing.withLeaf {l : Leaf} (h : Passing v s P) (ho : ∀ tm, l.objectOf tm = v.object tm)
    (hg : ∀ bd, v.group bd ≠ none → (l.bindings.get? bd).isSome = true) :
    Passing v { s with leaf := l } P where
  inv        := h.inv.withLeaf
  subscribed := h.subscribed
  fresh      := h.fresh
  tables     := by
    refine h.tables.withLeaf (fun p hp => (ho _).trans (h.objects p hp).symm) fun p hp => hg _ ?_
    obtain ⟨bs, hgr, _⟩ := h.fits p hp
    simp [hgr]
  fits       := h.fits
  objects    := fun p _ => ho p.terminal

theorem subscribed_ok {l : Leaf} (f : Id → Bool) (tm : Id) {b : Bool} (hc : b = true → l.connection ≠ none) :
    ∃ r, SubscribableLeaf.onTerminalMappingChanged l f b tm = .ok r := by
  cases b
  case false =>
    simp only [SubscribableLeaf.onTerminalMappingChanged]
    cases f tm <;> exact ⟨_, rfl⟩
  case true =>
    have hc := hc rfl
    cases h : l.connection
    case none => exact absurd h hc
    case some c =>
      simp only [SubscribableLeaf.onTerminalMappingChanged, h]
      cases c <;> exact ⟨_, rfl⟩

theorem onTerminalMappingChanged_passed {b : Bool} (h : Passing v s P) (hl : s.leaf.view v.mapped = v)
    (ht : v.terminal tm = some (some t)) (hm : v.mapped tm = !b)
    (hc : b = true → v.connection ≠ none) :
    ∃ r, s.onTerminalMappingChanged b tm = .ok r ∧ r.1.Tables (P.filter (·.terminal ≠ tm)) ∧
      r.1.leaf = s.leaf ∧ gathers r.2 = [] := by
  have hot : v.object tm = some t := by simp [LeafView.object, ht]
  have hos : s.leaf.objectOf tm = some t := by
    rw [← Leaf.view_object (m := v.mapped), hl]
    exact hot
  have hcs : b = true → s.leaf.connection ≠ none := fun hb => by
    rw [show s.leaf.connection = v.connection from congrArg LeafView.connection hl]
    exact hc hb
  obtain ⟨f, hf⟩ := subscribed_ok s.subscribed tm hcs
  obtain ⟨e, he, hi, het⟩ := exists_terminal! hos
  subst hi
  let s₁ := { s with subscribed := f.1 }
  have hi₁ : ScatterInv v s₁ :=
    ⟨h.inv.same, h.inv.tasks, h.inv.ops, h.inv.nodup, h.inv.owner, h.inv.mapped⟩
  obtain ⟨r₂, hr₂, hs₂, hes₂⟩ := finishScatterOperations_ok hi₁ (h.fresh e.id t hot) hot het hm
  have ht₂ := hs₂.tables (h.tables.congr rfl rfl rfl (fun _ => rfl) fun _ => rfl : s₁.Tables P)
  obtain ⟨s₃, hr₃, ht₃⟩ := dropGatherOperations_ok ht₂ het fun p hp hpe => by
    obtain ⟨u, hu⟩ := ht₂.known p hp
    have := hu.terminal
    rw [hpe, hs₂.leaf] at this
    exact Option.some.inj (this.symm.trans hos) ▸ hu
  refine ⟨(s₃, f.2.map .subscribable ++ r₂.2 ++ []), ?_, ht₃,
    (dropGatherOperations_same hr₃).leaf.trans hs₂.leaf, ?_⟩
  · simp only [onTerminalMappingChanged, hf, Except.ok_bind, he]
    rw [hr₂]
    simp only [Except.ok_bind, hr₃]
    rfl
  · rw [List.append_nil, gathers_append, hes₂, List.append_nil]
    exact List.filterMap_eq_nil_iff.mpr (by simp)

theorem run_touched {c : Pending → Prop} [DecidablePred c] (ht : ∀ p, ¬c p → Touches es p) :
    Run (Drops es) P [] (P.filter c) :=
  .dropped fun p _ hc => ht p hc

theorem Move.passed (hm : Move v es w) (h : Passing v s P) :
    ∃ r Q, forEach onEffect s es = .ok r ∧ Passed es w P r Q := by
  cases hm
  case send msg =>
    exact ⟨_, P, forEach_single_ok (r := (s, [.subscribable (.base (.send msg))])) rfl,
      h.tables, h.fits, h.objects, .nil⟩
  case publishState b e =>
    exact ⟨_, P, forEach_single_ok (r := (s, [.subscribable (.base (.publishState b e))])) rfl,
      h.tables, h.fits, h.objects, .nil⟩
  case mapped l i t b hl ht hm hc =>
    have ho : ∀ tm, l.objectOf tm = v.object tm := fun tm => by
      rw [← Leaf.view_object (m := v.mapped), hl]
    have hg : ∀ bd, v.group bd ≠ none → (l.bindings.get? bd).isSome = true := by
      intro bd hbd
      rw [← hl] at hbd
      simpa [Leaf.view, Option.isSome_iff_ne_none] using hbd
    obtain ⟨r, hr, htab, hlr, hes⟩ := onTerminalMappingChanged_passed (h.withLeaf ho hg) hl ht hm hc
    refine ⟨r, P.filter (·.terminal ≠ i), forEach_single_ok hr, htab, ?_, ?_, ?_⟩
    · exact fun p hp => h.fits p (Multiset.mem_filter.mp hp).left
    · intro p _
      rw [hlr]
      exact ho p.terminal
    · rw [hes]
      exact run_touched fun p hp => ⟨l, b, .inl (by simp [not_not.mp hp])⟩
  case established l i bs b hg hl =>
    have ho : ∀ tm, l.objectOf tm = v.object tm := fun tm => by
      rw [← Leaf.view_object (m := v.mapped), hl]
      rfl
    have hgr : ∀ bd, v.group bd ≠ none → (l.bindings.get? bd).isSome = true := by
      intro bd hbd
      have : (l.view v.mapped).group bd ≠ none := by
        rw [hl]
        simp only [setGroup, Function.update_apply]
        split
        case isTrue  => simp
        case isFalse => exact hbd
      simpa [Leaf.view, Option.isSome_iff_ne_none] using this
    have h₁ := h.withLeaf ho hgr
    obtain ⟨s', hr, htab⟩ := onBindingGroupMappingChanged_ok (b := b) h₁.tables (hgr i (by simp [hg]))
      fun hp => by
        obtain ⟨p, hp, hpi⟩ := hp
        obtain ⟨bs', hg', _⟩ := h.fits p hp
        rw [hpi, hg] at hg'
        cases b
        case false => rfl
        case true  => cases hg'
    have hsame := onBindingGroupMappingChanged_same hr
    refine ⟨(s', []), P.filter (·.group ≠ i), forEach_single_ok hr, htab, ?_, ?_, ?_⟩
    · intro p hp
      obtain ⟨hp, hpi⟩ := Multiset.mem_filter.mp hp
      obtain ⟨bs', hg', hb⟩ := h.fits p hp
      exact ⟨bs', (Function.update_of_ne hpi ..).trans hg', hb⟩
    · intro p _
      rw [hsame.leaf]
      exact ho p.terminal
    · exact run_touched fun p hp => ⟨l, b, .inr (by simp [not_not.mp hp])⟩
  case terminalErased i hi =>
    refine ⟨(s, []), P, rfl, h.tables, h.fits, fun p hp => (h.objects p hp).trans ?_, .nil⟩
    rw [object_setTerminal]
    split
    case isTrue hj => simp [LeafView.object, hj, hi]
    case isFalse   => rfl
  case groupErased i b hi =>
    refine ⟨(s, []), P, rfl, h.tables, fun p hp => ?_, h.objects, .nil⟩
    obtain ⟨bs, hg, c, hc, hct⟩ := h.fits p hp
    have hpi : p.group ≠ i := by
      intro hpi
      rw [hpi, hi] at hg
      cases hg
      cases hc
    exact ⟨bs, (Function.update_of_ne hpi ..).trans hg, c, hc, hct⟩

theorem forEach_append_ok {α : Type} {f : LeafLogic → α → Result} {as bs : List α} {q r}
    (ha : forEach f s as = .ok q) (hb : forEach f q.1 bs = .ok r) :
    forEach f s (as ++ bs) = .ok (r.1, q.2 ++ r.2) := by
  induction as generalizing s q
  case nil =>
    cases ha
    exact hb
  case cons a as ih =>
    obtain ⟨p, p', hp, hp', he⟩ := forEach_cons.mp ha
    cases he
    rw [List.cons_append, List.append_assoc]
    exact forEach_ok hp (ih hp' hb)

theorem Drops.mono {es es' : List Leaf.Effect} {e : Event} (h : Drops es e) (hs : es ⊆ es') :
    Drops es' e := by
  cases e <;> simp only [Drops] at h
  case dropped p =>
    obtain ⟨l, b, h⟩ := h
    exact ⟨l, b, h.imp (hs ·) (hs ·)⟩

theorem Trace.passed (ht : Trace v es w) (h : Passing v s P) :
    ∃ r Q, forEach onEffect s es = .ok r ∧ Passed es w P r Q := by
  induction ht generalizing s P
  case nil => exact ⟨(s, []), P, rfl, h.tables, h.fits, h.objects, .nil⟩
  case cons hm ht ih =>
    obtain ⟨r, Q, hr, hp⟩ := Move.passed hm h
    have hk := Move.passes hm h.inv h.subscribed hr
    obtain ⟨r', R, hr', hp'⟩ := ih (hp.passing h hk fun _ => (Trace.single hm).object)
    refine ⟨_, R, forEach_append_ok hr hr', hp'.tables, hp'.fits, hp'.objects, ?_⟩
    rw [gathers_append]
    exact (hp.run.mono fun _ he => he.mono (List.subset_append_left ..)).trans
      (hp'.run.mono fun _ he => he.mono (List.subset_append_right ..))

theorem onBase_cons_ok {l : Leaf} {e : Leaf.Effect} {es : List Leaf.Effect} {p q}
    (hp : onEffect s e = .ok p) (hq : p.1.onBase (l, es) = .ok q) :
    s.onBase (l, e :: es) = .ok (q.1, p.2 ++ q.2) := by
  obtain ⟨f, hf, hr⟩ := Except.bind_eq_ok.mp hq
  cases hr
  simp only [onBase, forEach_ok hp hf]
  rfl

theorem onBase_passed {q : Leaf × List Leaf.Effect} (hruns : Leaf.Runs m v q) (h : Passing v s P) :
    ∃ r Q, s.onBase q = .ok r ∧ r.1.Tables Q ∧ (∀ m, Fits (r.1.leaf.view m) Q) ∧
      Run (Drops q.2) P (gathers r.2) Q := by
  obtain ⟨r, Q, hr, hp⟩ := Trace.passed hruns.trace h
  refine ⟨({ r.1 with leaf := q.1 }, r.2), Q, ?_, hp.tables.withLeaf (fun p hpq => ?_) fun p hpq => ?_,
    fun m p hpq => hp.fits p hpq, hp.run⟩
  · simp only [onBase, hr]
    rfl
  · rw [hp.objects p hpq, Leaf.view_object]
  · obtain ⟨bs, hg, _⟩ := hp.fits p hpq
    have hne := congrArg Option.isSome hg
    simpa [Leaf.view] using hne

-- The steps of the leaf.

theorem Steady.passing (h : Steady m s P) : Passing (s.leaf.view m) s P where
  inv        := h.tracked.inv
  subscribed := h.tracked.subscribed
  fresh      := by
    intro tm t hot ht
    rw [Leaf.view_object] at hot
    simpa [ht] using (h.tracked.objects t tm).mpr hot
  tables     := h.tables
  fits       := h.fits
  objects    := fun p _ => Leaf.view_object.symm

theorem Tables.setTerminal {x : Option Terminal} (h : s.Tables P)
    (hn : ∀ p ∈ P, s.leaf.objectOf p.terminal ≠ some t) : (s.setTerminal t x).Tables P where
  leaf      := h.leaf
  groups    := h.groups
  terminals := h.terminals
  single    := h.single
  known     := by
    intro p hp
    obtain ⟨u, hu⟩ := h.known p hp
    have hut : u ≠ t := fun hut => hn p hp (hut ▸ hu.terminal)
    exact ⟨u, hu.terminal, (congrArg _ (Function.update_of_ne hut ..)).trans hu.object, hu.group⟩

-- A step with the outcome `x`: `P` is pending before it and the events are of the kind `A`.
def Settles (A : Event → Prop) (P : Multiset Pending) (x : Result) : Prop :=
  ∃ r Q, x = .ok r ∧ r.1.Tables Q ∧ (∀ m, Fits (r.1.leaf.view m) Q) ∧ Run A P (gathers r.2) Q

theorem drops_stored {es : List Leaf.Effect} : ¬Drops es (.stored p) :=
  fun h => h

theorem newTerminal_settles {x : Identifier} (h : Steady m s P) (ht : t ∉ s.leaf.objects) :
    Settles (Drops (s.leaf.onNewTerminal t x).2.1) P (s.onNewTerminal t x) := by
  have hno : ∀ j, s.leaf.objectOf j ≠ some t := fun j hj => ht (Leaf.mem_objects.mpr ⟨j, hj⟩)
  have hnt : s.terminals t = none := by
    cases ho : s.terminals t
    case none   => rfl
    case some o => exact absurd (h.tracked.object ho) (hno o.id)
  cases h.tracked.sound.inv.runs_newTerminal (t := t) (x := x)
  case inr hn =>
    obtain ⟨hes, hv, _⟩ := hn
    have h₁ : (s.leaf.onNewTerminal t x).2.1 = [] := congrArg Prod.fst hes
    have h₂ : (s.leaf.onNewTerminal t x).2.2 = none := congrArg Prod.snd hes
    have hp := h.passing.withLeaf (l := (s.leaf.onNewTerminal t x).1)
      (fun tm => by rw [← Leaf.view_object (m := m), hv])
      (fun bd hbd => by
        rw [← hv] at hbd
        simpa [Leaf.view, Option.isSome_iff_ne_none] using hbd)
    refine ⟨({ s with leaf := (s.leaf.onNewTerminal t x).1 }, []), P, ?_, hp.tables, fun m p hp => ?_, .nil⟩
    · simp only [onNewTerminal, h₁, h₂]
      rfl
    · have := h.fits p hp
      rw [← hv] at this
      exact this
  case inl hn =>
    obtain ⟨i, hi, hvi, _, es, hes, hruns⟩ := hn
    let v := ((s.leaf.view m).setTerminal i (some (some t))).setMapped i false
    let s₁ := { s with subscribed := Function.update s.subscribed i false }.setTerminalExt i {}
    have hio : (s.leaf.view m).object i = none := by simp [LeafView.object, hvi]
    obtain ⟨hinv, hsub⟩ := h.tracked.inv.insertTerminal (t := t) h.tracked.subscribed hnt hio
    rw [Leaf.view_object] at hio
    have hpi : ∀ p ∈ P, p.terminal ≠ i := by
      intro p hp hpi
      obtain ⟨u, hu⟩ := h.tables.known p hp
      have := hu.terminal
      rw [hpi, hio] at this
      cases this
    have hv : ∀ j, v.object j = if j = i then some t else s.leaf.objectOf j := by
      intro j
      rw [← Leaf.view_object (m := m)]
      exact object_setTerminal
    have hpass : Passing v s₁ P := by
      constructor
      case inv        => exact hinv
      case subscribed => exact hsub
      case fresh      =>
        intro j u hj hu
        rw [hv] at hj
        split at hj
        case isTrue hji  => simp [s₁, setTerminalExt, hji]
        case isFalse hji =>
          have := (h.tracked.objects u j).mpr hj
          simp [show s.terminals u = none from hu] at this
      case tables     =>
        refine h.tables.congr rfl rfl rfl (fun j => ?_) fun _ => rfl
        simp only [s₁, setTerminalExt, Function.update_apply]
        split
        case isTrue hji => exact hji ▸ ((Indexes.eq_nil h.tables.terminals).mpr hpi).symm
        case isFalse    => rfl
      case fits       => exact h.fits
      case objects    => exact fun p hp => ((hv _).trans (if_neg (hpi p hp))).symm
    obtain ⟨r, Q, hr, htab, hfits, hrun⟩ := onBase_passed hruns hpass
    have hl := (onBase_passes hruns.trace hinv hsub hr).right
    have hq : s.onBase ((s.leaf.onNewTerminal t x).1, (s.leaf.onNewTerminal t x).2.1) = .ok (r.1, r.2) := by
      rw [hes]
      exact onBase_cons_ok (p := (s₁, [])) rfl hr
    refine ⟨(r.1.setTerminal t (some { id := i }), r.2), Q, ?_, htab.setTerminal fun p hp => ?_, hfits, ?_⟩
    · simp only [onNewTerminal, hq, Except.ok_bind, hi]
      rfl
    · have hpP := Multiset.mem_of_le (hrun.le fun _ => drops_stored) hp
      rw [hl, hruns.objectOf, hv, if_neg (hpi p hpP)]
      exact hno p.terminal
    · rw [hes]
      exact hrun.mono fun _ he => he.mono (List.subset_cons_self ..)

-- A binding refers to the terminal of a pending answer.
theorem Steady.bound (h : Steady m s P) (hp : p ∈ P) : p.terminal ∈ s.leaf.bound := by
  obtain ⟨bs, hg, b, hb, hbt⟩ := h.fits p hp
  refine Leaf.mem_bound.mpr ⟨p.group, b, ?_, hbt⟩
  rw [← Leaf.view_bindings (m := m)]
  simpa [LeafView.bindings, hg] using hb

theorem onTerminalRemoved_ok {l : Leaf} {i : Id} (h : Steady m s P) (ho : s.leaf.objectOf i = some t)
    (hb : i ∉ s.leaf.bound) (hl : l.view m = (s.leaf.view m).setTerminal i (some none)) :
    ∃ r, { s with leaf := l }.onTerminalRemoved i = .ok r ∧ r.1.Tables P ∧ gathers r.2 = [] ∧
      ∀ p ∈ P, r.1.leaf.objectOf p.terminal = ((s.leaf.view m).setTerminal i (some none)).object p.terminal := by
  obtain ⟨o, hot, hoi⟩ := Option.map_eq_some_iff.mp ((h.tracked.objects t i).mpr ho)
  subst hoi
  have hpr : Proper (s.leaf.view m) s t o := ⟨hot, Leaf.view_object.trans ho⟩
  have hpi : ∀ p ∈ P, p.terminal ≠ o.id := fun p hp hpi => hb (hpi ▸ h.bound hp)
  have hlo : ∀ j, l.objectOf j = ((s.leaf.view m).setTerminal o.id (some none)).object j := fun j => by
    rw [← Leaf.view_object (m := m), hl]
  have hlt : (l.terminals.get? o.id).map (·.data.terminal) = some none :=
    (congrFun (congrArg LeafView.terminal hl) o.id).trans (Function.update_self ..)
  obtain ⟨e, hg, het⟩ := Option.map_eq_some_iff.mp hlt
  have hei := Register.get?_id hg
  let s₁ := { s with leaf := l }
  have htab : s₁.Tables P := by
    refine h.tables.withLeaf (fun p hp => ?_) fun p hp => ?_
    · rw [hlo, object_setTerminal, if_neg (hpi p hp), Leaf.view_object]
    · obtain ⟨bs, hgr, _⟩ := h.fits p hp
      have hgr : (l.view m).group p.group = some (bs, true) := hl ▸ hgr
      have := congrArg Option.isSome hgr
      simpa [Leaf.view] using this
  obtain ⟨r, hr, hs, hes⟩ := forEach_abandon_ok (s := s₁) (s.terminalExt o.id).scatterOperations
    fun op hop => by
      have : s₁.scatterOperations.get? op = some (some t) := (h.tracked.inv.ops hpr op).mp hop
      simp [this]
  have hrem := removeAllGatherOperations_none (hs.tables htab) het fun p hp => hei ▸ hpi p hp
  refine ⟨(r.1, r.2 ++ []), ?_, hs.tables htab, by rw [List.append_nil, hes], fun p _ => ?_⟩
  · have he : s₁.leaf.terminal! o.id = .ok e := by rw [Leaf.terminal!, hg]
    simp only [onTerminalRemoved]
    rw [he, Except.ok_bind, hei]
    rw [show forEach abandonScatterOperation _ _ = .ok r from hr]
    simp only [Except.ok_bind, hrem]
    rfl
  · rw [hs.leaf]
    exact hlo p.terminal

theorem terminalDestroyed_settles {i : Id} {q} (h : Steady m s P) (ho : s.leaf.objectOf i = some t)
    (hb : i ∉ s.leaf.bound) (hq : s.leaf.onTerminalDestroyed t i = .ok q) :
    Settles (Drops q.2) P (s.onTerminalDestroyed t i) := by
  obtain ⟨e, hg, hh, _⟩ := h.tracked.sound.exists_visible ho
  obtain ⟨l₁, es, hes, hvl, hruns⟩ := h.tracked.sound.inv.runs_terminalDestroyed hg hh hq
  obtain ⟨o, hot, hoi⟩ := Option.map_eq_some_iff.mp ((h.tracked.objects t i).mpr ho)
  subst hoi
  have hpr : Proper (s.leaf.view m) s t o := ⟨hot, Leaf.view_object.trans ho⟩
  obtain ⟨r₁, hr₁, htab₁, hg₁, hob₁⟩ := onTerminalRemoved_ok h ho hb hvl
  obtain ⟨hinv, hsub, hobj, _, _⟩ := onTerminalRemoved_inv (h.tracked.inv.withLeaf (l := l₁))
    h.tracked.subscribed h.tracked.sound.owned.distinct hpr hr₁
  have hobj : ∀ u, (r₁.1.terminals u).map (·.id) = (s.terminals u).map (·.id) := hobj
  have hpass : Passing ((s.leaf.view m).setTerminal o.id (some none)) r₁.1 P := by
    refine ⟨hinv, hsub, fun j u hj hu => ?_, htab₁, h.fits, hob₁⟩
    rw [object_setTerminal, Leaf.view_object] at hj
    split at hj
    case isTrue  => cases hj
    case isFalse =>
      have := (h.tracked.objects u j).mpr hj
      rw [← hobj, hu] at this
      cases this
  obtain ⟨r, Q, hr, htab, hfits, hrun⟩ := onBase_passed hruns hpass
  obtain ⟨hp, hl⟩ := onBase_passes hruns.trace hinv hsub hr
  have hb : s.onBase q = .ok (r.1, r₁.2 ++ r.2) := by
    rw [show q = (q.1, q.2) from rfl, hes]
    exact onBase_cons_ok hr₁ hr
  obtain ⟨o', ho', _⟩ := Option.map_eq_some_iff.mp (((hp.objects t).trans (hobj t)).trans
    ((h.tracked.objects t o.id).mpr ho))
  let canceled := o'.tasks.map (fun task => Effect.canceled t (some task.1)) ++
    if o'.reply.isSome then [.canceled t none] else []
  have hcan : gathers canceled = [] := by
    rw [gathers_append]
    refine List.append_eq_nil_iff.mpr ⟨List.filterMap_eq_nil_iff.mpr fun e he => ?_, ?_⟩
    · obtain ⟨task, _, he⟩ := List.mem_map.mp he
      rw [← he]
    · split <;> rfl
  refine ⟨(r.1.setTerminal t none, r₁.2 ++ r.2 ++ canceled), Q, ?_, htab.setTerminal fun p hp => ?_,
    hfits, ?_⟩
  · simp only [onTerminalDestroyed, hq, Except.ok_bind, hb, terminal!, ho', List.append_assoc, canceled]
    rfl
  · have hpP := Multiset.mem_of_le (hrun.le fun _ => drops_stored) hp
    rw [hl, hruns.objectOf, object_setTerminal, Leaf.view_object]
    split
    case isTrue     => simp
    case isFalse hi =>
      exact fun hpt => hi (h.tracked.sound.owned.distinct _ _ _ (Leaf.view_object.trans hpt) hpr.right)
  · rw [gathers_append, gathers_append, hg₁, hcan, List.append_nil, hes]
    exact hrun.mono fun _ he => he.mono (List.subset_cons_self ..)

theorem isSome_of_group {l : Leaf} {g : List Binding × Bool} (h : (l.view m).group bd = some g) :
    (l.bindings.get? bd).isSome = true := by
  have := congrArg Option.isSome h
  simpa [Leaf.view] using this

-- Before a step every terminal of the leaf is known to the library user.
theorem Passing.of_same (h : Steady m s P) (hs : SameScatter s s') (ht : s'.Tables Q) (hf : Fits v Q)
    (ho : ∀ tm, v.object tm = s.leaf.objectOf tm) (hm : v.mapped = m) : Passing v s' Q where
  inv        := (h.tracked.inv.congr hs).view (fun tm => (ho tm).trans Leaf.view_object.symm)
    fun tm _ => congrFun hm tm
  subscribed := by
    intro tm hv hsub
    rw [hm]
    rw [ho, ← Leaf.view_object (m := m)] at hv
    exact h.tracked.subscribed hv (hs.subscribed ▸ hsub)
  fresh      := by
    intro tm t hot hnone
    rw [ho] at hot
    have := (h.tracked.objects t tm).mpr hot
    rw [← hs.objects, hnone] at this
    cases this
  tables     := ht
  fits       := hf
  objects    := fun p _ => by rw [ho, hs.leaf]

theorem onBase_settles {q : Leaf × List Leaf.Effect} {A : Event → Prop} (hruns : Leaf.Runs m v q)
    (h : Passing v s P) (hA : ∀ e, Drops q.2 e → A e) : Settles A P (s.onBase q) := by
  obtain ⟨r, Q, hr, htab, hfits, hrun⟩ := onBase_passed hruns h
  exact ⟨r, Q, hr, htab, hfits, hrun.mono hA⟩

theorem newBinding_settles {b : Binding} {x : Identifier} (h : Steady m s P) :
    Settles (Drops (s.leaf.onNewBinding b x).2.1) P (s.onNewBinding b x) := by
  cases h.tracked.sound.inv.runs_newBinding (b := b) (x := x)
  case inl hn =>
    obtain ⟨hg, hf, _, hruns⟩ := hn
    have hpg : ∀ p ∈ P, p.group ≠ (s.leaf.onNewBinding b x).2.2 := by
      intro p hp hpg
      obtain ⟨bs, hgr, _⟩ := h.fits p hp
      rw [hpg, hg] at hgr
      cases hgr
    have htab : (s.setBindingExt (s.leaf.onNewBinding b x).2.2 []).Tables P := by
      refine h.tables.congr rfl rfl (funext fun j => ?_) (fun _ => rfl) fun _ => rfl
      simp only [setBindingExt, Function.update_apply]
      split
      case isTrue hj => exact hj ▸ ((Indexes.eq_nil h.tables.groups).mpr hpg).symm
      case isFalse   => rfl
    simp only [onNewBinding, hf, Option.isNone_none, if_true]
    refine onBase_settles hruns (.of_same h .bindingExt htab (fun p hp => ?_)
      (fun _ => Leaf.view_object (m := m)) rfl) fun _ he => he
    obtain ⟨bs, hgr, hb⟩ := h.fits p hp
    exact ⟨bs, (Function.update_of_ne (hpg p hp) ..).trans hgr, hb⟩
  case inr hn =>
    obtain ⟨e, hf, hi, hruns⟩ := hn
    simp only [onNewBinding, hf, Option.isNone_some, Bool.false_eq_true, if_false]
    have hg := (Register.find?_eq_some_iff.mp hf).left
    refine onBase_settles hruns (.of_same h (.refl s) h.tables (fun p hp => ?_)
      (fun _ => Leaf.view_object (m := m)) rfl) fun _ he => he
    obtain ⟨bs, hgr, c, hc, hct⟩ := h.fits p hp
    cases Decidable.em (p.group = e.id)
    case inl hpe =>
      rw [hpe] at hgr ⊢
      simp only [Leaf.view, hg, Option.map_some, Option.some.injEq, Prod.mk.injEq] at hgr
      refine ⟨e.data.bindings ++ [b], ?_, c, List.mem_append_left _ (hgr.left ▸ hc), hct⟩
      rw [← hgr.right]
      exact Function.update_self ..
    case inr hpe => exact ⟨bs, (Function.update_of_ne hpe ..).trans hgr, c, hc, hct⟩

theorem bindingDestroyed_settles {b : Binding} {i : Id} {q} (h : Steady m s P)
    (hb : b ∈ s.leaf.bindingsOf i) (hq : s.leaf.onBindingDestroyed b i = .ok q) :
    Settles (Destroys b i) P (s.onBase q) := by
  obtain ⟨e, hg, hbe⟩ := Leaf.exists_group hb
  obtain ⟨l₁, es, hes, hvl, hruns⟩ := h.tracked.sound.inv.runs_bindingDestroyed hg hbe hq
  have hlo : ∀ j, l₁.objectOf j = s.leaf.objectOf j := fun j => by
    rw [← Leaf.view_object (m := m), hvl, ← Leaf.view_object (m := m)]
    rfl
  have hlg : ∀ j, j ≠ i → (l₁.view m).group j = (s.leaf.view m).group j := fun j hj => by
    rw [hvl]
    exact Function.update_of_ne hj ..
  have hli : (l₁.view m).group i = some (e.data.bindings.erase b, e.data.established) := by
    rw [hvl]
    exact Function.update_self ..
  let s₁ := { s with leaf := l₁ }
  have htab₁ : s₁.Tables P := by
    refine h.tables.withLeaf (fun p _ => hlo p.terminal) fun p hp => ?_
    cases Decidable.em (p.group = i)
    case inl hpi => exact hpi ▸ isSome_of_group hli
    case inr hpi =>
      obtain ⟨bs, hgr, _⟩ := h.fits p hp
      exact isSome_of_group ((hlg _ hpi).trans hgr)
  have hcon : P ≠ 0 → s₁.leaf.connection.isSome = true := by
    intro hP
    obtain ⟨p, hp⟩ := Multiset.exists_mem_of_ne_zero hP
    have := h.connected hp
    rwa [show s.leaf.connection = l₁.connection from congrArg LeafView.connection hvl.symm] at this
  obtain ⟨s₂, es₂, hr₂, htab₂, hrun₂⟩ := onBindingRemoved_ok (b := b) htab₁ (isSome_of_group hli) hcon
  have hsame := onBindingRemoved_same hr₂
  have hto : ∀ tm, ((s.leaf.view m).setGroup i
      (some (e.data.bindings.erase b, e.data.established))).object tm = s.leaf.objectOf tm :=
    fun _ => Leaf.view_object (m := m)
  have hpass : Passing ((s.leaf.view m).setGroup i
      (some (e.data.bindings.erase b, e.data.established))) s₂
      (P.filter fun p => ¬(p.group = i ∧ p.terminal = b.terminal)) := by
    refine ⟨?inv, ?subscribed, fun j u hj hu => ?fresh, htab₂, fun p hp => ?fits, fun p _ => ?objects⟩
    case inv => exact (h.tracked.inv.withLeaf.congr hsame).view (fun _ => rfl) fun _ _ => rfl
    case subscribed =>
      intro j hj hsub
      exact h.tracked.subscribed hj (hsame.subscribed ▸ hsub)
    case fresh =>
      rw [hto] at hj
      have := (h.tracked.objects u j).mpr hj
      rw [show (s.terminals u).map (·.id) = (s₂.terminals u).map (·.id) from (hsame.objects u).symm,
        hu] at this
      cases this
    case fits =>
      obtain ⟨hp, hn⟩ := Multiset.mem_filter.mp hp
      obtain ⟨bs, hgr, c, hc, hct⟩ := h.fits p hp
      cases Decidable.em (p.group = i)
      case inr hpi => exact ⟨bs, (Function.update_of_ne hpi ..).trans hgr, c, hc, hct⟩
      case inl hpi =>
        have hne : c ≠ b := fun hcb => hn ⟨hpi, by rw [← hct, hcb]⟩
        rw [hpi] at hgr ⊢
        simp only [Leaf.view, hg, Option.map_some, Option.some.injEq, Prod.mk.injEq] at hgr
        refine ⟨_, ?_, c, (List.mem_erase_of_ne hne).mpr (hgr.left ▸ hc), hct⟩
        rw [← hgr.right]
        exact Function.update_self ..
    case objects =>
      rw [hto, hsame.leaf]
      exact hlo p.terminal
  obtain ⟨r, Q, hr, htab, hfits, hrun⟩ := onBase_passed hruns hpass
  refine ⟨(r.1, es₂ ++ r.2), Q, ?_, htab, hfits, ?_⟩
  · rw [show q = (q.1, q.2) from rfl, hes]
    exact onBase_cons_ok (p := (s₂, es₂)) hr₂ hr
  · rw [gathers_append]
    refine hrun₂.trans (hrun.mono fun ev he => ?_)
    cases ev <;> simp only [Drops] at he
    case dropped p =>
      obtain ⟨l', b', he⟩ := he
      obtain ⟨l₂, hq'⟩ := Leaf.onBindingDestroyed_effects hq
      rw [hes] at hq'
      cases he <;> rename_i he <;> simpa using hq' _ (List.mem_cons_of_mem _ he)

end Yogi.ScatterGather.LeafLogic
