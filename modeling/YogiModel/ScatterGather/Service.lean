import YogiModel.ScatterGather.Answers

namespace Yogi.ScatterGather.LeafLogic

open LeafView Pending
open Wire (Byte)

variable {s s' : LeafLogic} {v w : LeafView} {m : Id → Bool} {P Q : Multiset Pending} {p : Pending}
  {t : Nat} {op tm bd : Id} {o : Terminal} {A : Event → Prop}

-- Answers are pending for terminals with a binding in an established group.
def Fits (v : LeafView) (P : Multiset Pending) : Prop :=
  ∀ p ∈ P, ∃ bs, v.group p.group = some (bs, true) ∧ ∃ b ∈ bs, b.terminal = p.terminal

-- What holds between two steps if `P` are the pending answers.
structure Steady (m : Id → Bool) (s : LeafLogic) (P : Multiset Pending) : Prop where
  tracked : Tracked False m s
  tables  : s.Tables P
  fits    : Fits (s.leaf.view m) P

-- The events that terminals cause.
def Responds : Event → Prop
  | .answered _ flags => AnswerFlags flags
  | _                 => False

theorem Fits.mono (h : Fits v P) (hq : Q ≤ P) : Fits v Q :=
  fun p hp => h p (Multiset.mem_of_le hq hp)

-- There are no established groups without a connection.
theorem Steady.connected (h : Steady m s P) (hp : p ∈ P) : s.leaf.connection.isSome = true := by
  obtain ⟨bs, hg, _⟩ := h.fits p hp
  obtain ⟨e, he, hb⟩ := Option.map_eq_some_iff.mp hg
  cases hc : s.leaf.connection
  case some => rfl
  case none =>
    have := ((h.tracked.sound.inv.binding he).idle hc).right
    simp [(Prod.mk.inj hb).right] at this

-- The state may change in a way that the tables do not show.
structure SameGather (s s' : LeafLogic) : Prop where
  leaf    : s'.leaf = s.leaf
  gather  : s'.gatherOperations = s.gatherOperations
  binding : s'.bindingExt = s.bindingExt
  ext     : ∀ tm, (s'.terminalExt tm).gatherOperations = (s.terminalExt tm).gatherOperations
  objects : ∀ t, (s'.terminals t).map (·.id) = (s.terminals t).map (·.id)

namespace SameGather

theorem refl (s : LeafLogic) : SameGather s s :=
  ⟨rfl, rfl, rfl, fun _ => rfl, fun _ => rfl⟩

theorem trans {s'' : LeafLogic} (h : SameGather s s') (h' : SameGather s' s'') : SameGather s s'' where
  leaf    := h'.leaf.trans h.leaf
  gather  := h'.gather.trans h.gather
  binding := h'.binding.trans h.binding
  ext     := fun tm => (h'.ext tm).trans (h.ext tm)
  objects := fun t => (h'.objects t).trans (h.objects t)

theorem tables (h : SameGather s s') (ht : s.Tables P) : s'.Tables P :=
  ht.congr h.leaf h.gather h.binding h.ext h.objects

theorem setTerminal {o' : Terminal} (ho : s.terminals t = some o) (hi : o'.id = o.id) :
    SameGather s (s.setTerminal t (some o')) where
  leaf    := rfl
  gather  := rfl
  binding := rfl
  ext     := fun _ => rfl
  objects := by
    intro u
    simp only [LeafLogic.setTerminal, Function.update_apply]
    split
    case isTrue hu => simp [hu, ho, hi]
    case isFalse   => rfl

theorem setTerminalExt {ops : List Id} :
    SameGather s (s.setTerminalExt tm { s.terminalExt tm with scatterOperations := ops }) where
  leaf    := rfl
  gather  := rfl
  binding := rfl
  ext     := by
    intro i
    simp only [LeafLogic.setTerminalExt, Function.update_apply]
    split
    case isTrue hi => rw [hi]
    case isFalse   => rfl
  objects := fun _ => rfl

theorem operations {r : ObjectRegister (Option Nat)} :
    SameGather s { s with scatterOperations := r } :=
  ⟨rfl, rfl, rfl, fun _ => rfl, fun _ => rfl⟩

end SameGather

-- The functions that terminals call do not fail.

theorem Tracked.object (h : Tracked False m s) (ho : s.terminals t = some o) :
    s.leaf.objectOf o.id = some t :=
  (h.objects t o.id).mp (by simp [ho])

theorem Tracked.proper (h : Tracked False m s) (ho : s.terminals t = some o) :
    Proper (s.leaf.view m) s t o :=
  ⟨ho, Leaf.view_object.trans (h.object ho)⟩

-- Only terminals of a leaf with a connection are mapped.
theorem Tracked.connected (h : Tracked False m s) (ho : s.leaf.objectOf tm = some t) (hm : m tm = true) :
    s.leaf.connection.isSome = true := by
  obtain ⟨e, hg, hh, _⟩ := h.sound.exists_visible ho
  have hok := h.sound.inv.terminal hg
  cases hc : s.leaf.connection
  case some => rfl
  case none =>
    have := (hok.reported hh).symm.trans hm
    rw [(hok.idle hc).right] at this
    cases this

theorem sgScatter_ok (data : List Byte) (h : Tracked False m s) (ho : s.terminals t = some o) :
    ∃ s' es id, s.sgScatter t data = .ok (s', es, id) ∧ SameGather s s' ∧ gathers es = [] ∧
      s'.terminals = s.terminals ∧ ∀ i, id = some i → i ∉ o.tasks.map Prod.fst := by
  have hot := h.object ho
  obtain ⟨e, he, hi, _⟩ := exists_terminal! hot
  cases hsub : s.subscribed o.id
  case false =>
    refine ⟨s, [.threw .notBound], none, ?_, .refl s, rfl, rfl, by simp⟩
    simp only [sgScatter, terminal!, ho, Except.ok_bind, he, hi, hsub]
    rfl
  case true =>
    have hm : m o.id = true := h.subscribed (by simp [Leaf.view_object, hot]) hsub
    have hc := h.connected hot hm
    have hnone := s.scatterOperations.get?_insert_self (d := some t)
    have hops := (h.inv.ops (h.proper ho) (s.scatterOperations.insert (some t)).2)
    have htasks := (h.inv.tasks (h.proper ho) (s.scatterOperations.insert (some t)).2)
    generalize hp : s.scatterOperations.insert (some t) = p at hnone hops htasks
    have ha : (!(s.terminalExt o.id).scatterOperations.contains p.2) = true := by
      simpa [hnone] using hops
    let s₁ := { s with scatterOperations := p.1 }.setTerminalExt o.id { s.terminalExt o.id with
      scatterOperations := (s.terminalExt o.id).scatterOperations ++ [p.2] }
    have hr : s.sgScatter t data =
        .ok (s₁, [.sendScatter e.data.fsm.mappedId p.2 data], some p.2) := by
      simp only [sgScatter, terminal!, ho, Except.ok_bind, he, hi, hsub, hp, ha, assert_true,
        setTerminalExt_leaf, hc]
      rfl
    refine ⟨s₁, _, _, hr, SameGather.operations.trans .setTerminalExt, rfl, rfl, fun i hi => ?_⟩
    cases hi
    simpa [hnone] using htasks

theorem sgCancelScatter_ok (op : Id) (h : Tracked False m s) (ho : s.terminals t = some o) :
    ∃ s' es b, s.sgCancelScatter t op = .ok (s', es, b) ∧ SameGather s s' ∧ gathers es = [] ∧
      s'.terminals = s.terminals ∧ (b = true → op ∈ o.tasks.map Prod.fst) := by
  obtain ⟨e, he, hi, _⟩ := exists_terminal! (h.object ho)
  have hops := h.inv.ops (h.proper ho) op
  have htasks := h.inv.tasks (h.proper ho) op
  cases hc : (s.terminalExt o.id).scatterOperations.contains op
  case false =>
    refine ⟨s, [.threw .invalidId], false, ?_, .refl s, rfl, rfl, by simp⟩
    simp only [sgCancelScatter, terminal!, ho, Except.ok_bind, he, hi, hc]
    rfl
  case true =>
    have hget := hops.mp (List.contains_iff_mem.mp hc)
    let s₁ := s.setTerminalExt o.id { s.terminalExt o.id with
      scatterOperations := (s.terminalExt o.id).scatterOperations.erase op }
    let s₂ := { s₁ with scatterOperations := s.scatterOperations.set op none }
    have hr : s.sgCancelScatter t op = .ok (s₂, [], true) := by
      simp only [sgCancelScatter, terminal!, ho, Except.ok_bind, he, hi, hc]
      rw [show (s.setTerminalExt o.id _).scatterOperations = s.scatterOperations from rfl, hget]
      rfl
    exact ⟨s₂, _, _, hr, SameGather.setTerminalExt.trans .operations, rfl, rfl, fun _ => htasks.mpr hget⟩

-- What holds between two steps is kept by a function that does not change the state of the base class
-- and causes events of the kind `A`.
structure Serves (A : Event → Prop) (m : Id → Bool) (s : LeafLogic) (P : Multiset Pending)
    (r : LeafLogic × List Effect) (Q : Multiset Pending) : Prop where
  steady  : Steady m r.1 Q
  leaf    : r.1.leaf = s.leaf
  objects : ∀ t, (r.1.terminals t).map (·.id) = (s.terminals t).map (·.id)
  run     : Run A P (gathers r.2) Q

theorem Serves.trans {r r' : LeafLogic × List Effect} {R : Multiset Pending} (h : Serves A m s P r Q)
    (h' : Serves A m r.1 Q r' R) : Serves A m s P (r'.1, r.2 ++ r'.2) R where
  steady  := h'.steady
  leaf    := h'.leaf.trans h.leaf
  objects := fun t => (h'.objects t).trans (h.objects t)
  run     := gathers_append ▸ h.run.trans h'.run

theorem Serves.after {s₁ : LeafLogic} {r : LeafLogic × List Effect} (h : Serves A m s₁ P r Q)
    (hk : Keeps v s s₁) : Serves A m s P r Q where
  steady  := h.steady
  leaf    := h.leaf.trans hk.leaf
  objects := fun t => (h.objects t).trans (hk.objects t)
  run     := h.run

theorem Steady.serves {r : LeafLogic × List Effect} (h : Steady m s P) (hk : Keeps (s.leaf.view m) s r.1)
    (ht : r.1.Tables Q) (hr : Run Responds P (gathers r.2) Q) :
    Serves Responds m s P r Q where
  steady  := ⟨h.tracked.keeps hk fun hf => hf.elim, ht, hk.leaf ▸ h.fits.mono (hr.le fun _ he => he)⟩
  leaf    := hk.leaf
  objects := hk.objects
  run     := hr

theorem respond_serves (op : Id) {flags : Nat} (data : List Byte) (h : Steady m s P) (ho : s.terminals t = some o)
    (hf : AnswerFlags flags) :
    ∃ r Q, s.sgRespondToScatteredMessage t op flags data = .ok r ∧ Serves Responds m s P r Q := by
  have hot := h.tracked.object ho
  cases Classical.em (∃ p ∈ P, p.operation = op ∧ p.terminal = o.id)
  case inl hp =>
    obtain ⟨p, hp, hop, hpo⟩ := hp
    obtain ⟨Q, hQ⟩ := Multiset.exists_cons_of_mem hp
    subst hQ
    have hc := h.connected (Multiset.mem_cons_self ..)
    rw [← hpo] at hot
    subst hop
    obtain ⟨s', hr, ht⟩ := respond_ok data h.tables ho hpo.symm hf hot hc
    refine ⟨_, Q, hr, h.serves (h.tracked.inv.keeps (sgRespond_same hr)) ht ?_⟩
    exact Run.single (e := .answered p flags) .answered hf
  case inr hn =>
    have hr := respond_unknown data h.tables ho (fun p hp hop hpo => hn ⟨p, hp, hop, hpo⟩) hf hot
    exact ⟨_, P, hr, h.serves (h.tracked.inv.keeps (.refl s)) h.tables .nil⟩

theorem exists_terminal (h : (s.terminals t).isSome = true) : ∃ o, s.terminals t = some o :=
  Option.isSome_iff_exists.mp h

theorem call_serves {c : Call} (h : Steady m s P) (hc : (s.terminals c.terminal).isSome = true) :
    ∃ r Q, s.call c = .ok r ∧ Serves Responds m s P r Q := by
  obtain ⟨o, ho⟩ := exists_terminal hc
  have hquiet : ∀ {r : LeafLogic × List Effect}, s.call c = .ok r → SameGather s r.1 →
      gathers r.2 = [] → ∃ r Q, s.call c = .ok r ∧ Serves Responds m s P r Q := by
    intro r hr hs he
    exact ⟨r, P, hr, h.serves (h.tracked.settled.call hr) (hs.tables h.tables) (he ▸ .nil)⟩
  cases c <;> simp only [Call.terminal] at ho
  case asyncScatterGather t data buffer =>
    obtain ⟨s₁, es, id, hr, hs, he, ht, hi⟩ := sgScatter_ok data h.tracked ho
    cases id
    case none =>
      refine hquiet (r := (s₁, es)) ?_ hs he
      simp only [LeafLogic.call, hr, Except.ok_bind]
      rfl
    case some id =>
      have hot : s₁.terminals t = some o := ht ▸ ho
      have ha : (!(o.tasks.map Prod.fst).contains id) = true := by
        simpa using hi id rfl
      refine hquiet (r := (s₁.setTerminal t (some { o with tasks := o.tasks ++ [(id, buffer)] }), es)) ?_
        (hs.trans (.setTerminal hot rfl)) he
      simp only [LeafLogic.call, hr, Except.ok_bind, terminal!, hot, ha, assert_true]
      rfl
  case cancelScatterGather t id =>
    obtain ⟨s₁, es, b, hr, hs, he, ht, hi⟩ := sgCancelScatter_ok id h.tracked ho
    cases b
    case false =>
      refine hquiet (r := (s₁, es)) ?_ hs he
      simp only [LeafLogic.call, hr, Except.ok_bind]
      rfl
    case true =>
      have hot : s₁.terminals t = some o := ht ▸ ho
      have ha : (o.tasks.map Prod.fst).contains id = true := List.contains_iff_mem.mpr (hi rfl)
      refine hquiet (r := (s₁.setTerminal t (some { o with tasks := o.tasks.filter (·.1 ≠ id) }),
        [.canceled t (some id)])) ?_ (hs.trans (.setTerminal hot rfl)) rfl
      simp only [LeafLogic.call, hr, Except.ok_bind, terminal!, hot, ha, assert_true, if_true]
      rfl
  case asyncReceiveScatteredMessage t buffer =>
    cases hr : o.reply
    case none =>
      refine hquiet (r := (s.setTerminal t (some { o with reply := some buffer }), [])) ?_
        (.setTerminal ho rfl) rfl
      simp only [LeafLogic.call, terminal!, ho, Except.ok_bind, hr]
      rfl
    case some =>
      refine hquiet (r := (s, [.threw .asyncOperationRunning])) ?_ (.refl s) rfl
      simp only [LeafLogic.call, terminal!, ho, Except.ok_bind, hr]
      rfl
  case cancelReceiveScatteredMessage t =>
    cases hr : o.reply
    case none =>
      refine hquiet (r := (s, [])) ?_ (.refl s) rfl
      simp only [LeafLogic.call, terminal!, ho, Except.ok_bind, hr]
      rfl
    case some =>
      refine hquiet (r := (s.setTerminal t (some { o with reply := none }), [.canceled t none])) ?_
        (.setTerminal ho rfl) rfl
      simp only [LeafLogic.call, terminal!, ho, Except.ok_bind, hr]
      rfl
  case respondToScatteredMessage t id data =>
    exact respond_serves _ _ h ho ⟨rfl, rfl, rfl⟩
  case ignoreScatteredMessage t id =>
    exact respond_serves _ _ h ho ⟨rfl, rfl, rfl⟩

theorem calls_serve {cs : List Call} (h : Steady m s P)
    (hc : ∀ c ∈ cs, (s.terminals c.terminal).isSome = true) :
    ∃ r Q, forEach call s cs = .ok r ∧ Serves Responds m s P r Q := by
  induction cs generalizing s P
  case nil => exact ⟨(s, []), P, rfl, h.serves (h.tracked.inv.keeps (.refl s)) h.tables .nil⟩
  case cons c cs ih =>
    obtain ⟨r, Q, hr, hs⟩ := call_serves h (hc c List.mem_cons_self)
    obtain ⟨r', R, hr', hs'⟩ := ih hs.steady fun d hd => by
      have := congrArg Option.isSome (hs.objects d.terminal)
      simp only [Option.isSome_map] at this
      exact this.trans (hc d (List.mem_cons_of_mem _ hd))
    exact ⟨_, R, forEach_ok hr hr', hs.trans hs'⟩

theorem Serves.calls {r : LeafLogic × List Effect} (h : Serves A m s P r Q) {cs : List Call}
    (hc : ∀ c ∈ cs, (s.terminals c.terminal).isSome = true) :
    ∀ c ∈ cs, (r.1.terminals c.terminal).isSome = true := by
  intro c hcs
  have := congrArg Option.isSome (h.objects c.terminal)
  simp only [Option.isSome_map] at this
  exact this.trans (hc c hcs)

-- The delivery of a scattered message to a terminal.

-- A handler is called once.
theorem disarm_serves (op : Id) (buffer : Nat) (data : List Byte) (h : Steady m s P) (ho : s.terminals t = some o) :
    Serves Responds m s P (s.setTerminal t (some { o with reply := none }),
      [.scattered t op (data.length ≤ buffer) data.length]) P := by
  have hsame : SameGather s (s.setTerminal t (some { o with reply := none })) := .setTerminal ho rfl
  exact h.serves (h.tracked.inv.keeps (.reply ho)) (hsame.tables h.tables) .nil

theorem onScatteredMessageReceived_serves (op : Id) (data : List Byte) {cs : List Call} (h : Steady m s P)
    (ho : s.terminals t = some o) (hc : ∀ c ∈ cs, (s.terminals c.terminal).isSome = true) :
    ∃ r Q, s.onScatteredMessageReceived t op data cs = .ok r ∧ Serves Responds m s P r Q := by
  cases hreply : o.reply
  case none =>
    have hf : AnswerFlags gatherDeaf := ⟨rfl, rfl, rfl⟩
    obtain ⟨r, Q, hr, hs⟩ := respond_serves op [] h ho hf
    refine ⟨r, Q, ?_, hs⟩
    simp only [onScatteredMessageReceived, terminal!, ho, Except.ok_bind, hreply]
    exact hr
  case some buffer =>
    have hs₁ := disarm_serves op buffer data h ho
    obtain ⟨r, Q, hr, hs⟩ := calls_serve hs₁.steady (hs₁.calls hc)
    refine ⟨_, Q, ?_, hs₁.trans hs⟩
    simp only [onScatteredMessageReceived, terminal!, ho, Except.ok_bind, hreply]
    rw [hr]
    rfl

-- The pending answer is stored before the delivery.
theorem Steady.stored {b : Binding} {bs : List Binding} (h : Steady m s P)
    (hg : (s.leaf.view m).group bd = some (bs, true)) (hb : b ∈ bs)
    (hn : op ∉ (s.terminalExt b.terminal).gatherOperations.map Prod.fst) :
    ∃ t o, s.leaf.objectOf b.terminal = some t ∧ s.terminals t = some o ∧
      (∀ data calls, scatterTo op bd data calls s b =
        (s.storeGatherOperation op bd b.terminal t o).onScatteredMessageReceived t op data (calls b)) ∧
      Keeps (s.leaf.view m) s (s.storeGatherOperation op bd b.terminal t o) ∧
      Steady m (s.storeGatherOperation op bd b.terminal t o) (⟨op, b.terminal, bd⟩ ::ₘ P) := by
  have hob : (s.leaf.view m).object b.terminal ≠ none :=
    h.tracked.sound.owned.owned bd b (by simp [LeafView.bindings, hg, hb])
  obtain ⟨t, hot⟩ := Option.ne_none_iff_exists'.mp hob
  rw [Leaf.view_object] at hot
  obtain ⟨e, he, hi, het⟩ := exists_terminal! hot
  obtain ⟨o, ho, hoi⟩ := Option.map_eq_some_iff.mp ((h.tracked.objects t b.terminal).mpr hot)
  have hgroup : (s.leaf.bindings.get? bd).isSome = true := by
    have := congrArg Option.isSome hg
    simpa [Leaf.view] using this
  have hk : Keeps (s.leaf.view m) s (s.storeGatherOperation op bd b.terminal t o) :=
    h.tracked.inv.keeps storeGatherOperation_same
  refine ⟨t, o, hot, ho, fun data calls => ?_, hk, h.tracked.keeps hk fun hf => hf.elim,
    storeGatherOperation_ok h.tables ⟨hot, (h.tracked.objects t b.terminal).mpr hot, hgroup⟩ ho hn,
    fun p hp => ?_⟩
  · simp only [scatterTo, he, Except.ok_bind, het, terminal!, ho, hi]
  · cases Multiset.mem_cons.mp hp
    case inl hp => exact ⟨bs, hp ▸ hg, b, hb, hp ▸ rfl⟩
    case inr hp => exact h.fits p hp

theorem scatterTo_serves (data : List Byte) {calls : Binding → List Call} {b : Binding}
    {bs : List Binding} (h : Steady m s P) (hg : (s.leaf.view m).group bd = some (bs, true))
    (hb : b ∈ bs)
    (hn : op ∉ (s.terminalExt b.terminal).gatherOperations.map Prod.fst)
    (hc : ∀ c ∈ calls b, (s.terminals c.terminal).isSome = true) :
    ∃ r Q, scatterTo op bd data calls s b = .ok r ∧
      Serves Responds m s (⟨op, b.terminal, bd⟩ ::ₘ P) r Q := by
  obtain ⟨t, o, _, ho, hst, hk, hs₁⟩ := h.stored hg hb hn
  obtain ⟨r, Q, hr, hs⟩ := onScatteredMessageReceived_serves op data hs₁ ho hc
  exact ⟨r, Q, (hst data calls).trans hr, hs.after hk⟩

-- The terminal does not already owe an answer to the operation whenever the scattered message is
-- delivered to the terminal of a binding.
def Unowed (op bd : Id) (data : List Byte) (calls : Binding → List Call) :
    LeafLogic → List Binding → Prop
  | _, []      => True
  | s, b :: bs =>
    op ∉ (s.terminalExt b.terminal).gatherOperations.map Prod.fst ∧
      match scatterTo op bd data calls s b with
      | .ok r    => Unowed op bd data calls r.1 bs
      | .error _ => True

-- The events that a Scatter message causes.
def Scatters (op bd : Id) : Event → Prop
  | .stored p           => p.operation = op ∧ p.group = bd
  | .answered _ flags   => AnswerFlags flags
  | _                   => False

theorem Serves.store {r : LeafLogic × List Effect} (h : Serves Responds m s (p ::ₘ P) r Q)
    (hp : p.operation = op ∧ p.group = bd)
    (hn : ∀ q ∈ P, q.operation = p.operation → q.terminal ≠ p.terminal) :
    Serves (Scatters op bd) m s P r Q where
  steady  := h.steady
  leaf    := h.leaf
  objects := h.objects
  run     := by
    refine .cons (e := .stored p) (.stored hn) hp (h.run.mono fun e he => ?_)
    cases e
    case answered => exact he
    all_goals cases he

theorem forEach_scatterTo {data : List Byte} {calls : Binding → List Call} {bs cs : List Binding}
    (h : Steady m s P) (hg : (s.leaf.view m).group bd = some (bs, true)) (hb : ∀ b ∈ cs, b ∈ bs)
    (hu : Unowed op bd data calls s cs)
    (hc : ∀ b ∈ bs, ∀ c ∈ calls b, (s.terminals c.terminal).isSome = true) :
    ∃ r Q, forEach (scatterTo op bd data calls) s cs = .ok r ∧ Serves (Scatters op bd) m s P r Q := by
  induction cs generalizing s P
  case nil =>
    exact ⟨(s, []), P, rfl, h, rfl, fun _ => rfl, .nil⟩
  case cons b cs ih =>
    have hbb := hb b List.mem_cons_self
    obtain ⟨hn, hu⟩ := hu
    obtain ⟨r, Q, hr, hs⟩ := scatterTo_serves data h hg hbb hn (hc b hbb)
    rw [hr] at hu
    have hs := hs.store ⟨rfl, rfl⟩ fun q hq hop ht => hn (h.tables.terminals.mem.mpr ⟨q, hq, hop, ht⟩)
    obtain ⟨r', R, hr', hs'⟩ := ih hs.steady (by rwa [hs.leaf])
      (fun c hc => hb c (List.mem_cons_of_mem _ hc)) hu fun c hcb => hs.calls (hc c hcb)
    exact ⟨_, R, forEach_ok hr hr', hs.trans hs'⟩

-- The scattered message is delivered if the binding group is established.
theorem onScatter_eq (data : List Byte) (calls : Binding → List Call) {e : Element BindingInfo}
    (h : s.Tables P) (hg : s.leaf.bindings.get? bd = some e)
    (hop : op ∉ s.gatherOperations.map Prod.fst) :
    s.onScatter bd op data calls = if e.data.established then
      forEach (scatterTo op bd data calls) s e.data.bindings else .ok (s, []) := by
  cases Register.get?_id hg
  have he : s.leaf.binding! e.id = .ok e := by rw [Leaf.binding!, hg]
  have hno : op ∉ (s.bindingExt e.id).map Prod.fst := by
    intro hm
    obtain ⟨x, hx, hxo⟩ := List.mem_map.mp hm
    obtain ⟨q, hq, _, hv⟩ := (Indexes.mem h.groups).mp hx
    exact hop (h.leaf.mem.mpr ⟨q, hq, (congrArg Prod.fst hv).trans hxo⟩)
  simp only [onScatter, he, Except.ok_bind, assert_of (decide_eq_true hop),
    assert_of (decide_eq_true hno)]
  cases e.data.established <;> rfl

theorem onScatter_serves {data : List Byte} {calls : Binding → List Call} (h : Steady m s P)
    (hb : (s.leaf.bindings.get? bd).isSome = true)
    (hop : op ∉ s.gatherOperations.map Prod.fst)
    (hu : Unowed op bd data calls s (s.leaf.bindingsOf bd))
    (hc : ∀ b ∈ s.leaf.bindingsOf bd, ∀ c ∈ calls b, (s.terminals c.terminal).isSome = true) :
    ∃ r Q, s.onScatter bd op data calls = .ok r ∧ Serves (Scatters op bd) m s P r Q := by
  obtain ⟨e, hg⟩ := Option.isSome_iff_exists.mp hb
  have hbs : s.leaf.bindingsOf bd = e.data.bindings := by simp [Leaf.bindingsOf, hg]
  have heq := onScatter_eq data calls h.tables hg hop
  cases hest : e.data.established <;> simp only [hest] at heq
  case false => exact ⟨(s, []), P, heq, h, rfl, fun _ => rfl, .nil⟩
  case true =>
    have hgr : (s.leaf.view m).group bd = some (e.data.bindings, true) := by
      simp [Leaf.view, hg, hest]
    rw [hbs] at hu hc
    obtain ⟨r, Q, hr, hs⟩ := forEach_scatterTo h hgr (fun _ hb => hb) hu hc
    exact ⟨r, Q, heq.trans hr, hs⟩

-- The answers of other leafs.

theorem gathered_ok (flags : Nat) (data : List Byte) (goOn : Bool) (ho : s.terminals t = some o)
    (hm : op ∈ o.tasks.map Prod.fst) :
    ∃ o' es, s.onGatheredMessageReceived t op flags data goOn =
      .ok (s.setTerminal t (some o'), es) ∧ o'.id = o.id ∧ gathers es = [] := by
  obtain ⟨task, htask, htop⟩ := List.mem_map.mp hm
  cases hf : o.tasks.find? (·.1 = op)
  case none      => exact absurd htop (by simpa using List.find?_eq_none.mp hf task htask)
  case some task =>
    let o' := if !goOn || finished flags then { o with tasks := o.tasks.filter (·.1 ≠ op) } else o
    have hr : s.onGatheredMessageReceived t op flags data goOn = .ok (s.setTerminal t (some o'),
        [.gathered t op flags (data.length ≤ task.2) data.length]) := by
      simp only [onGatheredMessageReceived, terminal!, ho, Except.ok_bind, hf]
      rfl
    refine ⟨o', _, hr, ?_, rfl⟩
    simp only [o']
    split <;> rfl

theorem releaseScatterOperation_run (ho : s.terminals t = some o) (hot : s.leaf.objectOf o.id = some t)
    (hc : op ∈ (s.terminalExt o.id).scatterOperations) :
    ∃ s', s.releaseScatterOperation t op = .ok s' ∧ SameGather s s' ∧
      s'.scatterOperations = s.scatterOperations := by
  obtain ⟨e, he, hi, _⟩ := exists_terminal! hot
  have ha : (s.terminalExt o.id).scatterOperations.contains op = true := List.contains_iff_mem.mpr hc
  let s' := s.setTerminalExt o.id { s.terminalExt o.id with
    scatterOperations := (s.terminalExt o.id).scatterOperations.erase op }
  have hr : s.releaseScatterOperation t op = .ok s' := by
    simp only [releaseScatterOperation, terminal!, ho, Except.ok_bind, he, hi, assert_of ha]
    rfl
  exact ⟨s', hr, .setTerminalExt, rfl⟩

theorem onGather_serves (flags : Nat) (data : List Byte) (goOn : Bool) (h : Steady m s P)
    (hop : (s.scatterOperations.get? op).isSome = true) :
    ∃ r, s.onGather op flags data goOn = .ok r ∧ Serves Responds m s P r P := by
  have hquiet : ∀ {r : LeafLogic × List Effect}, s.onGather op flags data goOn = .ok r →
      SameGather s r.1 → gathers r.2 = [] →
      ∃ r, s.onGather op flags data goOn = .ok r ∧ Serves Responds m s P r P := by
    intro r hr hs he
    exact ⟨r, hr, h.serves (h.tracked.inv.onGather hr) (hs.tables h.tables) (he ▸ .nil)⟩
  obtain ⟨x, hx⟩ := Option.isSome_iff_exists.mp hop
  cases x
  case none =>
    cases hf : finished flags
    case false =>
      refine hquiet (r := (s, [])) ?_ (.refl s) rfl
      simp only [onGather, hx, hf]
      rfl
    case true =>
      refine hquiet (r := (s.eraseScatterOperation op, [])) ?_ .operations rfl
      simp only [onGather, hx, hf]
      rfl
  case some t =>
    obtain ⟨o, hpr⟩ := h.tracked.inv.owner hx
    have hot : s.leaf.objectOf o.id = some t := Leaf.view_object ▸ hpr.right
    obtain ⟨o', es, hr, hoi, hes⟩ := gathered_ok flags data goOn hpr.left
      ((h.tracked.inv.tasks hpr op).mpr hx)
    have hs₁ : SameGather s (s.setTerminal t (some o')) := .setTerminal hpr.left hoi
    obtain ⟨s₂, hr₂, hs₂, hops⟩ := releaseScatterOperation_run (s := s.setTerminal t (some o')) (o := o')
      (Function.update_self ..) (hoi ▸ hot) (hoi ▸ (h.tracked.inv.ops hpr op).mpr hx)
    have ha : (s₂.scatterOperations.get? op).isSome = true := by
      rw [hops]
      exact hop
    have hs := hs₁.trans hs₂
    cases goOn
    case true =>
      cases hf : finished flags
      case false =>
        refine hquiet (r := (s.setTerminal t (some o'), es)) ?_ hs₁ hes
        simp only [onGather, hx, hr, Except.ok_bind, hf]
        rfl
      case true =>
        refine hquiet (r := (s₂.eraseScatterOperation op, es)) ?_ (hs.trans .operations) hes
        simp only [onGather, hx, hr, Except.ok_bind, hf, if_true, hr₂]
        rfl
    case false =>
      let s₃ := { s₂ with scatterOperations := s₂.scatterOperations.set op none }
      have hs₃ : SameGather s s₃ := hs.trans .operations
      cases hf : finished flags
      case false =>
        refine hquiet (r := (s₃, es)) ?_ hs₃ hes
        simp only [onGather, hx, hr, Except.ok_bind, hf, hr₂, assert_of ha]
        rfl
      case true =>
        refine hquiet (r := (s₃.eraseScatterOperation op, es)) ?_ (hs₃.trans .operations) hes
        simp only [onGather, hx, hr, Except.ok_bind, hf, hr₂, assert_of ha]
        rfl

end Yogi.ScatterGather.LeafLogic
