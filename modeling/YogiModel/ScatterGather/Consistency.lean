import YogiModel.ScatterGather.Bookkeeping

namespace Yogi.ScatterGather.LeafLogic

open LeafView Pending
open Wire (Byte)

variable {s s' : LeafLogic} {m : Id → Bool} {P Q : Multiset Pending} {p : Pending}
  {t : Nat} {op tm bd : Id} {o : Terminal} {A : Event → Prop}

-- The steps of the leaf keep the tables.

-- What the base class does in a step.
def effects (s : LeafLogic) (a : Leaf.Action) : List Leaf.Effect :=
  match s.leaf.act a with
  | .ok r    => r.2
  | .error _ => []

-- What a step can do to the pending answers.
def Causes (s : LeafLogic) : Action → Event → Prop
  | .base (.bindingDestroyed b i) => Destroys b i
  | .base a                       => Drops (s.effects a)
  | .scatterReceived bd op _ _    => Scatters op bd
  | .call _                       => Responds
  | .gatherReceived _ _ _ _       => Responds
  | _                             => fun _ => False

-- The messages that a leaf gets after a Scatter do not refer to an operation with pending answers, and
-- the scattered message is not delivered to a terminal that owes an answer to it.
def Accepts (s : LeafLogic) : Action → Prop
  | .scatterReceived bd op data calls =>
    op ∉ s.gatherOperations.map Prod.fst ∧ Unowed op bd data calls s (s.leaf.bindingsOf bd)
  | _                                 => True

theorem Steady.init : Steady m {} 0 where
  tracked := .init
  tables  := ⟨rfl, Indexes.zero fun _ => rfl, Indexes.zero fun _ => rfl, Multiset.nodup_zero, by simp⟩
  fits    := by simp [Fits]

theorem Settles.steady {x : Result} {r} (h : Settles A P x) (hx : x = .ok r)
    (ht : ∃ m, Tracked False m r.1) :
    ∃ Q m, Steady m r.1 Q ∧ Run A P (gathers r.2) Q := by
  obtain ⟨r', Q, hr, htab, hfits, hrun⟩ := h
  cases hx.symm.trans hr
  obtain ⟨m, hm⟩ := ht
  exact ⟨Q, m, ⟨hm, htab, hfits m⟩, hrun⟩

theorem Serves.settles {x : Result} {r} (h : Serves A m s P r Q) (hx : x = .ok r) : Settles A P x :=
  ⟨r, Q, hx, h.steady.tables, fun _ => h.steady.fits, h.run⟩

theorem effects_eq {a : Leaf.Action} {q} (h : s.leaf.act a = .ok q) : s.effects a = q.2 := by
  simp only [effects, h]

theorem act_settles {a : Leaf.Action} (h : Steady m s P) (he : s.enabled (.base a)) :
    Settles (Causes s (.base a)) P (s.step (.base a)) := by
  cases hq : s.leaf.act a
  case error =>
    have hok := he.right
    rw [hq] at hok
    cases hok
  case ok q =>
    replace he := he.left
    have heq := effects_eq hq
    have hsame : ∀ v : LeafView, v.object = (s.leaf.view m).object → v.group = (s.leaf.view m).group →
        v.mapped = m → Passing v s P := fun v ho hg hm =>
      .of_same h (.refl s) h.tables (fun p hp => hg ▸ h.fits p hp)
        (fun tm => (congrFun ho tm).trans Leaf.view_object) hm
    cases a
    case connectionStarted b =>
      have hruns := h.tracked.sound.inv.runs_connectionStarted he hq
      have hst : s.step (.base (.connectionStarted b)) = s.onBase q := by
        rw [step, hq]
        · rfl
        all_goals simp
      rw [hst]
      exact onBase_settles hruns (hsame _ rfl rfl rfl) fun _ hd => by (rwa [Causes, heq]; simp)
    case connectionDestroyed =>
      have hruns := h.tracked.sound.inv.runs_connectionDestroyed he hq
      have hst : s.step (.base .connectionDestroyed) = s.onBase q := by
        rw [step, hq]
        · rfl
        all_goals simp
      rw [hst]
      exact onBase_settles hruns (hsame _ rfl rfl rfl) fun _ hd => by (rwa [Causes, heq]; simp)
    case messageReceived msg =>
      have hruns := h.tracked.sound.inv.runs_message he.left he.right hq
      have hst : s.step (.base (.messageReceived msg)) = s.onBase q := by
        rw [step, hq]
        · rfl
        all_goals simp
      rw [hst]
      exact onBase_settles hruns (hsame _ rfl rfl rfl) fun _ hd => by (rwa [Causes, heq]; simp)
    case newTerminal t x =>
      cases hq
      exact newTerminal_settles h he
    case newBinding b x =>
      cases hq
      exact newBinding_settles h
    case terminalDestroyed t i =>
      have := terminalDestroyed_settles h he.left he.right hq
      rwa [← heq] at this
    case bindingDestroyed b i =>
      have hst : s.step (.base (.bindingDestroyed b i)) = s.onBase q := by
        rw [step, hq]
        · rfl
        all_goals simp
      rw [hst]
      exact bindingDestroyed_settles h he hq

theorem onSubscribe_settles {b : Bool} (h : Steady m s P) (hc : s.leaf.connection = some true)
    (hs : s.subscribed tm = !b) (ht : (s.leaf.terminals.get? tm).isSome = true) :
    Settles A P (s.onSubscribe tm b) := by
  obtain ⟨e, hg⟩ := Option.isSome_iff_exists.mp ht
  cases Register.get?_id hg
  have he : s.leaf.terminal! e.id = .ok e := by rw [Leaf.terminal!, hg]
  let s₁ := { s with subscribed := Function.update s.subscribed e.id b }
  let es := (SubscribableLeaf.publishSubscriptionState s.leaf e.id b).map Effect.subscribable
  have hr : s.onSubscribe e.id b = .ok (s₁, es) := by
    simp only [onSubscribe, assert_of (decide_eq_true hc), Except.ok_bind, he,
      assert_of (decide_eq_true hs)]
    rfl
  refine ⟨(s₁, es), P, hr, h.tables.congr rfl rfl rfl (fun _ => rfl) fun _ => rfl,
    fun _ => h.fits, ?_⟩
  rw [show gathers es = [] from List.filterMap_eq_nil_iff.mpr (by simp [es])]
  exact .nil

theorem step_settles {a : Action} (h : Steady m s P) (he : s.enabled a) (ha : s.Accepts a) :
    Settles (Causes s a) P (s.step a) := by
  cases a
  case base a => exact act_settles h he
  case call c =>
    obtain ⟨r, Q, hr, hs⟩ := call_serves h he
    exact hs.settles hr
  case subscribeReceived tm =>
    obtain ⟨hc, hs, e, hg, _⟩ := he
    exact onSubscribe_settles h hc hs (Option.isSome_iff_exists.mpr ⟨e, hg⟩)
  case unsubscribeReceived tm => exact onSubscribe_settles h he.left he.right.left he.right.right
  case scatterReceived bd op data calls =>
    obtain ⟨r, Q, hr, hs⟩ := onScatter_serves h he.right.left ha.left ha.right he.right.right
    exact hs.settles hr
  case gatherReceived op flags data goOn =>
    obtain ⟨r, hr, hs⟩ := onGather_serves flags data goOn h he.right
    exact hs.settles hr

-- A step keeps the tables and its effects on the pending answers are those of its kind.
theorem step_steady {a : Action} (h : Steady m s P) (he : s.enabled a) (ha : s.Accepts a) :
    ∃ r Q m', s.step a = .ok r ∧ Steady m' r.1 Q ∧ Run (Causes s a) P (gathers r.2) Q := by
  have hs := step_settles h he ha
  have ht := hs
  obtain ⟨r, _, hr, _⟩ := ht
  obtain ⟨Q, m', hq, hrun⟩ := hs.steady hr (h.tracked.step he (fun hf => hf.elim) hr)
  exact ⟨r, Q, m', hr, hq, hrun⟩

theorem steady_invariant :
    (machine.restrict fun s a => s.Accepts a).Invariant fun s => ∃ m P, Steady m s P where
  init := by
    intro s hs
    exact ⟨fun _ => false, 0, (hs : s = {}) ▸ .init⟩
  step := by
    rintro s a ⟨m, P, h⟩ he
    obtain ⟨r, Q, m', hr, hq, _⟩ := step_steady h he.left he.right
    refine ⟨r.1, ?_, m', Q, hq⟩
    show (s.step a).map Prod.fst = .ok r.1
    rw [hr]
    rfl

-- The tables describe the same pending answers, and the entries of terminals name the groups that have
-- the matching entries.
structure Consistent (s : LeafLogic) : Prop where
  groups    : (s.gatherOperations.map fun e => (e.1, some e.2)).Perm
    (s.leaf.bindings.elements.flatMap fun bd =>
      (s.bindingExt bd.id).map fun e => (e.1, s.leaf.objectOf e.2))
  terminals : (s.gatherOperations.map fun e => (e.1, some e.2)).Perm
    (s.leaf.terminals.elements.flatMap fun tm =>
      (s.terminalExt tm.id).gatherOperations.map fun e => (e.1, s.leaf.objectOf tm.id))
  entries   : ∀ tm, ∀ e ∈ (s.terminalExt tm).gatherOperations,
    (s.leaf.bindings.get? e.2).isSome = true ∧ (e.1, tm) ∈ s.bindingExt e.2

theorem Tables.consistent (h : s.Tables P) : Consistent s where
  groups    := by
    have hg := h.groups.flatMap (f := fun _ e => (e.1, s.leaf.objectOf e.2))
      s.leaf.bindings.elements_nodup fun p hp => by
        obtain ⟨_, hk⟩ := h.known p hp
        obtain ⟨e, he⟩ := Option.isSome_iff_exists.mp hk.group
        have hi := Register.get?_id he
        exact List.mem_map.mpr ⟨e, Register.mem_elements_iff.mpr (hi ▸ he), hi⟩
    rw [List.flatMap_map, ← h.leaf] at hg
    exact Multiset.coe_eq_coe.mp (Multiset.map_coe .. ▸ hg.symm)
  terminals := by
    have ht := h.terminals.flatMap (f := fun tm e => (e.1, s.leaf.objectOf tm))
      s.leaf.terminals.elements_nodup fun p hp => by
        obtain ⟨_, hk⟩ := h.known p hp
        obtain ⟨e, he, _⟩ := Option.bind_eq_some_iff.mp hk.terminal
        have hi := Register.get?_id he
        exact List.mem_map.mpr ⟨e, Register.mem_elements_iff.mpr (hi ▸ he), hi⟩
    rw [List.flatMap_map, ← h.leaf] at ht
    exact Multiset.coe_eq_coe.mp (Multiset.map_coe .. ▸ ht.symm)
  entries   := by
    intro tm e he
    obtain ⟨p, hp, ht, hv⟩ := (Indexes.mem h.terminals).mp he
    obtain ⟨_, hk⟩ := h.known p hp
    rw [← ht, ← hv]
    exact ⟨hk.group, (Indexes.mem h.groups).mpr ⟨p, hp, rfl, rfl⟩⟩

-- The calls by which the terminal `t` answers a scattered message.
def Answers (t : Nat) (op : Id) : Call → Prop
  | .respondToScatteredMessage u id _ => u = t ∧ id = op
  | .ignoreScatteredMessage u id      => u = t ∧ id = op
  | _                                 => False

-- A terminal can answer a scattered message if and only if it owes the answer, and only once.
structure Answerable (s : LeafLogic) : Prop where
  owed   : ∀ t op c, (op, t) ∈ s.gatherOperations → Answers t op c →
    ∃ s' flags data, s.call c = .ok (s', [.sendGather op flags data]) ∧
      s.gatherOperations.Perm ((op, t) :: s'.gatherOperations) ∧
      ∀ c', Answers t op c' → s'.call c' = .ok (s', [.threw .invalidId])
  unowed : ∀ t op c, (op, t) ∉ s.gatherOperations → (s.terminals t).isSome = true →
    Answers t op c → s.call c = .ok (s, [.threw .invalidId])

theorem Answers.respond {c : Call} (h : Answers t op c) : ∃ flags data, AnswerFlags flags ∧
    ∀ s : LeafLogic, s.call c = s.sgRespondToScatteredMessage t op flags data := by
  cases c <;> simp only [Answers] at h
  case respondToScatteredMessage =>
    rw [h.left, h.right]
    exact ⟨0, _, ⟨rfl, rfl, rfl⟩, fun _ => rfl⟩
  case ignoreScatteredMessage =>
    rw [h.left, h.right]
    exact ⟨gatherIgnored, [], ⟨rfl, rfl, rfl⟩, fun _ => rfl⟩

-- The entries of the leaf for pending answers.
theorem Tables.owed (h : s.Tables P) : (op, t) ∈ s.gatherOperations ↔
    ∃ p ∈ P, p.operation = op ∧ s.leaf.objectOf p.terminal = some t := by
  have := congrArg ((op, some t) ∈ ·) h.leaf
  simpa using this

theorem Steady.unowed {c : Call} (h : Steady m s P) (hn : (op, t) ∉ s.gatherOperations)
    (ho : (s.terminals t).isSome = true) (ha : Answers t op c) :
    s.call c = .ok (s, [.threw .invalidId]) := by
  obtain ⟨o, ho⟩ := exists_terminal ho
  obtain ⟨flags, data, hf, hc⟩ := ha.respond
  have hot := h.tracked.object ho
  rw [hc]
  exact respond_unknown data h.tables ho
    (fun p hp hop hpo => hn (h.tables.owed.mpr ⟨p, hp, hop, hpo ▸ hot⟩)) hf hot

theorem Steady.answerable (h : Steady m s P) : Answerable s where
  unowed := fun _ _ _ => h.unowed
  owed   := by
    intro t op c hm ha
    obtain ⟨p, hp, hop, hot⟩ := h.tables.owed.mp hm
    obtain ⟨Q, hQ⟩ := Multiset.exists_cons_of_mem hp
    subst hQ hop
    obtain ⟨o, ho, hoi⟩ := Option.map_eq_some_iff.mp ((h.tracked.objects t p.terminal).mpr hot)
    obtain ⟨flags, data, hf, hc⟩ := ha.respond
    obtain ⟨s', hr, ht⟩ := respond_ok data h.tables ho hoi hf hot (h.connected hp)
    have hk := h.tracked.inv.keeps (sgRespond_same hr)
    have hs : Steady m s' Q := ⟨h.tracked.keeps hk fun hf => hf.elim, ht,
      hk.leaf ▸ h.fits.mono (Multiset.le_cons_self ..)⟩
    refine ⟨s', _, data, (hc s).trans hr, ?_, fun c' ha' => hs.unowed ?_ ?_ ha'⟩
    case refine_1 =>
      have hg := h.tables.leaf
      rw [LeafTable, Multiset.map_cons, hot] at hg
      have hg' := ht.leaf
      rw [LeafTable, hk.leaf] at hg'
      rw [← hg', ← Multiset.map_cons (fun e : Id × Nat => (e.1, some e.2)) (p.operation, t),
        Multiset.cons_coe] at hg
      exact Multiset.coe_eq_coe.mp (Multiset.map_injective (fun a b hab => by
        simpa [Prod.ext_iff] using hab) hg)
    case refine_2 =>
      intro hm'
      obtain ⟨q, hq, hqop, hqt⟩ := ht.owed.mp hm'
      rw [hk.leaf] at hqt
      have hqp := Option.some.inj (((h.tracked.objects t q.terminal).mpr hqt).symm.trans
        ((h.tracked.objects t p.terminal).mpr hot))
      exact h.tables.single.of_cons.right q hq hqop hqp
    case refine_3 =>
      have := congrArg Option.isSome (hk.objects t)
      simpa [ho] using this

-- The handler of the scattered message is called after the answer has become a pending one.
def Handled (op bd : Id) (data : List Byte) (calls : Binding → List Call) (s : LeafLogic)
    (b : Binding) : Prop :=
  ∃ t o, s.leaf.objectOf b.terminal = some t ∧ s.terminals t = some o ∧
    ∀ buffer, o.reply = some buffer → ∃ s₁,
      scatterTo op bd data calls s b = (do
        let r ← forEach call s₁ (calls b)
        return (r.1, .scattered t op (data.length ≤ buffer) data.length :: r.2)) ∧
      (op, t) ∈ s₁.gatherOperations ∧ Answerable s₁

-- All deliveries of a step.
def Delivers (s : LeafLogic) : Action → Prop
  | .scatterReceived bd op data calls =>
    ∀ e ∈ s.leaf.bindings.get? bd, e.data.established = true →
      ∀ pre b post, e.data.bindings = pre ++ b :: post →
        ∃ r, forEach (scatterTo op bd data calls) s pre = .ok r ∧ Handled op bd data calls r.1 b
  | _                                 => True

theorem Unowed.of_append {data : List Byte} {calls : Binding → List Call} {bs cs : List Binding}
    (h : Unowed op bd data calls s (bs ++ cs)) : Unowed op bd data calls s bs := by
  induction bs generalizing s
  case nil => trivial
  case cons b bs ih =>
    obtain ⟨hn, hu⟩ := h
    refine ⟨hn, ?_⟩
    split at hu
    case h_1 => exact ih hu
    case h_2 => trivial

theorem Unowed.after {data : List Byte} {calls : Binding → List Call} {bs cs : List Binding} {r}
    (h : Unowed op bd data calls s (bs ++ cs)) (hr : forEach (scatterTo op bd data calls) s bs = .ok r) :
    Unowed op bd data calls r.1 cs := by
  induction bs generalizing s r
  case nil =>
    cases hr
    exact h
  case cons b bs ih =>
    obtain ⟨p, q, hp, hq, hpq⟩ := forEach_cons.mp hr
    obtain ⟨_, hu⟩ := h
    rw [hp] at hu
    rw [hpq]
    exact ih (r := q) hu hq

theorem Steady.handled {data : List Byte} {calls : Binding → List Call} {b : Binding}
    {bs : List Binding} (h : Steady m s P) (hg : (s.leaf.view m).group bd = some (bs, true))
    (hb : b ∈ bs) (hn : op ∉ (s.terminalExt b.terminal).gatherOperations.map Prod.fst) :
    Handled op bd data calls s b := by
  obtain ⟨t, o, hot, ho, hst, _, hs⟩ := h.stored hg hb hn
  refine ⟨t, o, hot, ho, fun buffer hreply => ?_⟩
  let s₁ := s.storeGatherOperation op bd b.terminal t o
  have hs₁ : Steady m (s₁.setTerminal t (some { o with reply := none })) (⟨op, b.terminal, bd⟩ ::ₘ P) :=
    (disarm_serves op buffer data hs ho).steady
  refine ⟨s₁.setTerminal t (some { o with reply := none }), ?_,
    hs₁.tables.owed.mpr ⟨_, Multiset.mem_cons_self .., rfl, hot⟩, hs₁.answerable⟩
  rw [hst]
  simp only [onScatteredMessageReceived, terminal!, Except.ok_bind, hreply,
    show (s.storeGatherOperation op bd b.terminal t o).terminals t = some o from ho]
  rfl

theorem Steady.delivers {a : Action} (h : Steady m s P) (he : s.enabled a) (ha : s.Accepts a) :
    s.Delivers a := by
  cases a
  case scatterReceived bd op data calls =>
    intro e hg hest pre b post hbs
    have hgr : (s.leaf.view m).group bd = some (e.data.bindings, true) := by
      simp [Leaf.view, show s.leaf.bindings.get? bd = some e from hg, hest]
    have hbd : s.leaf.bindingsOf bd = e.data.bindings := by
      simp [Leaf.bindingsOf, show s.leaf.bindings.get? bd = some e from hg]
    have hu := ha.right
    have hc := he.right.right
    rw [hbd] at hu hc
    have hsub : ∀ c ∈ pre, c ∈ e.data.bindings := fun c hc => by simp [hbs, hc]
    rw [hbs] at hu
    obtain ⟨r, Q, hr, hs⟩ := forEach_scatterTo h hgr hsub hu.of_append hc
    obtain ⟨hn, _⟩ := hu.after hr
    exact ⟨r, hr, hs.steady.handled (hs.leaf ▸ hgr) (by simp [hbs]) hn⟩
  all_goals exact trivial

instance decidableUnowed (op bd : Id) (data : List Byte) (calls : Binding → List Call) :
    ∀ s bs, Decidable (Unowed op bd data calls s bs)
  | _, []      => .isTrue trivial
  | s, b :: bs => by
    simp only [Unowed]
    cases scatterTo op bd data calls s b
    case error => infer_instance
    case ok r  =>
      have := decidableUnowed op bd data calls r.1 bs
      infer_instance

instance : ∀ s a, Decidable (Accepts s a)
  | s, .scatterReceived bd op data calls =>
    inferInstanceAs (Decidable (op ∉ s.gatherOperations.map Prod.fst ∧
      Unowed op bd data calls s (s.leaf.bindingsOf bd)))
  | _, .base _                           => .isTrue trivial
  | _, .call _                           => .isTrue trivial
  | _, .subscribeReceived _              => .isTrue trivial
  | _, .unsubscribeReceived _            => .isTrue trivial
  | _, .gatherReceived _ _ _ _           => .isTrue trivial

instance : ∀ s a, Decidable ((machine.restrict fun s a => s.Accepts a).enabled s a) :=
  fun s a => inferInstanceAs (Decidable (machine.enabled s a ∧ s.Accepts a))

-- Two terminals are bound to a terminal of another leaf and get a scattered message.
def scatteredToTwo : List Action :=
  [.base (.connectionStarted false), .base (.newTerminal 0 ⟨1, "a", false⟩),
    .base (.newTerminal 1 ⟨1, "b", false⟩), .base (.newBinding ⟨0, 1⟩ ⟨1, "c", false⟩),
    .base (.newBinding ⟨1, 2⟩ ⟨1, "c", false⟩),
    .base (.messageReceived (.terminalDescription ⟨1, "c", false⟩ 5)),
    .call (.asyncReceiveScatteredMessage 0 8), .call (.asyncReceiveScatteredMessage 1 8),
    .scatterReceived 1 7 [1] fun _ => []]

-- Two bindings of one terminal, which answers once.
def scatteredTwice : List Action :=
  [.base (.connectionStarted false), .base (.newTerminal 0 ⟨1, "a", false⟩),
    .base (.newBinding ⟨0, 1⟩ ⟨1, "b", false⟩), .base (.newBinding ⟨1, 1⟩ ⟨1, "b", false⟩),
    .base (.messageReceived (.terminalDescription ⟨1, "b", false⟩ 5)),
    .call (.asyncReceiveScatteredMessage 0 8),
    .scatterReceived 1 7 [1] fun _ => [.asyncReceiveScatteredMessage 0 8],
    .call (.ignoreScatteredMessage 0 7)]

end Yogi.ScatterGather.LeafLogic
