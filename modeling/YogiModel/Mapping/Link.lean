import YogiModel.Mapping.Refinement

namespace Yogi.Mapping

open FsmState

-- The objects of an endpoint of a connection are told apart by their roles and identifiers.
abbrev Key := Role × Identifier

def Key.flip (k : Key) : Key := (k.1.flip, k.2)

@[simp] theorem Key.flip_flip {k : Key} : Key.flip (Key.flip k) = k := by
  simp [Key.flip]

theorem Key.flip_inj {k k' : Key} : Key.flip k = Key.flip k' ↔ k = k' := by
  constructor
  · intro h
    rw [← Key.flip_flip (k := k), h, Key.flip_flip]
  · exact congrArg _

-- The state machines of an endpoint by the IDs of the objects they belong to.
abbrev Objs := Key → Id → Option Fsm

def Objs.set (A : Objs) (k : Key) (i : Id) (f : Option Fsm) : Objs :=
  Function.update A k (Function.update (A k) i f)

theorem Objs.set_apply {A : Objs} {k i f k' j} :
    A.set k i f k' j = if k' = k ∧ j = i then f else A k' j := by
  simp only [Objs.set, Function.update_apply]
  cases Decidable.em (k' = k)
  case inl h => subst h; simp [Function.update_apply]
  case inr h => simp [h]

-- The instances of the protocol for all keys, which share the two channels of a connection. Keys name
-- the role of the object of `p`.
structure Link where
  p   : Key → Peer
  q   : Key → Peer
  pq  : List (Key × Msg)
  qp  : List (Key × Msg)
  idp : Key → Nat → Id
  idq : Key → Nat → Id

def channel (k : Key) (l : List (Key × Msg)) : List Msg :=
  l.filterMap fun m => if m.1 = k then some m.2 else none

namespace Link

def pair (L : Link) (k : Key) : Pair :=
  ⟨L.p k, L.q k, channel k L.pq, channel k L.qp⟩

def swap (L : Link) : Link where
  p   := fun k => L.q k.flip
  q   := fun k => L.p k.flip
  pq  := L.qp.map fun m => (Key.flip m.1, m.2)
  qp  := L.pq.map fun m => (Key.flip m.1, m.2)
  idp := fun k => L.idq k.flip
  idq := fun k => L.idp k.flip

def message (L : Link) (m : Key × Msg) : Message :=
  m.1.1.message (m.2.body m.1.2 (L.idp m.1) (L.idq m.1))

end Link

-- The object of the sender a message names.
def Msg.src : Msg → Option Nat
  | desc a  => some a
  | map _ a => some a
  | _       => none

-- As far as `b` is concerned, `a` has not forgotten about it yet.
def Bound (q : Peer) (a b : Nat) : Prop :=
  ∃ o, q.obj b = some o ∧ (o.rel a ≠ .no ∨ unconfirmed o.state = true)

-- The relation between the protocol and the state machines of the endpoint `p` and the messages it
-- has sent.
structure Tracks (L : Link) (A : Objs) (ab : List Message) : Prop where
  obj   : ∀ {k a o}, (L.p k).obj a = some o → ∃ f, A k (L.idp k a) = some f ∧ Refines f o ∧
    ∀ b, o.mapped = some b → o.acked = false → (o.state = awaitAck → Bound (L.q k) a b) →
      f.mappedId = L.idq k b
  inj   : ∀ {k a a' o o'}, (L.p k).obj a = some o → (L.p k).obj a' = some o' →
    L.idp k a = L.idp k a' → a = a'
  surj  : ∀ {k i f}, A k i = some f → ∃ a o, (L.p k).obj a = some o ∧ L.idp k a = i
  chan  : ab = L.pq.map L.message
  named : ∀ {k m}, (k, m) ∈ L.pq → ∀ {a}, m.src = some a → L.idp k a ≠ 0

structure Link.Rel (L : Link) (A B : Objs) (ab ba : List Message) : Prop where
  inv : ∀ k, (L.pair k).Inv
  a   : Tracks L A ab
  b   : Tracks L.swap B ba

theorem channel_append {k l l'} : channel k (l ++ l') = channel k l ++ channel k l' :=
  List.filterMap_append

theorem channel_tagged {k k' ms} :
    channel k (ms.map (Prod.mk k')) = if k' = k then ms else [] := by
  simp only [channel, List.filterMap_map]
  split
  case isTrue h => simp [h]
  case isFalse h => simp [h]

theorem mem_channel {k l m} : m ∈ channel k l ↔ (k, m) ∈ l := by
  simp [channel]

theorem channel_flip {k l} :
    channel k (l.map fun m => (Key.flip m.1, m.2)) = channel k.flip l := by
  simp only [channel, List.filterMap_map]
  congr 1
  funext m
  have : Key.flip m.1 = k ↔ m.1 = k.flip := by
    rw [← Key.flip_inj, Key.flip_flip]
  simp [this]

namespace Link

variable {L : Link} {A B : Objs} {ab ba : List Message} {k : Key}

theorem pair_swap : L.swap.pair k = (L.pair k.flip).swap := by
  simp only [pair, swap, Pair.swap, channel_flip]

theorem swap_swap : L.swap.swap = L := by
  simp [swap, Function.comp_def]

theorem Rel.swap (h : Rel L A B ab ba) : Rel L.swap B A ba ab where
  inv := fun k => pair_swap ▸ (h.inv k.flip).swap
  a   := h.b
  b   := swap_swap.symm ▸ h.a

-- The pair of the key `k` becomes `s` and `p` sends `ms`.
def act (L : Link) (k : Key) (s : Pair) (ms : List Msg) (qp : List (Key × Msg)) : Link :=
  { L with
    p  := Function.update L.p k s.p
    q  := Function.update L.q k s.q
    pq := L.pq ++ ms.map (Prod.mk k)
    qp := qp }

theorem pair_act {s ms qp} (hpq : s.pq = channel k L.pq ++ ms) (hqp : s.qp = channel k qp)
    (hk : ∀ k', k' ≠ k → channel k' qp = channel k' L.qp) {k'} :
    (L.act k s ms qp).pair k' = if k' = k then s else L.pair k' := by
  simp only [pair, act, Function.update_apply, channel_append, channel_tagged]
  cases Decidable.em (k' = k)
  case inl h =>
    subst h
    simp [← hpq, ← hqp]
  case inr h => simp [h, Ne.symm h, hk k' h]

end Link

-- What is sent on behalf of an object.
def sends (k : Key) (i j : Id) (out : Fsm.Outcome) : List Message :=
  (out.calls.filterMap (·.body k.2 i j)).map k.1.message

namespace Tracks

variable {L L' : Link} {A : Objs} {ab : List Message} {k : Key} {a : Nat} {o : Obj} {f : Fsm}

-- The other endpoint has made a move.
theorem of_remote (h : Tracks L A ab) (hp : ∀ k, (L'.p k).obj = (L.p k).obj) (hidp : L'.idp = L.idp)
    (hidq : L'.idq = L.idq) (hpq : L'.pq ⊆ L.pq) {ab'} (hab : ab' = L'.pq.map L.message)
    (hb : ∀ {k a o b}, (L.p k).obj a = some o → o.state = awaitAck → o.mapped = some b →
      Bound (L'.q k) a b → Bound (L.q k) a b) : Tracks L' A ab' where
  obj   := by
    intro k a o ho
    rw [hp] at ho
    obtain ⟨f, hf, hr, hid⟩ := h.obj ho
    refine ⟨f, hidp ▸ hf, hr, fun b hm hak hbd => ?_⟩
    rw [hidq]
    exact hid b hm hak fun hst => hb ho hst hm (hbd hst)
  inj   := by
    intro k a a' o o' ho ho'
    rw [hp] at ho ho'
    rw [hidp]
    exact h.inj ho ho'
  surj  := by
    intro k i f hf
    rw [hp, hidp]
    exact h.surj hf
  chan  := by
    have : L'.message = L.message := by
      funext m
      simp [Link.message, hidp, hidq]
    rw [this, hab]
  named := by
    intro k m hm
    rw [hidp]
    exact h.named (hpq hm)

-- Something is sent which is not about a change.
theorem say (h : Tracks L A ab) {s ms qp} (hp : s.p.obj = (L.p k).obj)
    (hq : s.q.obj = (L.q k).obj) (hn : ∀ m ∈ ms, ∀ {c}, m.src = some c → L.idp k c ≠ 0) :
    Tracks (L.act k s ms qp) A (ab ++ ms.map fun m => L.message (k, m)) := by
  have hp' : ∀ k', ((L.act k s ms qp).p k').obj = (L.p k').obj := by
    intro k'
    cases Decidable.em (k' = k) <;> simp [Link.act, *]
  have hq' : ∀ k', ((L.act k s ms qp).q k').obj = (L.q k').obj := by
    intro k'
    cases Decidable.em (k' = k) <;> simp [Link.act, *]
  constructor
  · intro k' a o ho
    rw [hp'] at ho
    obtain ⟨f, hf, hr, hid⟩ := h.obj ho
    refine ⟨f, hf, hr, ?_⟩
    simp only [Bound, hq']
    exact hid
  · intro k' a a' o o' ho ho'
    rw [hp'] at ho ho'
    exact h.inj ho ho'
  · intro k' i f hf
    rw [hp']
    exact h.surj hf
  · have : (L.act k s ms qp).message = L.message := rfl
    rw [this, Link.act, List.map_append, ← h.chan, List.map_map]
    rfl
  · intro k' m hmem c hc
    rcases List.mem_append.mp hmem with hmem | hmem
    · exact h.named hmem hc
    · obtain ⟨m', hm', he⟩ := List.mem_map.mp hmem
      cases he
      exact hn m hm' hc

-- An object comes into being.
theorem bear (h : Tracks L A ab) {s : Pair} (hi : A k (L.idp k a) = none)
    (hp : s.p.obj = Function.update (L.p k).obj a (some o)) (hq : s.q.obj = (L.q k).obj)
    (hr : Refines f o) (hm : o.mapped = none) {ms qp}
    (hn : ∀ m ∈ ms, ∀ {c}, m.src = some c → L.idp k c ≠ 0) :
    Tracks (L.act k s ms qp) (A.set k (L.idp k a) (some f))
      (ab ++ ms.map fun m => L.message (k, m)) := by
  have hq' : ∀ k', ((L.act k s ms qp).q k').obj = (L.q k').obj := by
    intro k'
    cases Decidable.em (k' = k) <;> simp [Link.act, *]
  have hlive : ∀ {c o'}, (L.p k).obj c = some o' → L.idp k c ≠ L.idp k a := by
    intro c o' ho' hic
    obtain ⟨f', hf', _⟩ := h.obj ho'
    simp [hic, hi] at hf'
  have hcases : ∀ {k' c o'}, ((L.act k s ms qp).p k').obj c = some o' →
      (k' = k ∧ c = a ∧ o' = o) ∨
      ((L.p k').obj c = some o' ∧ ¬(k' = k ∧ L.idp k' c = L.idp k a)) := by
    intro k' c o' ho'
    simp only [Link.act, Function.update_apply] at ho'
    split at ho'
    case isTrue hk =>
      subst hk
      simp only [hp, Function.update_apply] at ho'
      split at ho'
      case isTrue hc => exact .inl ⟨rfl, hc, (Option.some.inj ho').symm⟩
      case isFalse => exact .inr ⟨ho', fun hc => hlive ho' hc.2⟩
    case isFalse hk => exact .inr ⟨ho', fun hc => hk hc.1⟩
  constructor
  · intro k' c o' ho'
    rcases hcases ho' with ⟨rfl, rfl, rfl⟩ | ⟨ho', hne⟩
    · exact ⟨f, by simp [Objs.set_apply, Link.act], hr, by simp [hm]⟩
    · obtain ⟨f', hf', hr', hid⟩ := h.obj ho'
      refine ⟨f', ?_, hr', ?_⟩
      · simp only [Objs.set_apply, Link.act, hne, if_false]
        exact hf'
      · simp only [Bound, hq']
        exact hid
  · intro k' c c' o₁ o₂ h₁ h₂ hi'
    rcases hcases h₁ with ⟨rfl, rfl, rfl⟩ | ⟨h₁, hn₁⟩ <;>
      rcases hcases h₂ with ⟨hk, rfl, rfl⟩ | ⟨h₂, hn₂⟩
    · rfl
    · exact absurd ⟨rfl, hi'.symm⟩ hn₂
    · exact absurd ⟨hk, by rw [← hk]; exact hi'⟩ hn₁
    · exact h.inj h₁ h₂ hi'
  · intro k' i f' hf'
    simp only [Objs.set_apply] at hf'
    split at hf'
    case isTrue hki =>
      obtain ⟨rfl, rfl⟩ := hki
      exact ⟨a, o, by simp [Link.act, hp], rfl⟩
    case isFalse hki =>
      obtain ⟨c, o', ho', hic⟩ := h.surj hf'
      refine ⟨c, o', ?_, hic⟩
      cases Decidable.em (k' = k)
      case inl hk =>
        subst hk
        have hc : c ≠ a := by
          rintro rfl
          exact hki ⟨rfl, hic.symm⟩
        simp [Link.act, hp, hc, ho']
      case inr hk => simp [Link.act, hk, ho']
  · have : (L.act k s ms qp).message = L.message := rfl
    rw [this, Link.act, List.map_append, ← h.chan, List.map_map]
    rfl
  · intro k' m hmem c hc
    rcases List.mem_append.mp hmem with hmem | hmem
    · exact h.named hmem hc
    · obtain ⟨m', hm', he⟩ := List.mem_map.mp hmem
      cases he
      exact hn m hm' hc

-- An object makes a transition.
theorem put (h : Tracks L A ab) (ho : (L.p k).obj a = some o) (hf : A k (L.idp k a) = some f)
    {j out r s qp} (hm : Matches k.2 (L.idp k) (L.idq k) a j f o out r)
    (hp : s.p.obj = Function.update (L.p k).obj a r.1) (hq : s.q = L.q k)
    (hn : ∀ m ∈ r.2, ∀ {c}, m.src = some c → L.idp k c ≠ 0) :
    Tracks (L.act k s r.2 qp) (A.set k (L.idp k a) out.result)
      (ab ++ sends k (L.idp k a) j out) where
  obj   := by
    intro k' a' o' ho'
    simp only [Link.act, Function.update_apply, Objs.set_apply] at ho' ⊢
    split at ho'
    case isTrue hk =>
      subst hk
      simp only [hp, Function.update_apply] at ho'
      split at ho'
      case isTrue ha =>
        subst ha
        have halive : out.alive = true := by simp [hm.alive, ho']
        refine ⟨out.fsm, by simp [Fsm.Outcome.result, halive], hm.obj o' ho', fun b hb hak hbd => ?_⟩
        rcases hm.ids o' ho' b hb hak with hid | ⟨hst, hst', hb', hak', hid⟩
        · exact hid
        · obtain ⟨f', hf', _, hid'⟩ := h.obj ho
          obtain rfl : f = f' := Option.some.inj (hf.symm.trans hf')
          rw [hid]
          exact hid' b hb' hak' fun _ => by simpa [hq] using hbd hst'
      case isFalse ha =>
        obtain ⟨f', hf', hr, hid⟩ := h.obj ho'
        have hi : L.idp k' a' ≠ L.idp k' a := fun hi => ha (h.inj ho' ho hi)
        exact ⟨f', by simpa [hi] using hf', hr, by simpa [hq] using hid⟩
    case isFalse hk =>
      obtain ⟨f', hf', hr, hid⟩ := h.obj ho'
      exact ⟨f', by simpa [hk] using hf', hr, by simpa [hk] using hid⟩
  inj   := by
    have hlive : ∀ {k' a' o'}, ((L.act k s r.2 qp).p k').obj a' = some o' →
        ∃ o'', (L.p k').obj a' = some o'' := by
      intro k' a' o' ho'
      simp only [Link.act, Function.update_apply] at ho'
      split at ho'
      case isTrue hk =>
        subst hk
        simp only [hp, Function.update_apply] at ho'
        split at ho'
        case isTrue ha => exact ⟨o, ha ▸ ho⟩
        case isFalse => exact ⟨_, ho'⟩
      case isFalse => exact ⟨_, ho'⟩
    intro k' a₁ a₂ o₁ o₂ h₁ h₂ hi
    obtain ⟨_, h₁⟩ := hlive h₁
    obtain ⟨_, h₂⟩ := hlive h₂
    exact h.inj h₁ h₂ hi
  surj  := by
    intro k' i f' hf'
    simp only [Link.act, Function.update_apply, Objs.set_apply] at hf' ⊢
    split at hf'
    case isTrue hki =>
      obtain ⟨rfl, rfl⟩ := hki
      simp only [Fsm.Outcome.result, Option.ite_none_right_eq_some, hm.alive] at hf'
      obtain ⟨o', ho'⟩ := Option.isSome_iff_exists.mp hf'.1
      exact ⟨a, o', by simp [hp, ho'], rfl⟩
    case isFalse hki =>
      obtain ⟨a', o', ho', hi⟩ := h.surj hf'
      refine ⟨a', o', ?_, hi⟩
      cases Decidable.em (k' = k)
      case inl hk =>
        subst hk
        have ha : a' ≠ a := by
          rintro rfl
          exact hki ⟨rfl, hi.symm⟩
        simp [hp, ha, ho']
      case inr hk => simp [hk, ho']
  chan  := by
    have : (L.act k s r.2 qp).message = L.message := rfl
    rw [this, Link.act, List.map_append, ← h.chan, sends, hm.calls, List.map_map, List.map_map]
    rfl
  named := by
    intro k' m hmem c hc
    rcases List.mem_append.mp hmem with hmem | hmem
    · exact h.named hmem hc
    · obtain ⟨m', hm', he⟩ := List.mem_map.mp hmem
      cases he
      exact hn m hm' hc

end Tracks

namespace Link.Rel

variable {L : Link} {A B : Objs} {ab ba : List Message} {k : Key} {a b : Nat} {o : Obj} {f : Fsm}
  {i j : Id} {ba' : List Message}

-- The object of the protocol that a state machine belongs to.
theorem exists_obj (h : L.Rel A B ab ba) (hf : A k i = some f) :
    ∃ a o, (L.p k).obj a = some o ∧ L.idp k a = i ∧ Refines f o := by
  obtain ⟨a, o, ho, hi⟩ := h.a.surj hf
  obtain ⟨f', hf', hr, _⟩ := h.a.obj ho
  rw [hi, hf] at hf'
  exact ⟨a, o, ho, hi, Option.some.inj hf' ▸ hr⟩

theorem ok (h : L.Rel A B ab ba) (ho : (L.p k).obj a = some o) : o.Ok (L.p k).known :=
  (h.inv k).p.obj ho

theorem mappedId (h : L.Rel A B ab ba) (ho : (L.p k).obj a = some o)
    (hf : A k (L.idp k a) = some f) (hs : o.state ≠ awaitAck) (hb : o.mapped = some b) :
    f.mappedId = L.idq k b := by
  obtain ⟨f', hf', _, hid⟩ := h.a.obj ho
  obtain rfl : f = f' := Option.some.inj (hf.symm.trans hf')
  exact hid b hb ((h.ok ho).shape.acked hs) fun hs' => absurd hs' hs

theorem bound_iff {q : Peer} :
    Bound q a b ↔ ∃ o, q.obj b = some o ∧ (a ∈ o.refs ∨ unconfirmed o.state = true) := by
  simp only [Bound, ne_eq, Obj.rel_no_iff, not_not]

theorem act (h : L.Rel A B ab ba) (ho : (L.p k).obj a = some o) (hf : A k (L.idp k a) = some f)
    {out r} {s₀ : Pair} {qp} (hm : Matches k.2 (L.idp k) (L.idq k) a j f o out r)
    (hinv : (s₀.put a r).Inv) (hp : s₀.p.obj = (L.p k).obj) (hq : s₀.q = L.q k)
    (hpq : s₀.pq = channel k L.pq) (hqp : s₀.qp = channel k qp)
    (hk : ∀ k', k' ≠ k → channel k' qp = channel k' L.qp) (hsub : qp ⊆ L.qp)
    (hba : ba' = (qp.map fun m => (Key.flip m.1, m.2)).map L.swap.message)
    (hn : ∀ m ∈ r.2, ∀ {c}, m.src = some c → L.idp k c ≠ 0)
    (hb : ∀ o', r.1 = some o' → ∀ b, (b ∈ o'.refs ∨ unconfirmed o'.state = true) →
      (b ∈ o.refs ∨ unconfirmed o.state = true) ∨
      ∃ o'', (L.q k).obj b = some o'' ∧ unconfirmed o''.state = true) :
    ∃ L' : Link, L'.Rel (A.set k (L.idp k a) out.result) B (ab ++ sends k (L.idp k a) j out) ba' ∧
      L'.q = L.q := by
  refine ⟨L.act k (s₀.put a r) r.2 qp, ⟨fun k' => ?_, ?_, ?_⟩, ?_⟩
  · rw [pair_act (s := s₀.put a r) (by simp [hpq]) hqp hk]
    split
    case isTrue => exact hinv
    case isFalse => exact h.inv k'
  · refine h.a.put ho hf hm ?_ hq hn
    simp [Pair.put, Peer.put, hp]
  · refine h.b.of_remote (fun k' => ?_) ?_ ?_ ?_ hba fun {k' c o' d} ho' hst hd hbd => ?_
    · simp [Link.swap, Link.act, hq]
    · rfl
    · rfl
    · exact List.map_subset _ hsub
    · rw [bound_iff] at hbd ⊢
      obtain ⟨o'', ho'', hu⟩ := hbd
      simp only [Link.swap, Link.act, Function.update_apply] at ho' ho'' ⊢
      split at ho''
      case isFalse => exact ⟨o'', ho'', hu⟩
      case isTrue hkk =>
        rw [hkk] at ho' ⊢
        simp only [Pair.put, Peer.put, hp, Function.update_apply] at ho''
        split at ho''
        case isFalse => exact ⟨o'', ho'', hu⟩
        case isTrue hda =>
          rw [hda]
          refine ⟨o, ho, ?_⟩
          rcases hb o'' ho'' c hu with hb | ⟨o₃, ho₃, hu₃⟩
          · exact hb
          · obtain rfl : o' = o₃ := Option.some.inj (ho'.symm.trans ho₃)
            simp [hst, unconfirmed] at hu₃
  · simp [Link.act, hq]

theorem destroy (h : L.Rel A B ab ba) (hf : A k i = some f) (hd : f.destroyed = false) :
    ∃ out, f.processObjectDestroyed = .ok out ∧
      ∃ L' : Link, L'.Rel (A.set k i out.result) B (ab ++ sends k i j out) ba ∧ L'.q = L.q := by
  obtain ⟨a, o, ho, hi, hr⟩ := h.exists_obj hf
  subst hi
  have hv : visible o.state = true := by simpa [hr.destroyed] using hd
  have hok := h.ok ho
  have hs : o.state ≠ awaitAck := by
    intro hs
    simp [hs, visible] at hv
  obtain ⟨out, hout, hm⟩ := hr.destroy k.2 (L.idp k) a j hv hok.shape
    fun b => h.mappedId ho hf hs
  have hinv := (h.inv k).destroy ho hv
  simp only [Pair.destroy, show (L.pair k).p.obj a = some o from ho] at hinv
  refine ⟨out, hout, h.act ho hf hm hinv rfl rfl rfl rfl (fun _ _ => rfl) (List.Subset.refl _)
    h.b.chan (fun m hm => ?_) fun o' ho' b hb => .inl ?_⟩
  · cases hst : o.state <;> simp only [Obj.destroy, hst, List.not_mem_nil] at hm
    obtain ⟨c, _, hc⟩ := List.mem_map.mp hm
    simp [← hc, Msg.src]
  · obtain ⟨hrefs, hu⟩ := Obj.refs_destroy ho'
    rwa [← hrefs, ← hu hv]

end Link.Rel
end Yogi.Mapping
