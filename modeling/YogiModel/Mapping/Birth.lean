import YogiModel.Mapping.Delivery

namespace Yogi.Mapping

open FsmState

-- The object of the receiver a message names.
def Msg.dst : Msg → Option Nat
  | desc _      => none
  | map b _     => some b
  | noticed b   => some b
  | removed b _ => some b
  | ack b _     => some b

theorem Msg.body_congr {x own own' remote remote'} {m : Msg}
    (hs : ∀ a, m.src = some a → own a = own' a) (hd : ∀ b, m.dst = some b → remote b = remote' b) :
    m.body x own remote = m.body x own' remote' := by
  cases m <;> simp_all [body, src, dst]

-- Only living objects are named.
theorem Pair.Inv.obj_of_src {s : Pair} (h : s.Inv) {m a} (hm : m ∈ s.pq) (ha : m.src = some a) :
    ∃ o, s.p.obj a = some o := by
  cases m <;> simp only [Msg.src, reduceCtorEq, Option.some.injEq] at ha <;> subst ha
  case desc a =>
    have hd := (h.pq.desc_iff a).mp hm
    have := h.qp.conf_le
    refine Option.ne_none_iff_exists'.mp fun hn => ?_
    have := h.p.gone hd.2 hn
    omega
  case map b a =>
    have := h.swap.mem b a
    exact Peer.of_isLive ((mentions this).map (Msg.map_mem_word.mpr hm)).1

theorem Pair.Inv.obj_of_dst {s : Pair} (h : s.Inv) {m a} (hm : m ∈ s.qp) (ha : m.dst = some a) :
    ∃ o, s.p.obj a = some o := by
  have hlet : ∀ {b x}, m.letter b a = some x → x ∈ (s.view a b).qp := fun hx =>
    List.mem_filterMap.mpr ⟨m, hm, hx⟩
  cases m <;> simp only [Msg.dst, reduceCtorEq, Option.some.injEq] at ha <;> subst ha
  case map a b =>
    have := (receives (h.mem a b)).isLive (.inl (hlet (by simp [Msg.letter])))
    exact Peer.of_isLive this
  case noticed a =>
    have := (receives (h.mem a 0)).isLive (.inr (.inr (.inl (hlet (by simp [Msg.letter])))))
    exact Peer.of_isLive this
  case removed a b =>
    have := (receives (h.mem a b)).isLive (.inr (.inr (.inr (.inl (hlet (by simp [Msg.letter]))))))
    exact Peer.of_isLive this
  case ack a b =>
    have := (receives (h.mem a b)).isLive (.inr (.inr (.inr (.inr (hlet (by simp [Msg.letter]))))))
    exact Peer.of_isLive this

namespace Link

variable {L : Link} {A A' B : Objs} {ab ba : List Message} {k : Key} {i : Id}

def rename (L : Link) (idp : Key → Nat → Id) : Link :=
  { L with idp := idp }

-- Those IDs may change that do not matter.
theorem Rel.rename (h : L.Rel A B ab ba) {idp : Key → Nat → Id}
    (ha : ∀ {k a o}, (L.p k).obj a = some o →
      ∃ f, A' k (idp k a) = some f ∧ A k (L.idp k a) = some f)
    (hi : ∀ {k a a' o o'}, (L.p k).obj a = some o → (L.p k).obj a' = some o' →
      idp k a = idp k a' → a = a')
    (hs : ∀ {k i f}, A' k i = some f → ∃ a o, (L.p k).obj a = some o ∧ idp k a = i)
    (hpq : ∀ {k m a}, m ∈ (L.pair k).pq → m.src = some a → idp k a = L.idp k a)
    (hqp : ∀ {k m a}, m ∈ (L.pair k).qp → m.dst = some a → idp k a = L.idp k a)
    (hb : ∀ {k b o a}, (L.q k).obj b = some o → o.mapped = some a →
      (o.state = awaitAck → Bound (L.p k) b a) → idp k a = L.idp k a) :
    (L.rename idp).Rel A' B ab ba where
  inv := h.inv
  a   := by
    constructor
    · intro k a o ho
      obtain ⟨f, hf, hf'⟩ := ha ho
      obtain ⟨f', hf'', hr, hid⟩ := h.a.obj ho
      obtain rfl : f = f' := Option.some.inj (hf'.symm.trans hf'')
      exact ⟨f, hf, hr, hid⟩
    · exact hi
    · exact hs
    · rw [h.a.chan]
      refine List.map_congr_left fun km hm => ?_
      obtain ⟨k, m⟩ := km
      simp only [Link.message, Link.rename]
      rw [Msg.body_congr (fun a ha => (hpq (mem_channel.mpr hm) ha).symm) fun _ _ => rfl]
    · intro k m hm a hma
      have := h.a.named hm hma
      rwa [← hpq (mem_channel.mpr hm) hma] at this
  b   := by
    constructor
    · intro k b o ho
      obtain ⟨f, hf, hr, hid⟩ := h.b.obj ho
      refine ⟨f, hf, hr, fun a hm hak hbd => ?_⟩
      rw [hid a hm hak hbd]
      exact (hb ho hm hbd).symm
    · exact h.b.inj
    · exact h.b.surj
    · rw [h.b.chan]
      refine List.map_congr_left fun km hm => ?_
      obtain ⟨k, m⟩ := km
      simp only [Link.message, Link.rename, Link.swap]
      rw [Msg.body_congr (fun _ _ => rfl) fun a ha => (hqp ?_ ha).symm]
      simpa [Link.swap, pair, channel_flip] using mem_channel.mpr hm
    · exact h.b.named

theorem Rel.known_of_mapped (h : L.Rel A B ab ba) {b o a} (ho : (L.q k).obj b = some o)
    (hm : o.mapped = some a) : a < (L.p k).next := by
  have hlt := ((h.inv k).q.obj ho).below a (by simp [Obj.refs, hm])
  exact Nat.lt_of_lt_of_le hlt (h.inv k).pq.known_le

-- An object is created and described.
theorem Rel.create (h : L.Rel A B ab ba) (hn : ∀ i f, A k i = some f → f.destroyed = true)
    (hi : A k i = none) (h0 : i ≠ 0) :
    ∃ L' : Link, L'.Rel (A.set k i (some { state := unusedUnconfirmed })) B
      (ab ++ [k.1.message (.desc k.2 i)]) ba ∧ L'.q = L.q := by
  have hinv := (h.inv k).create (h.front_eq_none hn)
  generalize hnext : (L.p k).next = n
  have hne : ∀ {k' a o}, (L.p k').obj a = some o → ¬(k' = k ∧ a = n) := by
    rintro k' a o ho ⟨rfl, rfl⟩
    have hlt : a < (L.p k').next := (h.inv k').p.live_lt ho
    omega
  let idp : Key → Nat → Id := fun k' a => if k' = k ∧ a = n then i else L.idp k' a
  have hidp : ∀ {k' a}, ¬(k' = k ∧ a = n) → idp k' a = L.idp k' a := fun hka => if_neg hka
  have hr : (L.rename idp).Rel A B ab ba := by
    refine h.rename (fun ho => ?_) (fun ho ho' hi => ?_) (fun hf => ?_) (fun hm ha => ?_)
      (fun hm ha => ?_) fun ho hm _ => ?_
    · obtain ⟨f, hf, _⟩ := h.a.obj ho
      exact ⟨f, by rwa [hidp (hne ho)], hf⟩
    · rw [hidp (hne ho), hidp (hne ho')] at hi
      exact h.a.inj ho ho' hi
    · obtain ⟨a, o, ho, hi⟩ := h.a.surj hf
      exact ⟨a, o, ho, by rwa [hidp (hne ho)]⟩
    · obtain ⟨o, ho⟩ := (h.inv _).obj_of_src hm ha
      exact hidp (hne ho)
    · obtain ⟨o, ho⟩ := (h.inv _).obj_of_dst hm ha
      exact hidp (hne ho)
    · have hlt := h.known_of_mapped ho hm
      refine hidp ?_
      rintro ⟨rfl, rfl⟩
      omega
  have hin : idp k n = i := if_pos ⟨rfl, rfl⟩
  have hmsg : (L.rename idp).message (k, .desc n) = k.1.message (.desc k.2 i) := by
    simp [Link.message, Link.rename, Msg.body, hin]
  have ha : Tracks ((L.rename idp).act k (L.pair k).create [.desc n] L.qp) _ _ :=
    hr.a.bear (a := n) (f := { state := unusedUnconfirmed }) (o := { state := unusedUnconfirmed })
      (by simpa [Link.rename, hin] using hi)
      (by simp [Pair.create, Peer.put, pair, hnext, Link.rename]) rfl ⟨rfl, rfl, by simp⟩ rfl
      (by simp [Msg.src, Link.rename, hin, h0])
  have hp : ∀ k', ((L.rename idp).act k (L.pair k).create [.desc n] L.qp).pair k' =
      if k' = k then (L.pair k).create else L.pair k' := fun k' =>
    pair_act (L := L.rename idp) (by simp [Pair.create, pair, Link.rename, hnext]) rfl fun _ _ => rfl
  refine ⟨(L.rename idp).act k (L.pair k).create [.desc n] L.qp, ⟨fun k' => ?_, ?_, ?_⟩, ?_⟩
  · rw [hp]
    split
    case isTrue => exact hinv
    case isFalse => exact h.inv k'
  · simpa only [List.map_cons, List.map_nil, hmsg, show (L.rename idp).idp k n = i from hin] using ha
  · refine hr.b.of_remote (fun k' => ?_) ?_ ?_ ?_ hr.b.chan fun {k' c o' d} ho' hst hd hbd => ?_
    · simp [Link.swap, Link.act, Pair.create, pair, Link.rename]
    · rfl
    · rfl
    · exact List.Subset.refl _
    · have hlt : d < (L.p k'.flip).next := h.known_of_mapped (by simpa [Link.swap, Link.rename] using ho') hd
      obtain ⟨o'', ho'', hu⟩ := hbd
      refine ⟨o'', ?_, hu⟩
      simp only [Link.swap, Link.act, Function.update_apply] at ho'' ⊢
      split at ho''
      case isFalse => exact ho''
      case isTrue hkk =>
        rw [hkk] at hlt ⊢
        have hdn : d ≠ (L.p k).next := by omega
        simpa [Pair.create, Peer.put, pair, hdn, Link.rename] using ho''
  · simp [Link.act, Pair.create, pair, Link.rename]

theorem not_bound_of_unused {q : Peer} {a b} (h : ∀ o, q.obj b = some o → o.refs = [] ∧
    unconfirmed o.state = false) : ¬Bound q a b := by
  intro hb
  obtain ⟨o, ho, hu⟩ := Rel.bound_iff.mp hb
  simp [h o ho] at hu

-- An object that is not used gets another ID.
theorem Rel.reid (h : L.Rel A B ab ba) {i' : Id} (hf : A k i = some {}) (hi : A k i' = none) :
    ∃ L' : Link, L'.Rel ((A.set k i none).set k i' (some {})) B ab ba ∧ L'.p = L.p ∧ L'.q = L.q := by
  obtain ⟨a₀, o₀, ho₀, hia, hr⟩ := h.exists_obj hf
  have hst : o₀.state = unusedConfirmed := hr.state.symm
  have hsk : o₀.skip = [] := List.eq_nil_of_length_eq_zero (by simpa using hr.skip.symm)
  have hm₀ : o₀.mapped = none := by
    have := (h.ok ho₀).shape
    simp only [Obj.Shape, hst] at this
    exact this.1
  have hrefs : o₀.refs = [] := by simp [Obj.refs, hsk, hm₀]
  have hunused := fun b => (mentions ((h.inv k).mem a₀ b)).unused (by
    have hside : ((L.pair k).view a₀ b).p = .live (o₀.rel b) o₀.state :=
      (h.inv k).p.side_of_obj ho₀
    rw [hside, hst, Obj.rel_no_iff.mpr (by simp [hrefs])])
  let idp : Key → Nat → Id := fun k' a => if k' = k ∧ a = a₀ then i' else L.idp k' a
  have hidp : ∀ {k' a}, ¬(k' = k ∧ a = a₀) → idp k' a = L.idp k' a := fun hka => if_neg hka
  have hne : ∀ {k' a o}, (L.p k').obj a = some o → ¬(k' = k ∧ a = a₀) →
      ¬(k' = k ∧ L.idp k' a = i) ∧ ¬(k' = k ∧ L.idp k' a = i') := by
    intro k' a o ho hka
    obtain ⟨f, hf', _⟩ := h.a.obj ho
    constructor
    · rintro ⟨rfl, hj⟩
      exact hka ⟨rfl, h.a.inj ho ho₀ (hj.trans hia.symm)⟩
    · rintro ⟨rfl, hj⟩
      rw [hj, hi] at hf'
      simp at hf'
  have hii : i ≠ i' := by
    rintro rfl
    simp [hi] at hf
  have hset : ∀ {k' j}, ¬(k' = k ∧ j = i) → ¬(k' = k ∧ j = i') →
      ((A.set k i none).set k i' (some {})) k' j = A k' j := by
    intro k' j h₁ h₂
    simp [Objs.set_apply, h₁, h₂]
  refine ⟨L.rename idp, h.rename (fun {k' a o} ho => ?_) (fun {k' a a' o o'} ho ho' hj => ?_)
    (fun {k' j f} hj => ?_) (fun {k' m a} hm ha => hidp ?_) (fun {k' m a} hm ha => hidp ?_)
    fun {k' b o a} ho hm hb => hidp ?_, rfl, rfl⟩
  · cases Decidable.em (k' = k ∧ a = a₀)
    case inl hka =>
      obtain ⟨rfl, rfl⟩ := hka
      exact ⟨{}, by simp [Objs.set_apply, idp], by rw [hia, hf]⟩
    case inr hka =>
      obtain ⟨f, hf', _⟩ := h.a.obj ho
      obtain ⟨h₁, h₂⟩ := hne ho hka
      exact ⟨f, by rwa [hidp hka, hset h₁ h₂], hf'⟩
  · cases Decidable.em (k' = k ∧ a = a₀) <;> cases Decidable.em (k' = k ∧ a' = a₀)
    case inl.inl h₁ h₂ => exact h₁.2.trans h₂.2.symm
    case inl.inr h₁ h₂ =>
      obtain ⟨rfl, rfl⟩ := h₁
      rw [hidp h₂] at hj
      simp only [idp, true_and, if_true] at hj
      exact absurd ⟨rfl, hj.symm⟩ (hne ho' h₂).2
    case inr.inl h₁ h₂ =>
      obtain ⟨rfl, rfl⟩ := h₂
      rw [hidp h₁] at hj
      simp only [idp, true_and, if_true] at hj
      exact absurd ⟨rfl, hj⟩ (hne ho h₁).2
    case inr.inr h₁ h₂ =>
      rw [hidp h₁, hidp h₂] at hj
      exact h.a.inj ho ho' hj
  · cases Decidable.em (k' = k ∧ j = i')
    case inl hkj =>
      obtain ⟨rfl, rfl⟩ := hkj
      exact ⟨a₀, o₀, ho₀, by simp [idp]⟩
    case inr hkj =>
      have hki : ¬(k' = k ∧ j = i) := by
        rintro ⟨rfl, rfl⟩
        simp [Objs.set_apply, hii] at hj
      rw [hset hki hkj] at hj
      obtain ⟨a, o, ho, hja⟩ := h.a.surj hj
      refine ⟨a, o, ho, ?_⟩
      rw [hidp, hja]
      rintro ⟨rfl, rfl⟩
      exact hki ⟨rfl, hja.symm.trans hia⟩
  · rintro ⟨rfl, rfl⟩
    cases m <;> simp only [Msg.src, reduceCtorEq, Option.some.injEq] at ha <;> subst ha
    · exact (hunused 0).1 (Msg.desc_mem_word.mpr hm)
    · exact (hunused _).2.1 (Msg.map_mem_word.mpr hm)
  · rintro ⟨rfl, rfl⟩
    have hlet : ∀ {b x}, m.letter b a = some x → x ∈ ((L.pair k').view a b).qp := fun hx =>
      List.mem_filterMap.mpr ⟨m, hm, hx⟩
    cases m <;> simp only [Msg.dst, reduceCtorEq, Option.some.injEq] at ha <;> subst ha
    case map c => exact (hunused c).2.2.1 (hlet (by simp [Msg.letter]))
    case noticed => exact (hunused 0).2.2.2.2.1 (hlet (by simp [Msg.letter]))
    case removed c => exact (hunused c).2.2.2.2.2.1 (hlet (by simp [Msg.letter]))
    case ack c => exact (hunused c).2.2.2.2.2.2.1 (hlet (by simp [Msg.letter]))
  · rintro ⟨rfl, rfl⟩
    have hs : o.state ≠ awaitAck := by
      refine fun hs => not_bound_of_unused (fun o' ho' => ?_) (hb hs)
      obtain rfl : o₀ = o' := Option.some.inj (ho₀.symm.trans ho')
      exact ⟨hrefs, by rw [hst]; rfl⟩
    have hside : ((L.pair k').view a b).q = .live (o.rel a) o.state := (h.inv k').q.side_of_obj ho
    refine (hunused b).2.2.2.2.2.2.2 ?_
    rw [hside]
    simp [End.rel, Obj.rel, ((h.inv k').q.obj ho).mapped_not_mem_skip hm, hm, hs]

-- The first objects of the keys in `K` are created without being described.
def silence (L : Link) (K : Key → Bool) : Link :=
  { L with
    p := fun k => if K k then (L.pair k).createSilent.p else L.p k
    q := fun k => if K k then (L.pair k).createSilent.q else L.q k }

theorem pair_silence {K} : (L.silence K).pair k =
    if K k then (L.pair k).createSilent else L.pair k := by
  simp only [pair, silence]
  split <;> simp [Pair.createSilent, *]

theorem Rel.silent (h : L.Rel A B ab ba) (K : Key → Bool) (ids : Key → Id)
    (hfresh : ∀ k, K k = true → (L.p k).next = 0 ∧ (L.p k).known = 0) :
    ∃ L' : Link, L'.Rel (fun k i => if K k then (if i = ids k then some {} else none) else A k i)
      B ab ba ∧ ∀ k, K k = false → L'.p k = L.p k ∧ L'.q k = L.q k := by
  have hnone : ∀ {k a o}, (L.p k).obj a = some o → K k = false := by
    intro k a o ho
    refine Bool.eq_false_iff.mpr fun hk => ?_
    have hlt : a < (L.p k).next := (h.inv k).p.live_lt ho
    have := hfresh k hk
    omega
  let idp : Key → Nat → Id := fun k a => if K k then ids k else L.idp k a
  have hidp : ∀ {k a}, K k = false → idp k a = L.idp k a := fun hk => by simp [idp, hk]
  have hr : (L.rename idp).Rel A B ab ba := by
    refine h.rename (fun ho => ?_) (fun ho ho' hi => ?_) (fun hf => ?_) (fun hm ha => ?_)
      (fun hm ha => ?_) fun {k b o a} ho hm _ => ?_
    · obtain ⟨f, hf, _⟩ := h.a.obj ho
      exact ⟨f, by rwa [hidp (hnone ho)], hf⟩
    · rw [hidp (hnone ho), hidp (hnone ho')] at hi
      exact h.a.inj ho ho' hi
    · obtain ⟨a, o, ho, hi⟩ := h.a.surj hf
      exact ⟨a, o, ho, by rwa [hidp (hnone ho)]⟩
    · obtain ⟨o, ho⟩ := (h.inv _).obj_of_src hm ha
      exact hidp (hnone ho)
    · obtain ⟨o, ho⟩ := (h.inv _).obj_of_dst hm ha
      exact hidp (hnone ho)
    · refine hidp (Bool.eq_false_iff.mpr fun hk => ?_)
      have := h.known_of_mapped ho hm
      have := hfresh k hk
      omega
  have hobj : ∀ {k}, K k = true → ((L.rename idp).silence K).p k =
      { (L.p k).put 0 (some { state := unusedConfirmed }) with next := 1, conf := 1 } := by
    intro k hk
    simp [silence, Link.rename, hk, Pair.createSilent, pair]
  have hobj₀ : ∀ {k a o}, K k = true → (((L.rename idp).silence K).p k).obj a = some o →
      a = 0 ∧ o = { state := unusedConfirmed } := by
    intro k a o hk ho
    simp only [hobj hk, Peer.obj_put] at ho
    split at ho
    case isTrue ha => exact ⟨ha, (Option.some.inj ho).symm⟩
    case isFalse => simp [hnone ho] at hk
  have hobj₁ : ∀ {k}, K k = false → ((L.rename idp).silence K).p k = L.p k := by
    intro k hk
    simp [silence, Link.rename, hk]
  refine ⟨(L.rename idp).silence K, ⟨fun k => ?_, ?_, ?_⟩, fun k hk => ?_⟩
  · rw [pair_silence]
    split
    case isTrue hk => exact (h.inv k).createSilent (hfresh k hk).1 (hfresh k hk).2
    case isFalse => exact h.inv k
  · constructor
    · intro k a o ho
      cases hk : K k
      case true =>
        obtain ⟨rfl, rfl⟩ := hobj₀ hk ho
        exact ⟨{}, by simp [silence, Link.rename, idp, hk], ⟨rfl, rfl, by simp⟩, by simp⟩
      case false =>
        rw [hobj₁ hk] at ho
        obtain ⟨f, hf, hr', hid⟩ := hr.a.obj ho
        refine ⟨f, by simp only [Bool.false_eq_true, if_false]; exact hf, hr', ?_⟩
        simpa [silence, Link.rename, hk] using hid
    · intro k a a' o o' ho ho' hi
      cases hk : K k
      case true => exact (hobj₀ hk ho).1.trans (hobj₀ hk ho').1.symm
      case false =>
        rw [hobj₁ hk] at ho ho'
        exact hr.a.inj ho ho' hi
    · intro k i f hf
      cases hk : K k <;> simp only [hk, if_true, Bool.false_eq_true, if_false] at hf
      case true =>
        split at hf
        case isTrue hi =>
          exact ⟨0, { state := unusedConfirmed }, by simp [hobj hk, Peer.put],
            by simp [silence, Link.rename, idp, hk, hi]⟩
        case isFalse => simp at hf
      case false =>
        rw [hobj₁ hk]
        exact hr.a.surj hf
    · exact hr.a.chan
    · exact hr.a.named
  · refine hr.b.of_remote (fun k => ?_) ?_ ?_ ?_ hr.b.chan fun {k c o d} ho _ hd hbd => ?_
    · cases hk : K k.flip <;> simp [Link.swap, silence, Link.rename, hk, Pair.createSilent, pair]
    · rfl
    · rfl
    · exact List.Subset.refl _
    · cases hk : K k.flip
      case true =>
        have := h.known_of_mapped (by simpa [Link.swap, Link.rename] using ho) hd
        have := hfresh _ hk
        omega
      case false =>
        simp only [Link.swap, hobj₁ hk] at hbd
        exact hbd
  · simp [silence, Link.rename, hk]

def init : Link where
  p   := fun _ => {}
  q   := fun _ => {}
  pq  := []
  qp  := []
  idp := fun _ _ => 0
  idq := fun _ _ => 0

theorem rel_init : init.Rel (fun _ _ => none) (fun _ _ => none) [] [] where
  inv := fun _ => Pair.inv_init
  a   := by constructor <;> simp [init]
  b   := by constructor <;> simp [init, Link.swap]

end Link
end Yogi.Mapping
