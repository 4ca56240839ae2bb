import YogiModel.Mapping.Object

namespace Yogi.Mapping

open FsmState

-- The messages on their way to a peer that has received `known` descriptions and `conf` replies, from
-- a peer that has created `next` objects and has received `descs` descriptions.
structure Chan (known conf next descs : Nat) (l : List Msg) : Prop where
  known_le  : known ≤ next
  conf_le   : conf ≤ descs
  desc_iff  : ∀ b, .desc b ∈ l ↔ known ≤ b ∧ b < next
  reply_iff : ∀ a, (∃ m ∈ l, m.reply = some a) ↔ conf ≤ a ∧ a < descs
  map_known : ∀ a b, .map a b ∈ l → known ≤ b + 1
  ordered   : l.Pairwise Msg.Ordered

namespace Chan

variable {k c n d a b : Nat} {m : Msg} {l : List Msg}

theorem nil : Chan 0 0 0 0 [] := by
  constructor <;> simp

theorem desc_head (h : Chan k c n d (.desc b :: l)) : b = k ∧ Chan (k + 1) c n d l := by
  obtain ⟨hb, hl⟩ := List.pairwise_cons.mp h.ordered
  have hkb := (h.desc_iff b).mp List.mem_cons_self
  have hbk : b = k := by
    have hk := (h.desc_iff k).mpr ⟨le_rfl, by omega⟩
    rcases List.mem_cons.mp hk with hk | hk
    · exact (Msg.desc.inj hk).symm
    · have := hb _ hk
      simp only [Msg.Ordered.eq_def] at this
      omega
  subst hbk
  refine ⟨rfl, ⟨by omega, h.conf_le, fun a => ?_, fun a => ?_, fun a a' hm => ?_, hl⟩⟩
  · have ha := h.desc_iff a
    constructor
    · intro hm
      have := hb _ hm
      simp only [Msg.Ordered.eq_def] at this
      have := ha.mp (List.mem_cons_of_mem _ hm)
      omega
    · intro hm
      rcases List.mem_cons.mp (ha.mpr (by omega)) with hd | hd
      · have := Msg.desc.inj hd
        omega
      · exact hd
  · have ha := h.reply_iff a
    simpa [Msg.reply] using ha
  · have := hb _ hm
    simp only [Msg.Ordered.eq_def] at this
    omega

theorem reply_head (h : Chan k c n d (m :: l)) (hm : m.reply = some a) :
    a = c ∧ Chan k (c + 1) n d l := by
  obtain ⟨hb, hl⟩ := List.pairwise_cons.mp h.ordered
  have hlt : ∀ m' ∈ l, ∀ a', m'.reply = some a' → a < a' := by
    intro m' hm' a' ha'
    have := hb m' hm'
    cases m <;> cases m' <;> simp_all [Msg.reply, Msg.Ordered.eq_def]
  have hca := (h.reply_iff a).mp ⟨m, List.mem_cons_self, hm⟩
  have hac : a = c := by
    obtain ⟨m', hm', hr⟩ := (h.reply_iff c).mpr ⟨le_rfl, by omega⟩
    rcases List.mem_cons.mp hm' with rfl | hm'
    · simpa [hm] using hr
    · have := hlt m' hm' c hr
      omega
  subst hac
  refine ⟨rfl, ⟨h.known_le, by omega, fun b => ?_, fun b => ?_, fun b b' hb' => ?_, hl⟩⟩
  · have := h.desc_iff b
    cases m <;> simp_all [Msg.reply]
  · have hr := h.reply_iff b
    constructor
    · rintro ⟨m', hm', hr'⟩
      have := hlt m' hm' b hr'
      have := hr.mp ⟨m', List.mem_cons_of_mem _ hm', hr'⟩
      omega
    · intro hcb
      obtain ⟨m', hm', hr'⟩ := hr.mpr (by omega)
      rcases List.mem_cons.mp hm' with rfl | hm'
      · have := Option.some.inj (hm.symm.trans hr')
        omega
      · exact ⟨m', hm', hr'⟩
  · exact h.map_known b b' (List.mem_cons_of_mem _ hb')

theorem tail (h : Chan k c n d (m :: l)) (hd : ∀ b, m ≠ .desc b) (hr : m.reply = none) :
    Chan k c n d l where
  known_le  := h.known_le
  conf_le   := h.conf_le
  desc_iff  := fun b => by simpa [(hd b).symm] using h.desc_iff b
  reply_iff := fun a => by simpa [hr] using h.reply_iff a
  map_known := fun a b hm => h.map_known a b (List.mem_cons_of_mem _ hm)
  ordered   := h.ordered.of_cons

theorem ordered_append (h : l.Pairwise Msg.Ordered) (hm : ∀ m' ∈ l, Msg.Ordered m' m) :
    (l ++ [m]).Pairwise Msg.Ordered :=
  List.pairwise_append.mpr ⟨h, List.pairwise_singleton .., fun m' hm' _ he =>
    List.mem_singleton.mp he ▸ hm m' hm'⟩

theorem append_desc (h : Chan k c n d l) : Chan k c (n + 1) d (l ++ [.desc n]) where
  known_le  := Nat.le_succ_of_le h.known_le
  conf_le   := h.conf_le
  desc_iff  := fun b => by
    have := h.known_le
    simp only [List.mem_append, List.mem_singleton, h.desc_iff, Msg.desc.injEq]
    omega
  reply_iff := fun a => by simpa [or_and_right, exists_or, Msg.reply] using h.reply_iff a
  map_known := fun a b hm => h.map_known a b (by simpa using hm)
  ordered   := by
    refine ordered_append h.ordered fun m' hm' => ?_
    cases m' <;> simp only [Msg.Ordered.eq_def]
    case desc b => exact ((h.desc_iff b).mp hm').2

theorem append_reply (h : Chan k c n d l) (hr : m.reply = some d)
    (hm : ∀ a b, m = .map a b → n = b + 1) : Chan k c n (d + 1) (l ++ [m]) where
  known_le  := h.known_le
  conf_le   := Nat.le_succ_of_le h.conf_le
  desc_iff  := fun b => by
    have := h.desc_iff b
    cases m <;> simp_all [Msg.reply]
  reply_iff := fun a => by
    have := h.conf_le
    have ha : d = a ↔ a = d := eq_comm
    simp only [List.mem_append, List.mem_singleton, or_and_right, exists_or, h.reply_iff,
      exists_eq_left, hr, Option.some.injEq, ha]
    omega
  map_known := fun a b hb => by
    rcases List.mem_append.mp hb with hb | hb
    · exact h.map_known a b hb
    · exact hm a b (List.mem_singleton.mp hb).symm ▸ h.known_le
  ordered   := by
    refine ordered_append h.ordered fun m' hm' => ?_
    have hlt : ∀ a, m'.reply = some a → a < d := fun a ha => ((h.reply_iff a).mp ⟨m', hm', ha⟩).2
    have hdesc : ∀ b, m' = .desc b → b < n := fun b hb => ((h.desc_iff b).mp (hb ▸ hm')).2
    cases m <;> cases m' <;> simp_all [Msg.reply, Msg.Ordered.eq_def]

theorem append (h : Chan k c n d l) (hd : ∀ b, m ≠ .desc b) (hr : m.reply = none)
    (hm : ∀ m' ∈ l, Msg.Ordered m' m) : Chan k c n d (l ++ [m]) where
  known_le  := h.known_le
  conf_le   := h.conf_le
  desc_iff  := fun b => by simpa [(hd b).symm] using h.desc_iff b
  reply_iff := fun a => by simpa [or_and_right, exists_or, hr] using h.reply_iff a
  map_known := fun a b hb => by
    rcases List.mem_append.mp hb with hb | hb
    · exact h.map_known a b hb
    · cases List.mem_singleton.mp hb
      simp [Msg.reply] at hr
  ordered   := ordered_append h.ordered hm

theorem append_acks (h : Chan k c n d l) {m} : Chan k c n d (l ++ Obj.acks m a) := by
  cases m
  case none => simpa [Obj.acks] using h
  case some b =>
    refine h.append (by simp) rfl fun m' _ => ?_
    cases m' <;> simp [Msg.Ordered.eq_def]

theorem append_removed (h : Chan k c n d l) (hr : ∀ a', .removed b a' ∈ l → a' < a)
    (ha : ∀ a', .ack b a' ∈ l → a' ≤ a) : Chan k c n d (l ++ [.removed b a]) := by
  refine h.append (by simp) rfl fun m' hm' => ?_
  cases m' <;> simp only [Msg.Ordered.eq_def]
  case removed b' a' => exact fun hb => hr a' (hb ▸ hm')
  case ack b' a' => exact fun hb => ha a' (hb ▸ hm')

end Chan

namespace Peer

-- Only the youngest object may be visible and the objects are confirmed in the order of their
-- creation.
structure Ok (p : Peer) : Prop where
  live_lt         : ∀ {a o}, p.obj a = some o → a < p.next
  visible         : ∀ {a o}, p.obj a = some o → visible o.state → a + 1 = p.next
  unconfirmed_iff : ∀ {a o}, p.obj a = some o → (unconfirmed o.state ↔ p.conf ≤ a)
  gone            : ∀ {a}, a < p.next → p.obj a = none → a < p.conf
  obj             : ∀ {a o}, p.obj a = some o → o.Ok p.known

variable {p : Peer} {a b : Nat} {o : Obj}

theorem ok_init : ({} : Peer).Ok := by
  constructor <;> simp

@[simp] theorem put_next {r} : (p.put a r).next = p.next := rfl

@[simp] theorem put_known {r} : (p.put a r).known = p.known := rfl

@[simp] theorem put_conf {r} : (p.put a r).conf = p.conf := rfl

theorem obj_put {r c} : (p.put a r).obj c = if c = a then r else p.obj c := by
  simp [put, Function.update_apply]

theorem Ok.eq_of_visible (h : p.Ok) {c o'} (ha : p.obj a = some o) (hv : Mapping.visible o.state)
    (hc : p.obj c = some o') (hv' : Mapping.visible o'.state) : c = a := by
  have := h.visible ha hv
  have := h.visible hc hv'
  omega

theorem ne_mappedUnconfirmed_of_hidden (hv : Mapping.visible o.state = false) :
    o.state ≠ mappedUnconfirmed := by
  intro hs
  simp [hs, Mapping.visible] at hv

theorem front_eq_some_iff :
    p.front = some o ↔ 0 < p.next ∧ p.obj (p.next - 1) = some o ∧ Mapping.visible o.state := by
  simp only [front]
  cases p.next <;> simp [Option.filter_eq_some_iff]

theorem front_eq_none_iff (h : p.Ok) :
    p.front = none ↔ ∀ a o, p.obj a = some o → Mapping.visible o.state = false := by
  constructor
  · intro hf a o ho
    refine Bool.eq_false_iff.mpr fun hv => ?_
    have ha := h.visible ho hv
    have : p.front = some o := front_eq_some_iff.mpr ⟨by omega, by rwa [← ha], hv⟩
    simp [hf] at this
  · intro hf
    refine Option.eq_none_iff_forall_ne_some.mpr fun o ho => ?_
    obtain ⟨_, ho, hv⟩ := front_eq_some_iff.mp ho
    simp [hf _ _ ho] at hv

theorem Ok.put (h : p.Ok) (ho : p.obj a = some o) {r : Option Obj} {known conf : Nat} {u : Bool}
    (hr : ∀ o', r = some o' → o'.Ok known ∧ Obj.Next o o' u) (hu : u = true ↔ conf ≤ a)
    (hn : r = none → a < conf) (hc : conf = p.conf ∨ conf = a + 1 ∧ p.conf = a)
    (hk : known = p.known ∨ Mapping.visible o.state ∧ p.known ≤ known) :
    Ok { p.put a r with known := known, conf := conf } := by
  have ha := h.live_lt ho
  constructor <;> simp only [obj_put] <;> intro c <;>
    cases Decidable.em (c = a) <;> rename_i hca <;> simp only [hca, if_true, if_false]
  · exact fun _ => ha
  · exact h.live_lt
  · intro o' ho' hv
    exact h.visible ho ((hr o' ho').2.visible hv)
  · exact h.visible
  · intro o' ho'
    exact (hr o' ho').2.unconfirmed ▸ hu
  · intro o' ho'
    have := h.unconfirmed_iff ho'
    rw [this]
    omega
  · exact fun _ => hn
  · intro hc' ho'
    have := h.gone hc' ho'
    omega
  · exact fun ho' => (hr _ ho').1
  · intro o' ho'
    rcases hk with rfl | ⟨hv, hk⟩
    · exact h.obj ho'
    · refine (h.obj ho').mono (ne_mappedUnconfirmed_of_hidden ?_) hk
      exact Bool.eq_false_iff.mpr fun hv' => hca (h.eq_of_visible ho hv ho' hv')

end Peer

namespace Msg

variable {a b : Nat} {l : List Msg}

theorem mem_word_iff {x m} (h : ∀ m', letter a b m' = some x ↔ m' = m) :
    x ∈ word a b l ↔ m ∈ l := by
  simp [word, h]

theorem desc_mem_word : .desc ∈ word a b l ↔ .desc a ∈ l :=
  mem_word_iff fun m => by cases m <;> simp [letter]; split <;> simp

theorem map_mem_word : .map ∈ word a b l ↔ .map b a ∈ l :=
  mem_word_iff fun m => by cases m <;> simp [letter]

theorem removed_mem_word : .removed ∈ word a b l ↔ .removed b a ∈ l :=
  mem_word_iff fun m => by cases m <;> simp [letter]; split <;> simp

theorem ack_mem_word : .ack ∈ word a b l ↔ .ack b a ∈ l :=
  mem_word_iff fun m => by cases m <;> simp [letter]; split <;> simp

end Msg

namespace Peer

variable {p : Peer} {a b : Nat} {o : Obj}

theorem Ok.side_of_obj (h : p.Ok) (ho : p.obj a = some o) :
    p.side a b = .live (o.rel b) o.state := by
  simp [side, Nat.not_le.mpr (h.live_lt ho), ho, Obj.side]

theorem side_eq_new_iff : p.side a b = .new ↔ p.next ≤ a := by
  simp only [side]
  split
  · simp [*]
  · cases p.obj a <;> simp [Obj.side, *]

theorem of_side_gone (h : p.side a b = .gone) : a < p.next ∧ p.obj a = none := by
  simp only [side] at h
  split at h
  · simp at h
  · cases ho : p.obj a <;> simp_all [Obj.side]

theorem of_side_live {r st} (h : p.side a b = .live r st) :
    ∃ o, p.obj a = some o ∧ o.rel b = r ∧ o.state = st := by
  simp only [side] at h
  split at h
  · simp at h
  · cases ho : p.obj a <;> simp_all [Obj.side]

theorem of_isLive (h : (p.side a b).isLive = true) : ∃ o, p.obj a = some o := by
  cases hs : p.side a b <;> simp only [hs, End.isLive, Bool.false_eq_true] at h
  obtain ⟨o, ho, _⟩ := of_side_live hs
  exact ⟨o, ho⟩

end Peer

-- The invariant of the protocol.
structure Pair.Inv (s : Pair) : Prop where
  p   : s.p.Ok
  q   : s.q.Ok
  qp  : Chan s.p.known s.p.conf s.q.next s.q.known s.qp
  pq  : Chan s.q.known s.q.conf s.p.next s.p.known s.pq
  mem : ∀ a b, s.view a b ∈ table

namespace Pair

variable {s : Pair} {a b c : Nat} {o : Obj}

theorem inv_init : ({} : Pair).Inv where
  p   := Peer.ok_init
  q   := Peer.ok_init
  qp  := Chan.nil
  pq  := Chan.nil
  mem := fun _ _ => init_mem_table

theorem view_swap : s.swap.view a b = (s.view b a).swap := rfl

theorem Inv.swap (h : s.Inv) : s.swap.Inv where
  p   := h.q
  q   := h.p
  qp  := h.pq
  pq  := h.qp
  mem := fun a b => swap_mem_table (h.mem b a)

-- It is enough to look at what happens to single pairs of objects.
theorem Inv.of_views {s' : Pair} (h : s.Inv) (hp : s'.p.Ok) (hq : s'.q.Ok)
    (hqp : Chan s'.p.known s'.p.conf s'.q.next s'.q.known s'.qp)
    (hpq : Chan s'.q.known s'.q.conf s'.p.next s'.p.known s'.pq)
    (hv : ∀ a b, s'.view a b = s.view a b ∨ s'.view a b ∈ (s.view a b).next) : s'.Inv where
  p   := hp
  q   := hq
  qp  := hqp
  pq  := hpq
  mem := fun a b => by
    rcases hv a b with hv | hv
    · exact hv ▸ h.mem a b
    · exact next_mem_table (h.mem a b) hv

-- Who is removing or has been removed is confirmed.
theorem Inv.of_removed_mem (h : s.Inv) (hm : .removed a b ∈ s.qp) :
    b < s.q.conf ∧ ∀ o, s.q.obj b = some o → visible o.state = false := by
  have hq := (mentions (h.mem a b)).removed (Msg.removed_mem_word.mpr hm)
  have hlive : ∀ r, s.q.side b a = .live r awaitAck →
      b < s.q.conf ∧ ∀ o, s.q.obj b = some o → visible o.state = false := by
    intro r hs
    obtain ⟨o, ho, _, hst⟩ := Peer.of_side_live hs
    have hu := h.q.unconfirmed_iff ho
    simp only [hst, unconfirmed, Bool.false_eq_true, false_iff] at hu
    exact ⟨by omega, fun o' ho' => by cases ho.symm.trans ho'; rw [hst]; rfl⟩
  rcases hq with hq | hq | hq
  case inl =>
    obtain ⟨hb, hn⟩ := Peer.of_side_gone hq
    exact ⟨h.q.gone hb hn, by simp [hn]⟩
  case inr.inl => exact hlive _ hq
  case inr.inr => exact hlive _ hq

-- An acknowledgement in flight from an object that is not confirmed was given in advance.
theorem Inv.of_ack_mem (h : s.Inv) (hm : .ack a b ∈ s.qp) :
    b < s.q.next ∧ (s.q.conf ≤ b → ∃ o, s.q.obj b = some o ∧ a ∈ o.skip) := by
  obtain ⟨hn, hu⟩ := (mentions (h.mem a b)).ack (Msg.ack_mem_word.mpr hm)
  have hb : b < s.q.next := Nat.not_le.mp fun hb => hn (Peer.side_eq_new_iff.mpr hb)
  refine ⟨hb, fun hc => ?_⟩
  cases ho : s.q.obj b
  case none => exact absurd (h.q.gone hb ho) (Nat.not_lt.mpr hc)
  case some o =>
    have hs : (s.view a b).q = .live (o.rel a) o.state := h.q.side_of_obj ho
    have := (h.q.unconfirmed_iff ho).mpr hc
    simp only [hs, End.unconfirmed, End.rel, this, true_implies] at hu
    exact ⟨o, rfl, Obj.rel_skip_iff.mp hu⟩

theorem view_put (ha : a < s.p.next) {r} : (s.put a r).view a b = Obj.move (s.view a b) b a r := by
  have : (s.p.put a r.1).side a b = Obj.side b r.1 := by
    simp [Peer.side, Peer.put, Nat.not_le.mpr ha]
  simp [put, view, Obj.move, this]

theorem view_put_of_ne (hc : c ≠ a) {r} :
    (s.put a r).view c b = { s.view c b with pq := (s.view c b).pq ++ Msg.word c b r.2 } := by
  have : (s.p.put a r.1).side c b = s.p.side c b := by
    simp [Peer.side, Peer.put, hc]
  simp [put, view, this]

@[simp] theorem known_put {r} : (s.put a r).p.known = s.p.known := rfl

@[simp] theorem conf_put {r} : (s.put a r).p.conf = s.p.conf := rfl

@[simp] theorem next_put {r} : (s.put a r).p.next = s.p.next := rfl

@[simp] theorem q_put {r} : (s.put a r).q = s.q := rfl

@[simp] theorem pq_put {r} : (s.put a r).pq = s.pq ++ r.2 := rfl

@[simp] theorem qp_put {r} : (s.put a r).qp = s.qp := rfl

-- Acknowledgements and removals sent by `a` do not concern other objects.
theorem view_put_eq (hc : c ≠ a) {r} (hr : ∀ m ∈ r.2, ∃ b, m = .ack b a ∨ m = .removed b a) :
    (s.put a r).view c b = s.view c b := by
  have : Msg.word c b r.2 = [] := by
    refine List.filterMap_eq_nil_iff.mpr fun m hm => ?_
    obtain ⟨b, hb⟩ := hr m hm
    rcases hb with rfl | rfl <;> simp [Msg.letter, hc.symm]
  rw [view_put_of_ne hc, this, List.append_nil]

-- An object may only be created while there is no visible one.
theorem Inv.create (h : s.Inv) (hf : s.p.front = none) : s.create.Inv := by
  have hle := Nat.le_trans h.qp.conf_le h.pq.known_le
  have hvis := (Peer.front_eq_none_iff h.p).mp hf
  refine h.of_views ?_ h.q h.qp h.pq.append_desc fun a b => ?_
  · constructor <;> simp only [Pair.create, Peer.obj_put] <;> intro c <;>
      cases Decidable.em (c = s.p.next) <;> rename_i hc <;> simp only [hc, if_true, if_false]
    · exact fun _ => Nat.lt_succ_self _
    · exact fun ho => Nat.lt_succ_of_lt (h.p.live_lt ho)
    · simp
    · intro o ho hv
      simp [hvis c o ho] at hv
    · intro o ho
      obtain rfl := Option.some.inj ho
      simpa [unconfirmed] using hle
    · exact h.p.unconfirmed_iff
    · simp
    · intro hc' ho
      exact h.p.gone (by omega) ho
    · intro o ho
      obtain rfl := Option.some.inj ho
      constructor <;> simp [Obj.Shape, Obj.refs]
    · exact h.p.obj
  · cases Decidable.em (a = s.p.next)
    case inl ha =>
      subst ha
      refine .inr ?_
      have hp : (s.view s.p.next b).p = .new := Peer.side_eq_new_iff.mpr le_rfl
      have hp' : s.create.p.side s.p.next b = .live .no unusedUnconfirmed := by
        simp [Peer.side, Pair.create, Peer.put, Obj.side, Obj.rel]
      simp only [View.next, List.mem_append, View.create, hp, List.mem_cons]
      refine .inl (.inl (.inl (.inl ?_)))
      simp only [view, hp']
      simp [Pair.create, Msg.letter]
    case inr ha =>
      refine .inl ?_
      have hp' : s.create.p.side a b = s.p.side a b := by
        simp only [Peer.side, Pair.create, Peer.put, Function.update_of_ne ha]
        have : s.p.next + 1 ≤ a ↔ s.p.next ≤ a := by omega
        simp only [this]
      simp only [view, hp']
      simp [Pair.create, Msg.letter, Ne.symm ha]

theorem Inv.createSilent (h : s.Inv) (hn : s.p.next = 0) (hk : s.p.known = 0) :
    s.createSilent.Inv := by
  have hle := h.pq.known_le
  have hce := h.qp.conf_le
  have hqc := h.pq.conf_le
  have hobj : ∀ c, s.p.obj c = none := by
    intro c
    refine Option.eq_none_iff_forall_ne_some.mpr fun o ho => ?_
    have := h.p.live_lt ho
    omega
  have hqk : s.q.known = 0 := by omega
  have hqref : ∀ {b o}, s.q.obj b = some o → o.refs = [] := by
    intro b o ho
    refine List.eq_nil_iff_forall_not_mem.mpr fun c hc => ?_
    have := (h.q.obj ho).below c hc
    omega
  have hqconf : s.q.conf = 0 := by omega
  have hpq : ∀ m ∈ s.pq, m.reply = none := by
    intro m hm
    refine Option.eq_none_iff_forall_ne_some.mpr fun a ha => ?_
    have := (h.pq.reply_iff a).mp ⟨m, hm, ha⟩
    omega
  refine h.of_views ?_ ?_ ?_ ?_ fun a b => ?_
  · constructor <;> simp only [Pair.createSilent, Peer.obj_put, hobj] <;> intro c <;>
      cases Decidable.em (c = 0) <;> rename_i hc <;> simp [hc]
    · rfl
    · constructor <;> simp [Obj.Shape, Obj.refs]
  · constructor
    · exact h.q.live_lt
    · exact h.q.visible
    · exact h.q.unconfirmed_iff
    · exact h.q.gone
    · intro b o ho
      refine (h.q.obj ho).mono (fun hs => ?_) (by omega)
      have hsh := (h.q.obj ho).shape
      have hr := hqref ho
      simp only [Obj.Shape, hs] at hsh
      simp only [Obj.refs, List.append_eq_nil_iff, Option.toList_eq_nil_iff] at hr
      exact hsh.1 hr.2
  · refine { h.qp with conf_le := le_rfl, reply_iff := fun a => ?_ }
    have := h.qp.reply_iff a
    simp only [Pair.createSilent, this]
    omega
  · refine { h.pq with known_le := le_rfl, desc_iff := fun a => ?_, map_known := fun a b hm => ?_ }
    · have := h.pq.desc_iff a
      simp only [Pair.createSilent, this]
      omega
    · simpa [Msg.reply] using hpq _ hm
  · have hq' : s.createSilent.q.side b a = s.q.side b a := rfl
    cases a
    case zero =>
      refine .inr ?_
      have hp : s.p.side 0 b = .new := Peer.side_eq_new_iff.mpr (by omega)
      have hp' : s.createSilent.p.side 0 b = .live .no unusedConfirmed := by
        simp [Peer.side, Pair.createSilent, Peer.put, Obj.side, Obj.rel]
      have hw : Msg.word 0 b s.pq = [] := by
        have hr : ∀ x, Msg.word 0 b s.pq = [x] → x = .noticed ∨ x = .remap → False := by
          intro x hx hxr
          obtain ⟨m, hm, hl⟩ := List.mem_filterMap.mp (hx ▸ List.mem_singleton_self x)
          have := hpq m hm
          rcases hxr with rfl | rfl <;> cases m <;> simp_all [Msg.letter, Msg.reply]
        rcases (settles (h.mem 0 b)).new hp with hv | hv | hv
        · exact hv
        · exact (hr _ hv (.inl rfl)).elim
        · exact (hr _ hv (.inr rfl)).elim
      have hq : s.q.side b 0 = .new ∨ s.q.side b 0 = .live .no unusedUnconfirmed ∨
          s.q.side b 0 = .live .no awaitConfirmation := by
        cases hs : s.q.side b 0
        case new => exact .inl rfl
        case gone =>
          obtain ⟨hb, ho⟩ := Peer.of_side_gone hs
          have := h.q.gone hb ho
          omega
        case live r st =>
          obtain ⟨o, ho, hr, hst⟩ := Peer.of_side_live hs
          have hsh := (h.q.obj ho).shape
          have hu := (h.q.unconfirmed_iff ho).mpr (by omega)
          have href := hqref ho
          obtain rfl : .no = r := (Obj.rel_no_iff.mpr (by simp [href])).symm.trans hr
          simp only [Obj.refs, List.append_eq_nil_iff, Option.toList_eq_nil_iff] at href
          cases st <;> simp_all [unconfirmed, Obj.Shape]
      have hqp := (settles (h.mem 0 b)).new_of_pending hp hw hq
      simp only [View.next, List.mem_append, View.create, view, hp, hw]
      refine .inl (.inl (.inl (List.mem_cons_of_mem _ ?_)))
      rw [if_pos ⟨trivial, hqp, hq⟩, hp', hq']
      exact List.mem_singleton.mpr (by simp [Pair.createSilent, hw])
    case succ a =>
      refine .inl ?_
      have hp' : s.createSilent.p.side (a + 1) b = s.p.side (a + 1) b := by
        simp [Peer.side, Pair.createSilent, Peer.put, hn]
      simp only [view, hp', hq']
      rfl

theorem Inv.destroy (h : s.Inv) (ho : s.p.obj a = some o) (hv : visible o.state) :
    s.destroy a |>.Inv := by
  have hok := h.p.obj ho
  have hnext := h.p.visible ho hv
  have hmsgs : (o.destroy a).2 = [] ∨ ∃ b, (o.destroy a).2 = [.removed b a] := by
    cases hs : o.state <;> simp [Obj.destroy, hs]
    cases o.mapped <;> simp [Obj.removals]
  simp only [Pair.destroy, ho]
  refine h.of_views ?_ h.q h.qp ?_ fun c b => ?_
  · refine h.p.put ho (fun o' hd => ?_) (h.p.unconfirmed_iff ho) (fun hd => ?_) (.inl rfl) (.inl rfl)
    · obtain ⟨hok', hn, _⟩ := hok.destroy hv hd
      exact ⟨hok', hn⟩
    · have hu := (h.p.unconfirmed_iff ho).not
      cases hs : o.state <;> simp [Obj.destroy, hs] at hd
      simp only [hs, unconfirmed, Bool.false_eq_true, not_false_eq_true, true_iff] at hu
      exact Nat.not_le.mp hu
  · rcases hmsgs with hm | ⟨b, hm⟩ <;> simp only [known_put, next_put, q_put, pq_put, hm]
    · simpa using h.pq
    · refine h.pq.append_removed (fun c hc => ?_) (fun c hc => ?_)
      · obtain ⟨hlt, hvis⟩ := h.swap.of_removed_mem hc
        have hca : c ≠ a := by
          rintro rfl
          simp [hvis o ho] at hv
        have : c < s.p.next := Nat.lt_of_lt_of_le hlt (Nat.le_trans h.qp.conf_le h.pq.known_le)
        omega
      · have hlt : c < s.p.next := (h.swap.of_ack_mem hc).1
        omega
  · cases Decidable.em (c = a)
    case inl hc =>
      subst hc
      rw [view_put (h.p.live_lt ho)]
      refine .inr ?_
      simp only [View.next, List.mem_append]
      exact .inl (.inl (.inr (Obj.mem_destroy hok hv (h.p.side_of_obj ho))))
    case inr hc =>
      refine .inl (view_put_eq hc fun m hm => ?_)
      rcases hmsgs with hb | ⟨b, hb⟩ <;> simp_all

end Pair
end Yogi.Mapping
