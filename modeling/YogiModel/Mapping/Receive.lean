import YogiModel.Mapping.Invariant

namespace Yogi.Mapping.Pair

open FsmState

variable {s : Pair} {a b c : Nat} {o : Obj} {l : List Msg}

-- The objects that messages may meet.

theorem Inv.map_head (h : s.Inv) (hq : s.qp = .map a b :: l) :
    ∃ o, s.p.obj a = some o ∧ unconfirmed o.state ∧ a = s.p.conf ∧ b ∉ o.skip ∧ b < s.p.known ∧
      s.p.known ≤ b + 1 ∧ (o.state = mappedUnconfirmed → o.mapped = some b) := by
  have hchan := h.qp
  rw [hq] at hchan
  have hhead : (s.view a b).qp.head? = some .map := by simp [view, hq, Msg.letter]
  have hmem := (receives (h.mem a b)).isLive (.inl (List.mem_of_head? hhead))
  obtain ⟨o, ho⟩ := Peer.of_isLive hmem
  obtain ⟨hdesc, hnew, hskip⟩ := (receives (h.mem a b)).map_head hhead
  obtain ⟨hac, _⟩ := hchan.reply_head (a := a) rfl
  have hbn : b < s.q.next := Nat.not_le.mp fun hb => hnew (Peer.side_eq_new_iff.mpr hb)
  have hbk : b < s.p.known := by
    refine Nat.not_le.mp fun hb => hdesc (Msg.desc_mem_word.mpr ?_)
    exact (h.qp.desc_iff b).mpr ⟨hb, hbn⟩
  have hkb := hchan.map_known a b List.mem_cons_self
  have hside : (s.view a b).p = .live (o.rel b) o.state := h.p.side_of_obj ho
  refine ⟨o, ho, (h.p.unconfirmed_iff ho).mpr hac.ge, hac, ?_, hbk, hkb, ?_⟩
  · rw [hside] at hskip
    exact fun hb => hskip (Obj.rel_skip_iff.mpr hb)
  · intro hs
    have hsh := (h.p.obj ho).shape
    simp only [Obj.Shape, hs] at hsh
    obtain ⟨b', hb'⟩ := Option.ne_none_iff_exists'.mp hsh.1
    have := (h.p.obj ho).front hs b' hb'
    rw [hb']
    congr 1
    omega

theorem Inv.noticed_head (h : s.Inv) (hq : s.qp = .noticed a :: l) :
    ∃ o, s.p.obj a = some o ∧ unconfirmed o.state ∧ a = s.p.conf := by
  have hchan := h.qp
  rw [hq] at hchan
  have hhead : .noticed ∈ (s.view a 0).qp := by simp [view, hq, Msg.letter]
  obtain ⟨o, ho⟩ := Peer.of_isLive ((receives (h.mem a 0)).isLive (.inr (.inr (.inl hhead))))
  obtain ⟨hac, _⟩ := hchan.reply_head (a := a) rfl
  exact ⟨o, ho, (h.p.unconfirmed_iff ho).mpr hac.ge, hac⟩

-- If the removal of an object, which has been acknowledged in advance, is not in flight yet then the
-- object has yet to be confirmed.
theorem Inv.of_mem_skip (h : s.Inv) (ho : s.p.obj a = some o) (hu : unconfirmed o.state = false)
    (hb : b ∈ o.skip) : .removed a b ∈ s.qp ∨ (.map b a ∈ s.pq ∧ s.q.conf ≤ b) := by
  have hside : (s.view a b).p = .live (o.rel b) o.state := h.p.side_of_obj ho
  have hs := (mentions (h.mem a b)).skip (by rw [hside]; exact Obj.rel_skip_iff.mpr hb)
    (by rw [hside]; exact hu)
  rcases hs with hs | ⟨hm, hs⟩
  · exact .inl (Msg.removed_mem_word.mp hs)
  · refine .inr ⟨Msg.map_mem_word.mp hm, ?_⟩
    cases hq : (s.view a b).q <;> simp only [hq, End.unconfirmed, Bool.false_eq_true] at hs
    obtain ⟨o', ho', _, hst⟩ := Peer.of_side_live hq
    exact (h.q.unconfirmed_iff ho').mp (hst ▸ hs)

theorem Inv.removed_head (h : s.Inv) (hq : s.qp = .removed a b :: l) :
    ∃ o, s.p.obj a = some o ∧ o.Removable b ∧ ∀ d ∈ o.skip.head?, d = b := by
  have hhead : (s.view a b).qp.head? = some .removed := by simp [view, hq, Msg.letter]
  have hmem := (receives (h.mem a b)).isLive (.inr (.inr (.inr (.inl (List.mem_of_head? hhead)))))
  obtain ⟨o, ho⟩ := Peer.of_isLive hmem
  have hok := h.p.obj ho
  have hside : (s.view a b).p = .live (o.rel b) o.state := h.p.side_of_obj ho
  have hrm : o.Removable b := by
    have := (receives (h.mem a b)).removed_head hhead
    rw [hside] at this
    simpa [Obj.Removable, End.rel, End.unconfirmed] using this
  refine ⟨o, ho, hrm, fun d hd => ?_⟩
  obtain ⟨sk, hsk⟩ : ∃ sk, o.skip = d :: sk := List.head?_eq_some_iff.mp hd
  refine Decidable.by_contra fun hdb => ?_
  have hlt : d < b := by
    have hs := hok.sorted
    have hr := hrm.mem_refs
    simp only [Obj.refs, hsk, List.cons_append, List.pairwise_cons, List.mem_cons] at hs hr
    exact hs.1 b (hr.resolve_left (Ne.symm hdb))
  have hbc := h.of_removed_mem (a := a) (b := b) (by simp [hq])
  rcases h.of_mem_skip ho hrm.confirmed (b := d) (by simp [hsk]) with hm | ⟨_, hc⟩
  · have ho := h.qp.ordered
    rw [hq] at hm ho
    rcases List.mem_cons.mp hm with hm | hm
    · exact hdb (Msg.removed.inj hm).2
    · have := (List.pairwise_cons.mp ho).1 _ hm
      simp only [Msg.Ordered, true_implies] at this
      omega
  · omega

theorem Inv.ack_head (h : s.Inv) (hq : s.qp = .ack a b :: l) :
    ∃ o, s.p.obj a = some o ∧ (o.rel b = .rem ∨ o.rel b = .rma) ∧ o.mapped = some b ∧
      o.skip = [] := by
  have hhead : (s.view a b).qp.head? = some .ack := by simp [view, hq, Msg.letter]
  have hmem := (receives (h.mem a b)).isLive (.inr (.inr (.inr (.inr (List.mem_of_head? hhead)))))
  obtain ⟨o, ho⟩ := Peer.of_isLive hmem
  have hok := h.p.obj ho
  have hside : (s.view a b).p = .live (o.rel b) o.state := h.p.side_of_obj ho
  have hrel : o.rel b = .rem ∨ o.rel b = .rma := by
    have := (receives (h.mem a b)).ack_head hhead
    rwa [hside] at this
  have hst := Obj.state_of_rel_rem hrel
  have hm : o.mapped = some b := by
    refine Decidable.by_contra fun hm => ?_
    simp only [Obj.rel, hm, if_false] at hrel
    split at hrel <;> simp at hrel
  refine ⟨o, ho, hrel, hm, ?_⟩
  refine List.eq_nil_iff_forall_not_mem.mpr fun d hd => ?_
  have hlt := hok.lt_of_mapped hm hd
  rcases h.of_mem_skip ho (by rw [hst]; rfl) hd with hr | ⟨hr, hc⟩
  · have ho := h.qp.ordered
    rw [hq] at hr ho
    rcases List.mem_cons.mp hr with hr | hr
    · simp at hr
    · have := (List.pairwise_cons.mp ho).1 _ hr
      simp only [Msg.Ordered, true_implies] at this
      omega
  -- The object `b` must itself have been superseded by an object younger than `a`, which cannot be
  -- as long as the reply of `a` to `d` is in flight.
  · obtain ⟨_, hack⟩ := h.of_ack_mem (a := a) (b := b) (by simp [hq])
    obtain ⟨o', ho', ha⟩ := hack (by omega)
    have hok' := h.q.obj ho'
    have hu' := (h.q.unconfirmed_iff ho').mpr (by omega)
    have hkn := h.pq.map_known d a hr
    have := hok'.lt_of_mem_skip hu' ha
    omega

-- The state after the first message has been taken from the channel.
def pop (s : Pair) (known conf : Nat) : Pair :=
  { s with p := { s.p with known := known, conf := conf }, qp := s.qp.tail }

theorem receive_desc_of_front {l} (hq : s.qp = .desc b :: l) (hf : s.p.front = some o)
    (ha : a + 1 = s.p.next) :
    s.receive = (s.pop (b + 1) s.p.conf).put a (o.describe a b) := by
  simp [receive, hq, handle, hf, pop, ← ha]

-- The state after it has been noticed that there is no visible object to go with a description.
def overlook (s : Pair) (b : Nat) : Pair :=
  { s.pop (b + 1) s.p.conf with pq := s.pq ++ [.noticed b] }

theorem receive_desc_of_no_front {l} (hq : s.qp = .desc b :: l) (hf : s.p.front = none) :
    s.receive = s.overlook b := by
  simp [receive, hq, handle, hf, pop, overlook]

theorem receive_map {l} (hq : s.qp = .map a b :: l) (ho : s.p.obj a = some o) :
    s.receive = (s.pop s.p.known (a + 1)).put a (o.confirm a b) := by
  simp [receive, hq, handle, ho, pop]

theorem receive_noticed {l} (hq : s.qp = .noticed a :: l) (ho : s.p.obj a = some o) :
    s.receive = (s.pop s.p.known (a + 1)).put a (o.notice a) := by
  simp [receive, hq, handle, ho, pop]

theorem receive_removed {l} (hq : s.qp = .removed a b :: l) (ho : s.p.obj a = some o) :
    s.receive = (s.pop s.p.known s.p.conf).put a (o.remove a) := by
  simp [receive, hq, handle, ho, pop]

theorem receive_ack {l} (hq : s.qp = .ack a b :: l) :
    s.receive = (s.pop s.p.known s.p.conf).put a (none, []) := by
  simp [receive, hq, handle, pop]

theorem view_pop {known conf} :
    (s.pop known conf).view a b = { s.view a b with qp := Msg.word b a s.qp.tail } := rfl

theorem view_overlook : (s.overlook c).view a b =
    { s.view a b with
      pq := (s.view a b).pq ++ Msg.word a b [.noticed c]
      qp := Msg.word b a s.qp.tail } := by
  simp only [view, overlook, Msg.word_append]
  rfl

-- A message is the next one for all pairs of objects that it concerns and passes unnoticed by others.
theorem view_qp {m l} (hq : s.qp = m :: l) :
    (s.view a b).qp = (m.letter b a).toList ++ Msg.word b a s.qp.tail := by
  simp [view, hq]


theorem view_receive {r known conf} (ha : a < s.p.next) :
    ((s.pop known conf).put a r).view a b =
      { Obj.move (s.view a b) b a r with qp := Msg.word b a s.qp.tail } :=
  view_put (s := s.pop known conf) ha

theorem view_pop_of_letter_none {m known conf} (hq : s.qp = m :: l) (hm : m.letter b a = none) :
    (s.pop known conf).view a b = s.view a b := by
  have := view_qp (a := a) (b := b) hq
  simp only [hm, Option.toList_none, List.nil_append] at this
  rw [view_pop, ← this]

theorem mem_next_of_receive {m x v} (hq : s.qp = m :: l) (hm : m.letter b a = some x)
    (hv : v ∈ (s.view a b).receive x (Msg.word b a s.qp.tail)) : v ∈ (s.view a b).next := by
  have := view_qp (a := a) (b := b) hq
  simp only [hm, Option.toList_some, List.singleton_append] at this
  simp only [View.next, this, List.mem_append]
  exact .inr hv

theorem mem_next_of_other {v w : View} (hv : w ∈ v.other) : w ∈ v.next := by
  simp only [View.next, List.mem_append]
  exact .inl (.inr hv)

-- For a pair that a message does not concern, its receipt is at most a message to someone else.
theorem view_receive_of_letter_none {m r known conf} (hq : s.qp = m :: l)
    (hm : m.letter b a = none) (ha : a < s.p.next) :
    ((s.pop known conf).put a r).view a b = Obj.move (s.view a b) b a r := by
  rw [view_put (s := s.pop known conf) ha, view_pop_of_letter_none hq hm]

theorem Inv.receive_noticed (h : s.Inv) (hq : s.qp = .noticed a :: l) : s.receive.Inv := by
  obtain ⟨o, ho, hu, hac⟩ := h.noticed_head hq
  have hok := h.p.obj ho
  have hlt := h.p.live_lt ho
  have hchan := h.qp
  rw [hq] at hchan
  have hmsgs : (o.notice a).2 = Obj.acks o.mapped a := by
    cases hs : o.state <;> simp [Obj.notice, hs]
  rw [Pair.receive_noticed hq ho]
  refine h.of_views ?_ h.q ?_ ?_ fun c b => ?_
  · exact h.p.put ho (fun o' hd => hok.notice hu hd) (by simp [pop]) (fun _ => Nat.lt_succ_self a)
      (.inr ⟨rfl, hac.symm⟩) (.inl rfl)
  · have := (hchan.reply_head (a := a) rfl).2
    simpa [pop, hq, hac] using this
  · rw [pq_put, hmsgs]
    exact h.pq.append_acks
  · cases Decidable.em (c = a)
    case inl hc =>
      subst hc
      rw [view_receive hlt]
      exact .inr (mem_next_of_receive hq (by simp [Msg.letter])
        (Obj.mem_receive_noticed hok hu (h.p.side_of_obj ho)))
    case inr hc =>
      refine .inl ?_
      rw [view_put_eq hc, view_pop_of_letter_none hq (by simp [Msg.letter, Ne.symm hc])]
      rw [hmsgs]
      cases o.mapped <;> simp [Obj.acks]

theorem Inv.receive_map (h : s.Inv) (hq : s.qp = .map a b :: l) : s.receive.Inv := by
  obtain ⟨o, ho, hu, hac, hskip, hbk, hkb, hm⟩ := h.map_head hq
  have hok := h.p.obj ho
  have hlt := h.p.live_lt ho
  have hchan := h.qp
  rw [hq] at hchan
  have hmsgs : (o.confirm a b).2 = [] ∨
      ∃ m, (o.confirm a b).2 = Obj.acks m a ++ [.removed b a] := by
    cases hs : o.state <;> simp [Obj.confirm, hs]
    exact ⟨_, rfl⟩
  rw [Pair.receive_map hq ho]
  refine h.of_views ?_ h.q ?_ ?_ fun c d => ?_
  · exact h.p.put ho (fun o' hd => hok.confirm hu hskip hbk hkb hm hd) (by simp [pop])
      (fun _ => Nat.lt_succ_self a) (.inr ⟨rfl, hac.symm⟩) (.inl rfl)
  · have := (hchan.reply_head (a := a) rfl).2
    simpa [pop, hq, hac] using this
  · rw [pq_put]
    rcases hmsgs with hmsgs | ⟨m, hmsgs⟩ <;> rw [hmsgs]
    · simpa [pop] using h.pq
    · rw [← List.append_assoc]
      refine h.pq.append_acks.append_removed (fun c hc => ?_) (fun c hc => ?_)
      · have hc : .removed b c ∈ s.pq := by
          cases m <;> simpa [Obj.acks] using hc
        exact hac ▸ (h.swap.of_removed_mem hc).1
      · rcases List.mem_append.mp hc with hc | hc
        · refine Nat.not_lt.mp fun hlt => ?_
          have hcc : s.p.conf ≤ c := by omega
          obtain ⟨o', ho', hb'⟩ := (h.swap.of_ack_mem hc).2 hcc
          have := (h.p.obj ho').lt_of_mem_skip ((h.p.unconfirmed_iff ho').mpr hcc) hb'
          omega
        · cases m <;> simp [Obj.acks] at hc
          exact hc.2.le
  · cases Decidable.em (c = a)
    case inl hc =>
      subst hc
      rw [view_receive hlt]
      refine .inr ?_
      cases Decidable.em (d = b)
      case inl hd =>
        subst hd
        exact mem_next_of_receive hq (by simp [Msg.letter])
          (Obj.mem_receive_map hok hu hskip hm (h.p.side_of_obj ho))
      case inr hd =>
        exact mem_next_of_receive hq (by simp [Msg.letter, Ne.symm hd])
          (Obj.mem_receive_remap hok hu hd hm (h.p.side_of_obj ho))
    case inr hc =>
      refine .inl ?_
      rw [view_put_eq hc, view_pop_of_letter_none hq (by simp [Msg.letter, Ne.symm hc])]
      rcases hmsgs with hmsgs | ⟨m, hmsgs⟩ <;> rw [hmsgs]
      · simp
      · cases m <;> simp [Obj.acks]

theorem Inv.receive_removed (h : s.Inv) (hq : s.qp = .removed a b :: l) : s.receive.Inv := by
  obtain ⟨o, ho, hrm, hhead⟩ := h.removed_head hq
  have hok := h.p.obj ho
  have hlt := h.p.live_lt ho
  have hu : (false : Bool) = true ↔ s.p.conf ≤ a := by
    rw [← h.p.unconfirmed_iff ho, hrm.confirmed]
  have hchan := h.qp
  rw [hq] at hchan
  have hmsgs : ∃ m, (o.remove a).2 = Obj.acks m a := by
    cases hs : o.skip
    case nil => exact ⟨o.mapped, by simp [Obj.remove, hs]⟩
    case cons => exact ⟨none, by simp [Obj.remove, hs, Obj.acks]⟩
  obtain ⟨m, hm⟩ := hmsgs
  rw [Pair.receive_removed hq ho]
  refine h.of_views ?_ h.q ?_ ?_ fun c d => ?_
  · refine h.p.put ho (fun o' hd => hok.remove hrm hd) hu (fun _ => ?_) (.inl rfl) (.inl rfl)
    exact Nat.not_le.mp fun hc => Bool.false_ne_true (hu.mpr hc)
  · simpa [pop, hq] using hchan.tail (by simp) rfl
  · rw [pq_put, hm]
    exact h.pq.append_acks
  · cases Decidable.em (c = a)
    case inl hc =>
      subst hc
      cases Decidable.em (d = b)
      case inl hd =>
        subst hd
        rw [view_receive hlt]
        exact .inr (mem_next_of_receive hq (by simp [Msg.letter])
          (Obj.mem_receive_removed hok hrm hhead (h.p.side_of_obj ho)))
      case inr hd =>
        rw [view_receive_of_letter_none hq (by simp [Msg.letter, Ne.symm hd]) hlt]
        exact (Obj.mem_other_of_remove hok hrm hhead hd (h.p.side_of_obj ho)).imp_right
          mem_next_of_other
    case inr hc =>
      refine .inl ?_
      rw [view_put_eq hc, view_pop_of_letter_none hq (by simp [Msg.letter, Ne.symm hc])]
      rw [hm]
      cases m <;> simp [Obj.acks]

theorem Inv.receive_ack (h : s.Inv) (hq : s.qp = .ack a b :: l) : s.receive.Inv := by
  obtain ⟨o, ho, hrel, hm, hskip⟩ := h.ack_head hq
  have hst := Obj.state_of_rel_rem hrel
  have hlt := h.p.live_lt ho
  have hu : a < s.p.conf := by
    refine Nat.not_le.mp fun hc => ?_
    simpa [hst, unconfirmed] using (h.p.unconfirmed_iff ho).mpr hc
  have hchan := h.qp
  rw [hq] at hchan
  rw [Pair.receive_ack hq]
  refine h.of_views ?_ h.q ?_ ?_ fun c d => ?_
  · exact h.p.put ho (fun _ hd => by cases hd) (h.p.unconfirmed_iff ho) (fun _ => hu) (.inl rfl) (.inl rfl)
  · simpa [pop, hq] using hchan.tail (by simp) rfl
  · simpa [pop] using h.pq
  · cases Decidable.em (c = a)
    case inl hc =>
      subst hc
      refine .inr ?_
      cases Decidable.em (d = b)
      case inl hd =>
        subst hd
        rw [view_receive hlt]
        exact mem_next_of_receive hq (by simp [Msg.letter])
          (Obj.mem_receive_ack hrel (h.p.side_of_obj ho))
      case inr hd =>
        rw [view_receive_of_letter_none hq (by simp [Msg.letter, Ne.symm hd]) hlt]
        exact mem_next_of_other (Obj.mem_other_of_ack hst hm hskip hd (h.p.side_of_obj ho))
    case inr hc =>
      refine .inl ?_
      rw [view_put_eq hc, view_pop_of_letter_none hq (by simp [Msg.letter, Ne.symm hc])]
      simp

-- Only visible objects notice that there is a description.
theorem receive_desc_of_hidden {v : View} {w : List Letter} (hv : v.p.visible = false) :
    { v with pq := v.pq ++ [.noticed], qp := w } ∈ v.receive .desc w ∧
    { v with pq := v.pq ++ [.remap], qp := w } ∈ v.receive .desc w := by
  cases hp : v.p <;> simp_all [View.receive, End.visible]

theorem side_hidden (hc : ∀ o, s.p.obj c = some o → visible o.state = false) :
    (s.p.side c b).visible = false := by
  cases hs : s.p.side c b
  case new => rfl
  case gone => rfl
  case live r st =>
    obtain ⟨o, ho, _, hst⟩ := Peer.of_side_live hs
    exact hst ▸ hc o ho

theorem Inv.receive_desc_no_front (h : s.Inv) (hq : s.qp = .desc b :: l) (hf : s.p.front = none) :
    s.receive.Inv := by
  have hvis := (Peer.front_eq_none_iff h.p).mp hf
  have hchan := h.qp
  rw [hq] at hchan
  obtain ⟨hbk, hchan⟩ := hchan.desc_head
  rw [receive_desc_of_no_front hq hf]
  refine h.of_views ?_ h.q ?_ ?_ fun c d => ?_
  · refine { h.p with obj := fun ho => ?_ }
    exact (h.p.obj ho).mono (Peer.ne_mappedUnconfirmed_of_hidden (hvis _ _ ho))
      (by simp [overlook, pop, hbk])
  · simpa [overlook, pop, hq, hbk] using hchan
  · simpa [overlook, pop, hbk] using h.pq.append_reply (m := .noticed b) (by simp [Msg.reply, hbk]) (by simp)
  · cases Decidable.em (d = b)
    case inl hd =>
      subst hd
      have := (receive_desc_of_hidden (v := s.view c d) (w := Msg.word d c s.qp.tail)
        (side_hidden (hvis c))).1
      have hl : (Msg.desc d).letter d c = some .desc := by simp [Msg.letter]
      refine .inr (mem_next_of_receive hq hl ?_)
      rw [view_overlook]
      simpa [Msg.letter] using this
    case inr hd =>
      refine .inl ?_
      have hp : (s.pop (b + 1) s.p.conf).view c d = s.view c d :=
        view_pop_of_letter_none hq (by simp [Msg.letter, Ne.symm hd])
      rw [view_pop] at hp
      rw [view_overlook]
      simpa [Msg.letter, Ne.symm hd] using hp

theorem Inv.receive_desc_front (h : s.Inv) (hq : s.qp = .desc b :: l) (hf : s.p.front = some o) :
    s.receive.Inv := by
  obtain ⟨hpos, ho, hv⟩ := Peer.front_eq_some_iff.mp hf
  obtain ⟨a, ha⟩ : ∃ a, a + 1 = s.p.next := ⟨s.p.next - 1, by omega⟩
  rw [← ha, Nat.add_sub_cancel] at ho
  have hok := h.p.obj ho
  have hlt := h.p.live_lt ho
  have hchan := h.qp
  rw [hq] at hchan
  obtain ⟨hbk, hchan⟩ := hchan.desc_head
  have hbn : b < s.q.next := ((h.qp.desc_iff b).mp (by simp [hq])).2
  have hfresh : b ∉ o.refs := fun hb => by
    have := hok.below b hb
    omega
  rw [receive_desc_of_front hq hf ha]
  refine h.of_views ?_ h.q ?_ ?_ fun c d => ?_
  · refine h.p.put ho (fun o' hd => ?_) (h.p.unconfirmed_iff ho) (fun hd => by cases hd) (.inl rfl) (.inr ⟨hv, ?_⟩)
    · exact (hbk ▸ hok).describe hv hd
    · simp [pop, hbk]
  · simpa [pop, hq, hbk] using hchan
  · rw [pq_put]
    simp only [Obj.describe, ← List.append_assoc]
    have := (h.pq.append_acks (a := a) (m := o.mapped)).append_reply (m := .map b a)
      (by simp [Msg.reply, hbk]) (by simp [ha])
    simpa [pop, hbk] using this
  · cases Decidable.em (c = a)
    case inl hc =>
      subst hc
      cases Decidable.em (d = b)
      case inl hd =>
        subst hd
        rw [view_receive hlt]
        exact .inr (mem_next_of_receive hq (by simp [Msg.letter])
          (Obj.mem_receive_desc hok hv hfresh (h.p.side_of_obj ho)))
      case inr hd =>
        rw [view_receive_of_letter_none hq (by simp [Msg.letter, Ne.symm hd]) hlt]
        refine (Obj.mem_other_of_describe hok hv hd (fun hm => ?_) (h.p.side_of_obj ho)).imp_right
          mem_next_of_other
        have hdk := hok.below d (by simp [Obj.refs, hm])
        refine ⟨?_, ?_, ?_⟩
        · refine side_hidden (s := s.swap) fun o' ho' => Bool.eq_false_iff.mpr fun hv' => ?_
          have := h.q.visible ho' hv'
          omega
        · exact fun hn => absurd (Peer.side_eq_new_iff.mp hn) (by omega)
        · intro hmap
          have hmap := Msg.map_mem_word.mp hmap
          rw [hq] at hmap
          have := hchan.map_known c d (by simpa using hmap)
          omega
    case inr hc =>
      have hhid : ∀ o', s.p.obj c = some o' → visible o'.state = false := fun o' ho' =>
        Bool.eq_false_iff.mpr fun hv' => hc (h.p.eq_of_visible ho hv ho' hv')
      rw [view_put_of_ne hc]
      have hacks : Msg.word c d (Obj.acks o.mapped a) = [] := by
        cases o.mapped <;> simp [Obj.acks, Msg.letter, Ne.symm hc]
      cases Decidable.em (d = b)
      case inl hd =>
        subst hd
        have := (receive_desc_of_hidden (v := s.view c d) (w := Msg.word d c s.qp.tail)
          (side_hidden hhid)).2
        have hl : (Msg.desc d).letter d c = some .desc := by simp [Msg.letter]
        refine .inr (mem_next_of_receive hq hl ?_)
        simpa [view_pop, Obj.describe, hacks, Msg.letter, Ne.symm hc] using this
      case inr hd =>
        refine .inl ?_
        rw [view_pop_of_letter_none hq (by simp [Msg.letter, Ne.symm hd])]
        simp [Obj.describe, hacks, Msg.letter, Ne.symm hd]

theorem Inv.receive (h : s.Inv) : s.receive.Inv := by
  cases hq : s.qp
  case nil => simpa [Pair.receive, hq] using h
  case cons m l =>
    cases m
    case desc b =>
      cases hf : s.p.front
      case none => exact h.receive_desc_no_front hq hf
      case some o => exact h.receive_desc_front hq hf
    case map a b => exact h.receive_map hq
    case noticed a => exact h.receive_noticed hq
    case removed a b => exact h.receive_removed hq
    case ack a b => exact h.receive_ack hq

-- What the peers look like when there is nothing in flight.

theorem Inv.counts_of_quiescent (h : s.Inv) (hpq : s.pq = []) (hqp : s.qp = []) :
    s.p.conf = s.p.next := by
  have hd := h.pq.desc_iff s.q.known
  have hr := h.qp.reply_iff s.p.conf
  have := h.pq.known_le
  have := h.qp.conf_le
  simp only [hpq, hqp, List.not_mem_nil, false_and, exists_false, false_iff] at hd hr
  omega

theorem Inv.skip_of_quiescent (h : s.Inv) (hpq : s.pq = []) (hqp : s.qp = [])
    (ho : s.p.obj a = some o) : unconfirmed o.state = false ∧ o.skip = [] := by
  have hu : unconfirmed o.state = false := by
    refine Bool.eq_false_iff.mpr fun hu => ?_
    have := (h.p.unconfirmed_iff ho).mp hu
    have := h.p.live_lt ho
    have := h.counts_of_quiescent hpq hqp
    omega
  refine ⟨hu, List.eq_nil_iff_forall_not_mem.mpr fun b hb => ?_⟩
  rcases h.of_mem_skip ho hu hb with hm | ⟨hm, _⟩
  · simp [hqp] at hm
  · simp [hpq] at hm

theorem Inv.of_quiescent_mapped (h : s.Inv) (hpq : s.pq = []) (hqp : s.qp = [])
    (ho : s.p.obj a = some o) (hm : o.mapped = some b) :
    o.state = mappedConfirmed ∧
    ∃ o', s.q.obj b = some o' ∧ o'.state = mappedConfirmed ∧ o'.mapped = some a := by
  obtain ⟨_, hs⟩ := h.skip_of_quiescent hpq hqp ho
  have hside : (s.view a b).p = .live (o.rel b) o.state := h.p.side_of_obj ho
  have hv := (settles (h.mem a b)).quiescent (by simp [view, hpq]) (by simp [view, hqp])
  rcases hv with ⟨hr, _⟩ | ⟨hp, hq⟩
  · rw [hside] at hr
    exact absurd (by simp [Obj.refs, hm]) (Obj.rel_no_iff.mp hr)
  · obtain ⟨o', ho', hr', hst'⟩ := Peer.of_side_live hq
    rw [hside] at hp
    obtain ⟨_, hs'⟩ := h.swap.skip_of_quiescent hqp hpq ho'
    refine ⟨(End.live.inj hp).2, o', ho', hst', ?_⟩
    have hr : o'.rel a ≠ .no := by simp [hr']
    simpa [Obj.refs, hs'] using (not_iff_not.mpr Obj.rel_no_iff).mp hr

-- There are no hidden objects.
theorem Inv.visible_of_quiescent (h : s.Inv) (hpq : s.pq = []) (hqp : s.qp = [])
    (ho : s.p.obj a = some o) : visible o.state := by
  obtain ⟨hu, hs⟩ := h.skip_of_quiescent hpq hqp ho
  have hsh := (h.p.obj ho).shape
  cases hm : o.mapped
  case none => cases hst : o.state <;> simp_all [Obj.Shape, unconfirmed, visible]
  case some b =>
    rw [(h.of_quiescent_mapped hpq hqp ho hm).1]
    rfl

theorem Inv.mapped_of_quiescent (h : s.Inv) (hpq : s.pq = []) (hqp : s.qp = []) {o'}
    (ho : s.p.obj a = some o) (ho' : s.q.obj b = some o') : o.mapped = some b := by
  have hside : (s.view a b).p = .live (o.rel b) o.state := h.p.side_of_obj ho
  have hside' : (s.view a b).q = .live (o'.rel a) o'.state := h.q.side_of_obj ho'
  obtain ⟨_, hs⟩ := h.skip_of_quiescent hpq hqp ho
  have hv := (settles (h.mem a b)).quiescent (by simp [view, hpq]) (by simp [view, hqp])
  rcases hv with ⟨_, _, hn⟩ | ⟨hp, _⟩
  · rw [hside, hside'] at hn
    exact absurd ⟨h.visible_of_quiescent hpq hqp ho, h.swap.visible_of_quiescent hqp hpq ho'⟩ hn
  · rw [hside] at hp
    have hr : o.rel b ≠ .no := by simp [(End.live.inj hp).1]
    simpa [Obj.refs, hs] using (not_iff_not.mpr Obj.rel_no_iff).mp hr

end Yogi.Mapping.Pair
