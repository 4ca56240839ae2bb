import YogiModel.Mapping.Link

namespace Yogi.Mapping.Link.Rel

open FsmState

variable {L : Link} {A B : Objs} {ab ba ba' : List Message} {k : Key} {a b : Nat} {o : Obj}
  {f : Fsm} {i j : Id}

-- The next message as `p` and as the protocol see it.
theorem exists_head (h : L.Rel A B ab ba) {r : Role} {body : Body}
    (hba : ba = r.flip.message body :: ba') :
    ∃ x m l, L.qp = ((r, x), m) :: l ∧ body = m.body x (L.idq (r, x)) (L.idp (r, x)) ∧
      ba' = (l.map fun m => (Key.flip m.1, m.2)).map L.swap.message ∧
      ∀ c, m.src = some c → L.idq (r, x) c ≠ 0 := by
  have hc := h.b.chan
  cases hl : L.qp
  case nil => simp [hba, Link.swap, hl] at hc
  case cons m l =>
    obtain ⟨⟨r', x⟩, m⟩ := m
    simp only [hba, Link.swap, hl, List.map_cons, List.cons.injEq] at hc
    obtain ⟨hr, hb⟩ := Role.message_inj hc.1
    obtain rfl : r = r' := by
      cases r <;> cases r' <;> simp_all [Role.flip, Key.flip]
    refine ⟨x, m, l, rfl, ?_, ?_, fun c hc => ?_⟩
    · simpa [Key.flip] using hb
    · exact hc.2
    · have := h.b.named (k := (r.flip, x)) (m := m) (by simp [Link.swap, hl, Key.flip]) hc
      simpa [Link.swap, Key.flip] using this

theorem channel_cons {m l} : channel k ((k, m) :: l) = m :: channel k l := by
  simp [channel]

theorem channel_cons_of_ne {k' m l} (hk : k' ≠ k) : channel k' ((k, m) :: l) = channel k' l := by
  simp [channel, Ne.symm hk]

-- An object makes a transition on the next message.
theorem act_head (h : L.Rel A B ab ba) {m l} (hl : L.qp = (k, m) :: l)
    (ho : (L.p k).obj a = some o) (hf : A k (L.idp k a) = some f) {out r known conf}
    (hm : Matches k.2 (L.idp k) (L.idq k) a j f o out r)
    (hinv : (((L.pair k).pop known conf).put a r).Inv)
    (hba : ba' = (l.map fun m => (Key.flip m.1, m.2)).map L.swap.message)
    (hn : ∀ m ∈ r.2, ∀ {c}, m.src = some c → L.idp k c ≠ 0)
    (hb : ∀ o', r.1 = some o' → ∀ b, (b ∈ o'.refs ∨ unconfirmed o'.state = true) →
      (b ∈ o.refs ∨ unconfirmed o.state = true) ∨
      ∃ o'', (L.q k).obj b = some o'' ∧ unconfirmed o''.state = true) :
    ∃ L' : Link, L'.Rel (A.set k (L.idp k a) out.result) B (ab ++ sends k (L.idp k a) j out) ba' ∧
      L'.q = L.q := by
  refine h.act ho hf hm hinv rfl rfl rfl ?_ (fun k' hk => ?_) ?_ hba hn hb
  · simp [Pair.pop, pair, hl, channel_cons]
  · rw [hl, channel_cons_of_ne hk]
  · simp [hl]

theorem rcvd_noticed {r : Role} (h : L.Rel A B ab (r.flip.message (.noticed i) :: ba)) :
    ∃ x f out, A (r, x) i = some f ∧ f.processRcvdNoticed = .ok out ∧
      ∃ L' : Link, L'.Rel (A.set (r, x) i out.result) B (ab ++ sends (r, x) i j out) ba ∧
        L'.q = L.q := by
  obtain ⟨x, m, l, hl, hbody, hba, _⟩ := h.exists_head rfl
  cases m <;> simp only [Msg.body, reduceCtorEq, Body.noticed.injEq] at hbody
  case noticed a _ =>
    subst hbody
    have hqp : (L.pair (r, x)).qp = .noticed a :: channel (r, x) l := by
      simp [pair, hl, channel_cons]
    obtain ⟨o, ho, hu, _⟩ := (h.inv (r, x)).noticed_head hqp
    obtain ⟨f, hf, hr, _⟩ := h.a.obj ho
    have hs : o.state ≠ awaitAck := by
      intro hs
      simp [hs, unconfirmed] at hu
    obtain ⟨out, hout, hm⟩ := hr.notice x (L.idp (r, x)) a j hu
      (h.ok ho).shape fun b => h.mappedId ho hf hs
    have hinv := (h.inv (r, x)).receive
    rw [Pair.receive_noticed hqp ho] at hinv
    refine ⟨x, f, out, hf, hout, h.act_head hl ho hf hm hinv hba (fun m hm => ?_) ?_⟩
    · have hm' : m ∈ Obj.acks o.mapped a := by
        cases hst : o.state <;> simpa [Obj.notice, hst] using hm
      obtain ⟨c, _, hc⟩ := List.mem_map.mp hm'
      simp [← hc, Msg.src]
    · exact fun o' ho' b hb => .inl (.inr hu)

theorem rcvd_mapping {r : Role} (h : L.Rel A B ab (r.flip.message (.map i j) :: ba)) :
    ∃ x f out, A (r, x) i = some f ∧ f.processRcvdMapping j = .ok out ∧
      ∃ L' : Link, L'.Rel (A.set (r, x) i out.result) B (ab ++ sends (r, x) i j out) ba ∧
        L'.q = L.q := by
  obtain ⟨x, m, l, hl, hbody, hba, hsrc⟩ := h.exists_head rfl
  cases m <;> simp only [Msg.body, reduceCtorEq, Body.map.injEq] at hbody
  case map a b =>
    obtain ⟨rfl, rfl⟩ := hbody
    have hqp : (L.pair (r, x)).qp = .map a b :: channel (r, x) l := by
      simp [pair, hl, channel_cons]
    have hinv := h.inv (r, x)
    obtain ⟨o, ho, hu, _, _, _, _, hmu⟩ := hinv.map_head hqp
    obtain ⟨f, hf, hr, _⟩ := h.a.obj ho
    have hs : o.state ≠ awaitAck := by
      intro hs
      simp [hs, unconfirmed] at hu
    have hinj : ∀ c, o.mapped = some c → L.idq (r, x) c = L.idq (r, x) b → c = b := by
      intro c hc hi
      have hside : ((L.pair (r, x)).view a c).p = .live (o.rel c) o.state := hinv.p.side_of_obj ho
      have hact : o.rel c = .act := by
        have := (h.ok ho).mapped_not_mem_skip hc
        simp [Obj.rel, this, hc, hs]
      obtain ⟨o', ho'⟩ := Peer.of_isLive ((mentions (hinv.mem a c)).act (by rw [hside]; exact hact))
      have hmem : .map ∈ ((L.pair (r, x)).view a b).qp := by simp [Pair.view, hqp, Msg.letter]
      obtain ⟨o'', ho''⟩ := Peer.of_isLive ((mentions (hinv.mem a b)).map hmem).1
      have hc : (L.swap.p (Key.flip (r, x))).obj c = some o' := by
        simpa [Link.swap] using show (L.q (r, x)).obj c = some o' from ho'
      have hb : (L.swap.p (Key.flip (r, x))).obj b = some o'' := by
        simpa [Link.swap] using show (L.q (r, x)).obj b = some o'' from ho''
      exact h.b.inj hc hb (by simpa [Link.swap] using hi)
    obtain ⟨out, hout, hm⟩ := hr.confirm x (L.idp (r, x)) a (L.idq (r, x) b) hu (h.ok ho).shape (hsrc b rfl) hmu hinj fun b => h.mappedId ho hf hs
    have hinv' := hinv.receive
    rw [Pair.receive_map hqp ho] at hinv'
    refine ⟨x, f, out, hf, hout, h.act_head hl ho hf hm hinv' hba (fun m hm => ?_) ?_⟩
    · cases hst : o.state <;> simp only [Obj.confirm, hst, List.not_mem_nil] at hm
      rcases List.mem_append.mp hm with hm | hm
      · obtain ⟨c, _, hc⟩ := List.mem_map.mp hm
        simp [← hc, Msg.src]
      · simp [List.mem_singleton.mp hm, Msg.src]
    · exact fun o' ho' b hb => .inl (.inr hu)

theorem rcvd_removed {r : Role} (h : L.Rel A B ab (r.flip.message (.removed i) :: ba)) :
    ∃ x f out, A (r, x) i = some f ∧ f.processRcvdRemoved = .ok out ∧
      ∃ L' : Link, L'.Rel (A.set (r, x) i out.result) B (ab ++ sends (r, x) i j out) ba ∧
        L'.q = L.q := by
  obtain ⟨x, m, l, hl, hbody, hba, _⟩ := h.exists_head rfl
  cases m <;> simp only [Msg.body, reduceCtorEq, Body.removed.injEq] at hbody
  case removed a b _ =>
    subst hbody
    have hqp : (L.pair (r, x)).qp = .removed a b :: channel (r, x) l := by
      simp [pair, hl, channel_cons]
    have hinv := h.inv (r, x)
    obtain ⟨o, ho, hrm, _⟩ := hinv.removed_head hqp
    obtain ⟨f, hf, hr, hid⟩ := h.a.obj ho
    have hmid : (o.state = awaitAck → o.skip = []) →
        ∀ c, o.mapped = some c → f.mappedId = L.idq (r, x) c := by
      intro hsk c hc
      cases Decidable.em (o.state = awaitAck)
      case inr hs => exact h.mappedId ho hf hs hc
      case inl hs =>
        have hb : o.mapped = some b := by
          simpa [Obj.refs, hsk hs] using hrm.mem_refs
        obtain rfl : b = c := Option.some.inj (hb.symm.trans hc)
        have hrem : o.rel b = .rem := by
          rcases hrm with ⟨hb', _⟩ | ⟨_, hs'⟩ | hb'
          · have := Obj.rel_skip_iff.mp hb'
            simp [hsk hs] at this
          · simp [hs] at hs'
          · exact hb'
        have hak : o.acked = false := by
          refine Bool.eq_false_iff.mpr fun hak => ?_
          simp [Obj.rel, hsk hs, hb, hs, hak] at hrem
        refine hid b hb hak fun _ => ?_
        have hhead : ((L.pair (r, x)).view a b).qp.head? = some .removed := by
          simp [Pair.view, hqp, Msg.letter]
        have hside : ((L.pair (r, x)).view a b).p = .live (o.rel b) o.state := hinv.p.side_of_obj ho
        obtain ⟨hlive, hrel⟩ := (receives (hinv.mem a b)).head_of_rem hhead (by rw [hside]; exact hrem)
        obtain ⟨o', ho'⟩ := Peer.of_isLive hlive
        have hside' : ((L.pair (r, x)).view a b).q = .live (o'.rel a) o'.state :=
          hinv.q.side_of_obj ho'
        rw [hside'] at hrel
        exact ⟨o', ho', .inl hrel⟩
    obtain ⟨out, hout, hm⟩ := hr.remove x (L.idp (r, x)) a j (h.ok ho).shape hrm hmid
    have hinv' := hinv.receive
    rw [Pair.receive_removed hqp ho] at hinv'
    refine ⟨x, f, out, hf, hout, h.act_head hl ho hf hm hinv' hba (fun m hm => ?_) ?_⟩
    · cases hs : o.skip <;> simp only [Obj.remove, hs, List.not_mem_nil] at hm
      obtain ⟨c, _, hc⟩ := List.mem_map.mp hm
      simp [← hc, Msg.src]
    · intro o' ho' b hb
      obtain ⟨_, hn⟩ := (h.ok ho).remove hrm ho'
      rcases hb with hb | hb
      · exact .inl (.inl (Obj.refs_remove ho' hb))
      · simp [hn.unconfirmed] at hb

theorem rcvd_removedAck {r : Role} (h : L.Rel A B ab (r.flip.message (.ack i) :: ba)) :
    ∃ x f out, A (r, x) i = some f ∧ f.processRcvdRemovedAck = .ok out ∧ out.alive = false ∧
      ∃ L' : Link, L'.Rel (A.set (r, x) i none) B ab ba ∧ L'.q = L.q := by
  obtain ⟨x, m, l, hl, hbody, hba, _⟩ := h.exists_head rfl
  cases m <;> simp only [Msg.body, reduceCtorEq, Body.ack.injEq] at hbody
  case ack a b _ =>
    subst hbody
    have hqp : (L.pair (r, x)).qp = .ack a b :: channel (r, x) l := by
      simp [pair, hl, channel_cons]
    have hinv := h.inv (r, x)
    obtain ⟨o, ho, hrel, _, hsk⟩ := hinv.ack_head hqp
    obtain ⟨f, hf, hr, _⟩ := h.a.obj ho
    obtain ⟨out, hout, hm⟩ : ∃ out, f.processRcvdRemovedAck = .ok out ∧
        Matches x (L.idp (r, x)) (L.idq (r, x)) a 0 f o out (none, []) :=
      hr.acknowledge _ _ _ _ (Obj.state_of_rel_rem hrel) hsk
    have hinv' := hinv.receive
    rw [Pair.receive_ack hqp] at hinv'
    have hal : out.alive = false := by simpa using hm.alive
    refine ⟨x, f, out, hf, hout, hal, ?_⟩
    have := h.act_head hl ho hf hm hinv' hba (by simp) (by simp)
    simpa [Fsm.Outcome.result, hal, sends, hm.calls] using this

theorem rcvd_description {r : Role} {x : Identifier}
    (h : L.Rel A B ab (r.flip.message (.desc x j) :: ba)) (hf : A (r, x) i = some f)
    (hd : f.destroyed = false) (hi : i ≠ 0) :
    j ≠ 0 ∧ ∃ out, f.processRcvdDescription j = .ok out ∧
      ∃ L' : Link, L'.Rel (A.set (r, x) i out.result) B (ab ++ sends (r, x) i j out) ba ∧
        L'.q = L.q := by
  obtain ⟨y, m, l, hl, hbody, hba, hsrc⟩ := h.exists_head rfl
  cases m <;> simp only [Msg.body, reduceCtorEq, Body.desc.injEq] at hbody
  case desc b =>
    obtain ⟨rfl, rfl⟩ := hbody
    obtain ⟨a, o, ho, hia, hr⟩ := h.exists_obj hf
    subst hia
    have hv : visible o.state = true := by simpa [hr.destroyed] using hd
    have hqp : (L.pair (r, x)).qp = .desc b :: channel (r, x) l := by
      simp [pair, hl, channel_cons]
    have hinv := h.inv (r, x)
    have hnext := hinv.p.visible ho hv
    have hfront : (L.pair (r, x)).p.front = some o := by
      refine Peer.front_eq_some_iff.mpr ⟨by omega, ?_, hv⟩
      rw [← hnext]
      exact ho
    have hs : o.state ≠ awaitAck := by
      intro hs
      simp [hs, visible] at hv
    have hj : L.idq (r, x) b ≠ 0 := hsrc b rfl
    obtain ⟨out, hout, hm⟩ := hr.describe x (L.idp (r, x)) a hv
      (h.ok ho).shape hj fun b => h.mappedId ho hf hs
    have hinv' := hinv.receive
    rw [Pair.receive_desc_of_front hqp hfront hnext] at hinv'
    refine ⟨hj, out, hout, h.act_head hl ho hf hm hinv' hba (fun m hm => ?_) fun o' ho' c hc => ?_⟩
    · intro c hc
      rcases List.mem_append.mp hm with hm | hm
      · obtain ⟨d, _, hd⟩ := List.mem_map.mp hm
        simp [← hd, Msg.src] at hc
      · obtain rfl : a = c := by simpa [List.mem_singleton.mp hm, Msg.src] using hc
        exact hi
    · obtain ⟨hrefs, hu⟩ := Obj.refs_describe ho'
      rw [hrefs, hu, List.mem_append, List.mem_singleton, or_right_comm] at hc
      rcases hc with hc | rfl
      · exact .inl hc
      -- The description of `c` is in flight, so there has been no reply to it.
      · refine .inr ?_
        have hc := (hinv.qp.desc_iff c).mp (by simp [hqp])
        have hle := hinv.pq.conf_le
        cases ho'' : (L.q (r, x)).obj c
        case none =>
          have := hinv.q.gone hc.2 ho''
          omega
        case some o'' =>
          exact ⟨o'', rfl, (hinv.q.unconfirmed_iff ho'').mpr (by omega)⟩

theorem front_eq_none (h : L.Rel A B ab ba) (hn : ∀ i f, A k i = some f → f.destroyed = true) :
    (L.p k).front = none := by
  refine (Peer.front_eq_none_iff (h.inv k).p).mpr fun a o ho => ?_
  obtain ⟨f, hf, hr, _⟩ := h.a.obj ho
  simpa [hr.destroyed] using hn _ f hf

theorem rcvd_description_none {r : Role} {x : Identifier}
    (h : L.Rel A B ab (r.flip.message (.desc x j) :: ba))
    (hn : ∀ i f, A (r, x) i = some f → f.destroyed = true) :
    ∃ L' : Link, L'.Rel A B (ab ++ [r.message (.noticed j)]) ba ∧ L'.q = L.q := by
  obtain ⟨y, m, l, hl, hbody, hba, _⟩ := h.exists_head rfl
  cases m <;> simp only [Msg.body, reduceCtorEq, Body.desc.injEq] at hbody
  case desc b _ =>
    obtain ⟨rfl, rfl⟩ := hbody
    have hqp : (L.pair (r, x)).qp = .desc b :: channel (r, x) l := by
      simp [pair, hl, channel_cons]
    have hinv := (h.inv (r, x)).receive
    rw [Pair.receive_desc_of_no_front hqp (h.front_eq_none hn)] at hinv
    refine ⟨L.act (r, x) ((L.pair (r, x)).overlook b) [.noticed b] l, ⟨fun k' => ?_, ?_, ?_⟩, ?_⟩
    · rw [pair_act rfl (by simp [Pair.overlook, Pair.pop, hqp])
        fun k' hk => by rw [hl, channel_cons_of_ne hk]]
      split
      case isTrue => exact hinv
      case isFalse => exact h.inv k'
    · exact h.a.say rfl rfl (by simp [Msg.src])
    · refine h.b.of_remote (fun k' => ?_) ?_ ?_ ?_ hba fun {k' c o' d} ho' hst hd hbd => ?_
      · simp [Link.swap, Link.act, Pair.overlook, Pair.pop, pair]
      · rfl
      · rfl
      · exact List.map_subset _ (by simp [Link.act, hl])
      · have hp : ∀ k', ((L.act (r, x) ((L.pair (r, x)).overlook b) [.noticed b] l).p k').obj =
            (L.p k').obj := by
          intro k'
          cases Decidable.em (k' = (r, x)) <;> simp [Link.act, Pair.overlook, Pair.pop, pair, *]
        simpa only [Bound, Link.swap, hp] using hbd
    · simp [Link.act, Pair.overlook, Pair.pop, pair]

end Yogi.Mapping.Link.Rel
