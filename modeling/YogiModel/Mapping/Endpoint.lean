import YogiModel.Mapping.Birth

namespace Yogi.Mapping

-- No object of a key in `K` has been created or described to `p` yet.
def Fresh (p : Key → Peer) (K : Key → Prop) : Prop :=
  ∀ k, K k → (p k).next = 0 ∧ (p k).known = 0

-- The objects `A` and `B` of the two endpoints of a connection with the messages `ab` and `ba` in
-- flight may be the result of a run of the protocol, `K` and `K'` being the keys the endpoints have
-- not made use of.
def Linked (A B : Objs) (ab ba : List Message) (K K' : Key → Prop) : Prop :=
  ∃ L : Link, L.Rel A B ab ba ∧ Fresh L.p K ∧ Fresh L.swap.p K'

-- The moves of an endpoint that are not caused by a message.
inductive Moves : Objs → List Message → Objs → Prop
  | refl {A} : Moves A [] A
  | create {A k i} (hn : ∀ j f, A k j = some f → f.destroyed = true) (hi : A k i = none)
      (h0 : i ≠ 0) :
      Moves A [k.1.message (.desc k.2 i)] (A.set k i (some { state := .unusedUnconfirmed }))
  | destroy {A k i f out} (hf : A k i = some f) (hd : f.destroyed = false)
      (ho : f.processObjectDestroyed = .ok out) : Moves A (sends k i 0 out) (A.set k i out.result)
  | reid {A k i j} (hf : A k i = some {}) (hj : A k j = none) :
      Moves A [] ((A.set k i none).set k j (some {}))
  | trans {A A' A'' ms ms'} (h : Moves A ms A') (h' : Moves A' ms' A'') : Moves A (ms ++ ms') A''

-- New objects are described one after the other.
theorem Moves.describe {A : Objs} (ks : List (Key × Id)) (hk : (ks.map Prod.fst).Nodup)
    (h0 : ∀ k i, (k, i) ∈ ks → i ≠ 0) (hA : ∀ k i, (k, i) ∈ ks → ∀ j, A k j = none) :
    Moves A (ks.map fun k => k.1.1.message (.desc k.1.2 k.2))
      (fun k i => if (k, i) ∈ ks then some { state := .unusedUnconfirmed } else A k i) := by
  induction ks generalizing A
  case nil => simpa using Moves.refl
  case cons ki ks ih =>
    cases ki
    case mk k i =>
    obtain ⟨hnk, hnd⟩ := List.nodup_cons.mp hk
    have hne : ∀ {k' i'}, (k', i') ∈ ks → k' ≠ k := by
      rintro k' i' hm rfl
      exact hnk (List.mem_map.mpr ⟨_, hm, rfl⟩)
    have hA' := hA k i List.mem_cons_self
    have hhead := Moves.create (A := A) (k := k) (i := i) (by simp [hA']) (hA' i)
      (h0 k i List.mem_cons_self)
    have htail := ih (A := A.set k i (some { state := .unusedUnconfirmed })) hnd
      (fun k' i' hm => h0 k' i' (List.mem_cons_of_mem _ hm)) fun k' i' hm j => by
        simp [Objs.set_apply, hne hm, hA k' i' (List.mem_cons_of_mem _ hm)]
    have hset : (fun k' i' => if (k', i') ∈ (k, i) :: ks then some { state := .unusedUnconfirmed }
        else A k' i') = fun k' i' => if (k', i') ∈ ks then some { state := .unusedUnconfirmed }
        else A.set k i (some { state := .unusedUnconfirmed }) k' i' := by
      funext k' i'
      simp only [List.mem_cons, Prod.mk.injEq, Objs.set_apply]
      cases Decidable.em ((k', i') ∈ ks) <;> simp [*]
    rw [hset]
    exact hhead.trans htail

namespace Linked

variable {A A' B : Objs} {ab ba ms : List Message} {K K' : Key → Prop} {r : Role} {x : Identifier}
  {k : Key} {f : Fsm} {i j : Id}

-- An endpoint that is in use has no unused keys.
def none : Key → Prop := fun _ => False

theorem fresh_none {p} : Fresh p none := fun _ => False.elim

theorem init : Linked (fun _ _ => .none) (fun _ _ => .none) [] [] K K' :=
  ⟨Link.init, Link.rel_init, fun _ _ => ⟨rfl, rfl⟩, fun _ _ => ⟨rfl, rfl⟩⟩

theorem swap (h : Linked A B ab ba K K') : Linked B A ba ab K' K := by
  obtain ⟨L, hr, hf, hf'⟩ := h
  exact ⟨L.swap, hr.swap, hf', by rwa [Link.swap_swap]⟩

theorem mono (h : Linked A B ab ba K K') {M : Key → Prop} (hM : ∀ k, M k → K k) :
    Linked A B ab ba M K' := by
  obtain ⟨L, hr, hf, hf'⟩ := h
  exact ⟨L, hr, fun k hk => hf k (hM k hk), hf'⟩

theorem moves (h : Linked A B ab ba none K') (hm : Moves A ms A') :
    Linked A' B (ab ++ ms) ba none K' := by
  induction hm generalizing ab
  case refl => simpa using h
  case create hn hi h0 =>
    obtain ⟨L, hr, _, hf'⟩ := h
    obtain ⟨L', hr', hq⟩ := hr.create hn hi h0
    exact ⟨L', hr', fresh_none, by simpa [Link.swap, hq] using hf'⟩
  case destroy hf hd ho =>
    obtain ⟨L, hr, _, hf'⟩ := h
    obtain ⟨out, hout, L', hr', hq⟩ := hr.destroy (j := 0) hf hd
    rw [ho] at hout
    cases hout
    exact ⟨L', hr', fresh_none, by simpa [Link.swap, hq] using hf'⟩
  case reid hf hj =>
    obtain ⟨L, hr, _, hf'⟩ := h
    obtain ⟨L', hr', _, hq⟩ := hr.reid hf hj
    exact ⟨L', by simpa using hr', fresh_none, by simpa [Link.swap, hq] using hf'⟩
  case trans h₁ h₂ ih₁ ih₂ =>
    rw [← List.append_assoc]
    exact ih₂ (ih₁ h)

-- The first objects are created without being described.
theorem silent (h : Linked A B ab ba K K') (S : Key → Bool) (ids : Key → Id)
    (hS : ∀ k, S k = true → K k) (hS' : ∀ k, K' k → S k.flip = false) :
    Linked (fun k i => if S k then (if i = ids k then some {} else .none) else A k i) B ab ba none K' := by
  obtain ⟨L, hr, hf, hf'⟩ := h
  obtain ⟨L', hr', hq⟩ := hr.silent S ids fun k hk => hf k (hS k hk)
  refine ⟨L', hr', fresh_none, fun k hk => ?_⟩
  have := hf' k hk
  simpa only [Link.swap, (hq _ (hS' k hk)).2] using this

-- What happens on receipt of the next message.

theorem rcvd_description (h : Linked A B ab (r.flip.message (.desc x j) :: ba) none K')
    (hf : A (r, x) i = some f) (hd : f.destroyed = false) (hi : i ≠ 0) :
    j ≠ 0 ∧ ∃ out, f.processRcvdDescription j = .ok out ∧
      Linked (A.set (r, x) i out.result) B (ab ++ sends (r, x) i j out) ba none K' := by
  obtain ⟨L, hr, _, hf'⟩ := h
  obtain ⟨hj, out, hout, L', hr', hq⟩ := hr.rcvd_description hf hd hi
  exact ⟨hj, out, hout, L', hr', fresh_none, by simpa [Link.swap, hq] using hf'⟩

theorem rcvd_description_none (h : Linked A B ab (r.flip.message (.desc x j) :: ba) none K')
    (hn : ∀ i f, A (r, x) i = some f → f.destroyed = true) :
    Linked A B (ab ++ [r.message (.noticed j)]) ba none K' := by
  obtain ⟨L, hr, _, hf'⟩ := h
  obtain ⟨L', hr', hq⟩ := hr.rcvd_description_none hn
  exact ⟨L', hr', fresh_none, by simpa [Link.swap, hq] using hf'⟩

theorem rcvd_mapping (h : Linked A B ab (r.flip.message (.map i j) :: ba) none K') :
    ∃ x f out, A (r, x) i = some f ∧ f.processRcvdMapping j = .ok out ∧
      Linked (A.set (r, x) i out.result) B (ab ++ sends (r, x) i j out) ba none K' := by
  obtain ⟨L, hr, _, hf'⟩ := h
  obtain ⟨x, f, out, hf, hout, L', hr', hq⟩ := hr.rcvd_mapping
  exact ⟨x, f, out, hf, hout, L', hr', fresh_none, by simpa [Link.swap, hq] using hf'⟩

theorem rcvd_noticed (h : Linked A B ab (r.flip.message (.noticed i) :: ba) none K') :
    ∃ x f out, A (r, x) i = some f ∧ f.processRcvdNoticed = .ok out ∧
      Linked (A.set (r, x) i out.result) B (ab ++ sends (r, x) i 0 out) ba none K' := by
  obtain ⟨L, hr, _, hf'⟩ := h
  obtain ⟨x, f, out, hf, hout, L', hr', hq⟩ := hr.rcvd_noticed (j := 0)
  exact ⟨x, f, out, hf, hout, L', hr', fresh_none, by simpa [Link.swap, hq] using hf'⟩

theorem rcvd_removed (h : Linked A B ab (r.flip.message (.removed i) :: ba) none K') :
    ∃ x f out, A (r, x) i = some f ∧ f.processRcvdRemoved = .ok out ∧
      Linked (A.set (r, x) i out.result) B (ab ++ sends (r, x) i 0 out) ba none K' := by
  obtain ⟨L, hr, _, hf'⟩ := h
  obtain ⟨x, f, out, hf, hout, L', hr', hq⟩ := hr.rcvd_removed (j := 0)
  exact ⟨x, f, out, hf, hout, L', hr', fresh_none, by simpa [Link.swap, hq] using hf'⟩

theorem rcvd_removedAck (h : Linked A B ab (r.flip.message (.ack i) :: ba) none K') :
    ∃ x f out, A (r, x) i = some f ∧ f.processRcvdRemovedAck = .ok out ∧
      Linked (A.set (r, x) i out.result) B (ab ++ sends (r, x) i 0 out) ba none K' := by
  obtain ⟨L, hr, _, hf'⟩ := h
  obtain ⟨x, f, out, hf, hout, hal, L', hr', hq⟩ := hr.rcvd_removedAck
  have hc : out.calls = [] := by
    simp only [Fsm.processRcvdRemovedAck] at hout
    repeat' split at hout
    all_goals cases hout <;> rfl
  refine ⟨x, f, out, hf, hout, L', ?_, fresh_none, by simpa [Link.swap, hq] using hf'⟩
  simpa [sends, hc, Fsm.Outcome.result, hal] using hr'

-- The messages in flight are sent on behalf of terminals and bindings.
theorem head_eq_message {m : Message} (h : Linked A B ab (m :: ba) K K') :
    ∃ r b, m = Role.message r b := by
  obtain ⟨L, hr, _⟩ := h
  have hm : m ∈ L.swap.pq.map L.swap.message := hr.b.chan ▸ List.mem_cons_self
  obtain ⟨n, _, hn⟩ := List.mem_map.mp hm
  exact ⟨_, _, hn.symm⟩

-- The object a message names exists.
theorem exists_of_names {m : Message} (h : Linked A B ab (m :: ba) none K')
    (hn : m.names = some (r, i)) : ∃ x f, A (r, x) i = some f := by
  obtain ⟨r', b, hm⟩ := h.head_eq_message
  rw [← Role.flip_flip (r := r')] at hm
  subst hm
  cases b
  case desc     => cases r' <;> simp [Role.message, Role.flip, Message.names] at hn
  case map      =>
    obtain ⟨x, f, _, hf, _⟩ := h.rcvd_mapping
    cases r' <;> (cases hn; exact ⟨x, f, hf⟩)
  case noticed  =>
    obtain ⟨x, f, _, hf, _⟩ := h.rcvd_noticed
    cases r' <;> (cases hn; exact ⟨x, f, hf⟩)
  case removed  =>
    obtain ⟨x, f, _, hf, _⟩ := h.rcvd_removed
    cases r' <;> (cases hn; exact ⟨x, f, hf⟩)
  case ack      =>
    obtain ⟨x, f, _, hf, _⟩ := h.rcvd_removedAck
    cases r' <;> (cases hn; exact ⟨x, f, hf⟩)

-- What holds for the endpoints of a connection with no messages in flight.

theorem skip_nonneg (h : Linked A B ab ba K K') (hf : A k i = some f) : 0 ≤ f.skipRemovedAcks := by
  obtain ⟨L, hr, _⟩ := h
  obtain ⟨a, o, ho, _, hr'⟩ := hr.exists_obj hf
  simp [hr'.skip]

theorem channel_eq_nil {L : Link} (h : L.Rel A B [] [] ) :
    (L.pair k).pq = [] ∧ (L.pair k).qp = [] := by
  have hpq := List.map_eq_nil_iff.mp h.a.chan.symm
  have hqp := List.map_eq_nil_iff.mp h.b.chan.symm
  simp only [Link.swap, List.map_eq_nil_iff] at hqp
  simp [Link.pair, hpq, hqp, channel]

theorem of_quiescent (h : Linked A B [] [] K K') (hf : A k i = some f) :
    (f = { state := .unusedConfirmed } ∧ ∀ j, B k.flip j = .none) ∨
      ∃ j, f = { state := .mappedConfirmed, mappedId := j } ∧
        B k.flip j = some { state := .mappedConfirmed, mappedId := i } := by
  obtain ⟨L, hr, _⟩ := h
  obtain ⟨hpq, hqp⟩ := channel_eq_nil (k := k) hr
  obtain ⟨a, o, ho, hi, hr'⟩ := hr.exists_obj hf
  have hinv := hr.inv k
  obtain ⟨hu, hsk⟩ := hinv.skip_of_quiescent hpq hqp ho
  have hok := hr.ok ho
  cases hm : o.mapped
  case none =>
    refine .inl ⟨?_, fun j => ?_⟩
    · have hv := hinv.visible_of_quiescent hpq hqp ho
      have hst : o.state = .unusedConfirmed := by
        have hsh := hok.shape
        cases hst : o.state <;> simp_all [Obj.Shape, unconfirmed, visible]
      rw [hr'.eq_mk, hst, hsk, hr'.zero.mpr (.inl hm)]
      rfl
    · refine Option.eq_none_iff_forall_ne_some.mpr fun f' hf' => ?_
      obtain ⟨b, o', ho', _⟩ := hr.swap.exists_obj hf'
      have ho'' : (L.q k).obj b = some o' := by simpa [Link.swap] using ho'
      simp [hinv.mapped_of_quiescent hpq hqp ho ho''] at hm
  case some b =>
    obtain ⟨hst, o', ho', hst', hm'⟩ := hinv.of_quiescent_mapped hpq hqp ho hm
    have ho'' : (L.swap.p k.flip).obj b = some o' := by
      simpa [Link.swap] using show (L.q k).obj b = some o' from ho'
    obtain ⟨f', hf', hr'', hid'⟩ := hr.b.obj ho''
    obtain ⟨_, hsk'⟩ := hinv.swap.skip_of_quiescent hqp hpq ho'
    have hmid := hr.mappedId ho (hi.symm ▸ hf) (by simp [hst]) hm
    have hmid' := hr.swap.mappedId ho'' hf' (by simp [hst']) hm'
    refine .inr ⟨L.idq k b, ?_, ?_⟩
    · rw [hr'.eq_mk, hst, hsk, hmid]
      rfl
    · rw [hr''.eq_mk, hst', hsk', hmid'] at hf'
      simpa [Link.swap, hi] using hf'

end Linked
end Yogi.Mapping
