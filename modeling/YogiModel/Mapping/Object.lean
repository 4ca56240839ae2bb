import YogiModel.Mapping.Pair

namespace Yogi.Mapping

open FsmState

namespace Msg

variable {a b : Nat}

@[simp] theorem word_nil : word a b [] = [] := rfl

@[simp] theorem word_append {l l' : List Msg} : word a b (l ++ l') = word a b l ++ word a b l' :=
  List.filterMap_append

@[simp] theorem word_cons {m l} : word a b (m :: l) = (letter a b m).toList ++ word a b l := by
  simp only [word, List.filterMap_cons]
  cases letter a b m <;> rfl

@[simp] theorem word_acks {m} : word a b (Obj.acks m a) = if m = some b then [.ack] else [] := by
  cases m
  case none => rfl
  case some c => cases Decidable.em (c = b) <;> simp [Obj.acks, letter, *]

@[simp] theorem word_removals {m} :
    word a b (Obj.removals m a) = if m = some b then [.removed] else [] := by
  cases m
  case none => rfl
  case some c => cases Decidable.em (c = b) <;> simp [Obj.removals, letter, *]

end Msg

namespace Obj

def Shape (o : Obj) : Prop :=
  match o.state with
  | unusedUnconfirmed => o.mapped = none ∧ o.acked = false ∧ o.skip = []
  | unusedConfirmed   => o.mapped = none ∧ o.acked = false
  | mappedUnconfirmed => o.mapped ≠ none ∧ o.acked = false
  | mappedConfirmed   => o.mapped ≠ none ∧ o.acked = false
  | awaitAck          => o.mapped ≠ none ∧ (o.acked = true → o.skip = [])
  | awaitConfirmation => o.acked = false ∧ (o.mapped = none → o.skip = [])
  | awaitRemovals     => o.mapped = none ∧ o.acked = false ∧ o.skip ≠ []

theorem Shape.acked {o : Obj} (h : o.Shape) (hs : o.state ≠ awaitAck) : o.acked = false := by
  cases hst : o.state <;> simp_all [Shape]

-- The generations an object refers to are in ascending order and below `known`, the last of them
-- being that of the object it is mapped to.
structure Ok (o : Obj) (known : Nat) : Prop where
  shape  : o.Shape
  sorted : o.refs.Pairwise (· < ·)
  below  : ∀ b ∈ o.refs, b < known
  front  : o.state = mappedUnconfirmed → ∀ b, o.mapped = some b → known = b + 1

variable {o : Obj} {a b n : Nat}

theorem Ok.mapped_not_mem_skip (h : o.Ok n) (hm : o.mapped = some b) : b ∉ o.skip := by
  intro hb
  have hs := h.sorted
  simp only [refs, hm, Option.toList_some, List.pairwise_append] at hs
  exact Nat.lt_irrefl b (hs.2.2 b hb b (by simp))

theorem Ok.lt_of_mapped (h : o.Ok n) (hm : o.mapped = some b) {c} (hc : c ∈ o.skip) : c < b := by
  have hs := h.sorted
  simp only [refs, hm, Option.toList_some, List.pairwise_append] at hs
  exact hs.2.2 c hc b (by simp)

-- An object that is not confirmed is mapped to a younger object than those it has superseded.
theorem Ok.lt_of_mem_skip (h : o.Ok n) (hu : unconfirmed o.state) (hb : b ∈ o.skip) :
    b + 1 < n := by
  have hm : o.mapped ≠ none := by
    intro hn
    have hsh := h.shape
    have hne : o.skip ≠ [] := List.ne_nil_of_mem hb
    cases hs : o.state <;> simp_all [Shape, unconfirmed]
  obtain ⟨c, hc⟩ := Option.ne_none_iff_exists'.mp hm
  have hlt := h.lt_of_mapped hc hb
  have := h.below c (by simp [refs, hc])
  omega

theorem Ok.mono (h : o.Ok n) (hs : o.state ≠ mappedUnconfirmed) {m} (hm : n ≤ m) : o.Ok m where
  shape  := h.shape
  sorted := h.sorted
  below  := fun b hb => Nat.lt_of_lt_of_le (h.below b hb) hm
  front  := fun h => absurd h hs

theorem rel_no_iff : o.rel b = .no ↔ b ∉ o.refs := by
  simp only [rel, refs, List.mem_append, Option.mem_toList]
  split
  case isTrue h => simp [h]
  case isFalse h =>
    split
    case isTrue h' => split <;> simp [h']; split <;> simp
    case isFalse h' => simp [h, h']

theorem state_of_rel_rem (h : o.rel b = .rem ∨ o.rel b = .rma) : o.state = awaitAck := by
  refine Decidable.by_contra fun hs => ?_
  simp only [rel, hs, if_false] at h
  split at h
  case isTrue => simp at h
  case isFalse => split at h <;> simp at h

theorem rel_skip_iff : o.rel b = .skip ↔ b ∈ o.skip := by
  simp only [rel]
  split
  case isTrue h => simp [h]
  case isFalse h =>
    split
    case isTrue h' => split <;> simp [h]; split <;> simp
    case isFalse h' => simp [h]

-- The effect that a transition of `p` has on what there is to know about `p` and an object `b`.
def move (v : View) (b a : Nat) (r : Option Obj × List Msg) : View :=
  { v with p := side b r.1, pq := v.pq ++ Msg.word a b r.2 }

-- The three ways in which an object may refer to another one.
theorem Ok.rel_cases (h : o.Ok n) (b : Nat) :
    (b ∈ o.skip ∧ o.mapped ≠ some b) ∨ (b ∉ o.skip ∧ o.mapped = some b) ∨
    (b ∉ o.skip ∧ o.mapped ≠ some b) := by
  cases Decidable.em (b ∈ o.skip)
  case inl hs => exact .inl ⟨hs, fun hm => h.mapped_not_mem_skip hm hs⟩
  case inr hs => cases Decidable.em (o.mapped = some b) <;> simp [*]

theorem mem_destroy (h : o.Ok n) (hv : visible o.state) {v : View}
    (hp : v.p = side b (some o)) : move v b a (o.destroy a) ∈ v.destroy := by
  have hsh := h.shape
  have hr := h.rel_cases b
  rcases o with ⟨st, m, ak, sk⟩
  cases st <;> simp only [visible, Bool.false_eq_true] at hv
  case unusedUnconfirmed =>
    simp_all [destroy, View.destroy, side, move, rel, Shape]
  case unusedConfirmed =>
    obtain ⟨rfl, rfl⟩ := hsh
    cases sk <;> rcases hr with hr | hr | hr <;>
      simp_all [destroy, View.destroy, side, move, rel]
  case mappedUnconfirmed =>
    rcases hr with hr | hr | hr <;> simp_all [destroy, View.destroy, side, move, rel]
  case mappedConfirmed =>
    rcases hr with hr | hr | hr <;> simp_all [destroy, View.destroy, side, move, rel, Shape]

variable {c : Nat} {v : View} {l : List Letter}

theorem mem_receive_desc (h : o.Ok n) (hv : visible o.state) (hb : b ∉ o.refs)
    (hp : v.p = side b (some o)) :
    { move v b a (o.describe a b) with qp := l } ∈ v.receive .desc l := by
  have hr : o.rel b = .no := rel_no_iff.mpr hb
  simp only [refs, List.mem_append, Option.mem_toList, not_or] at hb
  rcases o with ⟨st, m, ak, sk⟩
  -- `receive` is unfolded as a whole: no case needs one equation for each of its rows.
  cases st <;> simp_all [visible, describe, described, refs, View.receive.eq_def, side, move, rel, Msg.letter]

-- An object that is superseded has to be gone, or about to go.
theorem mem_other_of_describe (h : o.Ok n) (hv : visible o.state) (hc : c ≠ b)
    (hq : o.mapped = some c → v.q.visible = false ∧ v.q ≠ .new ∧ .map ∉ v.qp)
    (hp : v.p = side c (some o)) :
    move v c a (o.describe a b) = v ∨ move v c a (o.describe a b) ∈ v.other := by
  have hsh := h.shape
  have hr := h.rel_cases c
  have hcb := hc.symm
  rcases v with ⟨vp, vpq, vqp, vq⟩
  rcases o with ⟨st, m, ak, sk⟩
  subst hp
  cases st <;> rcases hr with hr | hr | hr <;>
    simp_all [visible, describe, described, refs, View.other, side, move, rel, Msg.letter, Shape]

theorem mem_receive_map (h : o.Ok n) (hu : unconfirmed o.state) (hb : b ∉ o.skip)
    (hm : o.state = mappedUnconfirmed → o.mapped = some b) (hp : v.p = side b (some o)) :
    { move v b a (o.confirm a b) with qp := l } ∈ v.receive .map l := by
  have hsh := h.shape
  rcases o with ⟨st, m, ak, sk⟩
  cases st <;> simp only [unconfirmed, Bool.false_eq_true] at hu
  case awaitConfirmation =>
    cases m
    case none => simp_all [confirm, View.receive.eq_def, side, move, rel, Msg.letter, Shape]
    case some c =>
      cases Decidable.em (c = b) <;>
        simp_all [confirm, View.receive.eq_def, side, move, rel, Msg.letter, Shape, Option.filter]
      omega
  all_goals simp_all [confirm, View.receive.eq_def, side, move, rel, Shape]

theorem mem_receive_remap (h : o.Ok n) (hu : unconfirmed o.state) (hc : c ≠ b)
    (hm : o.state = mappedUnconfirmed → o.mapped = some b) (hp : v.p = side c (some o)) :
    { move v c a (o.confirm a b) with qp := l } ∈ v.receive .remap l := by
  have hsh := h.shape
  have hr := h.rel_cases c
  have hcb := hc.symm
  rcases o with ⟨st, m, ak, sk⟩
  cases st <;> simp only [unconfirmed, Bool.false_eq_true] at hu
  case awaitConfirmation =>
    cases m
    case none => simp_all [confirm, View.receive.eq_def, side, move, rel, Msg.letter, Shape]
    case some d =>
      cases Decidable.em (d = b) <;> rcases hr with hr | hr | hr <;>
        simp_all [confirm, View.receive.eq_def, side, move, rel, Msg.letter, Shape, Option.filter]
      omega
  all_goals
    rcases hr with hr | hr | hr <;> simp_all [confirm, View.receive.eq_def, side, move, rel, Shape]

theorem mem_receive_noticed (h : o.Ok n) (hu : unconfirmed o.state) (hp : v.p = side b (some o)) :
    { move v b a (o.notice a) with qp := l } ∈ v.receive .noticed l := by
  have hsh := h.shape
  have hr := h.rel_cases b
  rcases o with ⟨st, m, ak, sk⟩
  cases st <;> simp only [unconfirmed, Bool.false_eq_true] at hu
  all_goals
    cases m <;> rcases hr with hr | hr | hr <;>
      simp_all [notice, View.receive.eq_def, side, move, rel, Shape, refs]
  all_goals omega

-- The states in which an object may receive the removal of `b`.
def Removable (o : Obj) (b : Nat) : Prop :=
  (o.rel b = .skip ∧ unconfirmed o.state = false) ∨ (o.rel b = .act ∧ o.state = mappedConfirmed) ∨
  o.rel b = .rem

theorem Removable.mem_refs (h : o.Removable b) : b ∈ o.refs := by
  refine Decidable.by_contra fun hn => ?_
  have hr := rel_no_iff.mpr hn
  rcases h with h | h | h <;> simp [hr] at h

theorem Removable.confirmed (h : o.Removable b) : unconfirmed o.state = false := by
  rcases h with h | h | h
  case inl => exact h.2
  case inr.inl => rw [h.2]; rfl
  case inr.inr => rw [state_of_rel_rem (.inl h)]; rfl

theorem mem_receive_removed (h : o.Ok n) (hb : o.Removable b) (hs : ∀ d ∈ o.skip.head?, d = b)
    (hp : v.p = side b (some o)) :
    { move v b a (o.remove a) with qp := l } ∈ v.receive .removed l := by
  have hsh := h.shape
  have hr := h.rel_cases b
  have ho := h.sorted
  rcases o with ⟨st, m, ak, sk⟩
  cases sk
  case nil =>
    rcases hb with ⟨hb, -⟩ | ⟨hb, rfl⟩ | hb
    case inl => exact absurd (rel_skip_iff.mp hb) (by simp)
    case inr.inl =>
      rcases hr with hr | hr | hr <;> simp_all [remove, View.receive.eq_def, side, move, rel]
    case inr.inr =>
      cases st <;> rcases hr with hr | hr | hr <;>
        simp_all [remove, View.receive.eq_def, side, move, rel]
  case cons d sk =>
    obtain rfl : d = b := hs d (by simp)
    have hd : d ∉ sk := by
      intro hd
      simp only [refs, List.cons_append, List.pairwise_cons] at ho
      exact Nat.lt_irrefl d (ho.1 d (List.mem_append_left _ hd))
    have hm : m ≠ some d := by
      rcases hr with hr | hr | hr <;> simp_all
    have hu : unconfirmed st = false := hb.confirmed
    cases st <;> simp_all [remove, View.receive.eq_def, side, move, rel, unconfirmed, Shape]
    cases sk <;> simp_all

theorem mem_other_of_remove (h : o.Ok n) (hb : o.Removable b) (hs : ∀ d ∈ o.skip.head?, d = b)
    (hc : c ≠ b) (hp : v.p = side c (some o)) :
    move v c a (o.remove a) = v ∨ move v c a (o.remove a) ∈ v.other := by
  have hsh := h.shape
  have hcb := hc.symm
  rcases v with ⟨vp, vpq, vqp, vq⟩
  rcases o with ⟨st, m, ak, sk⟩
  subst hp
  cases sk
  case nil =>
    have hm : m = some b := by simpa [refs] using hb.mem_refs
    cases st <;> simp_all [remove, View.other, side, move, rel, Shape, Removable]
  case cons d sk =>
    obtain rfl : d = b := hs d (by simp)
    cases st <;> cases sk <;> simp_all [remove, View.other, side, move, rel, Shape]

theorem mem_receive_ack (hb : o.rel b = .rem ∨ o.rel b = .rma) (hp : v.p = side b (some o)) :
    { move v b a (none, []) with qp := l } ∈ v.receive .ack l := by
  have hs := state_of_rel_rem hb
  rcases hb with hb | hb <;> simp [View.receive.eq_def, side, move, hp, hb, hs]

theorem mem_other_of_ack (hs : o.state = awaitAck) (hm : o.mapped = some b) (hn : o.skip = [])
    (hc : c ≠ b) (hp : v.p = side c (some o)) : move v c a (none, []) ∈ v.other := by
  have hcb := hc.symm
  rcases o with ⟨st, m, ak, sk⟩
  simp_all [View.other, side, move, rel]

variable {o' : Obj}

theorem pairwise_concat {l : List Nat} (hl : l.Pairwise (· < ·)) (hb : ∀ c ∈ l, c < b) :
    (l ++ [b]).Pairwise (· < ·) :=
  List.pairwise_append.mpr ⟨hl, List.pairwise_singleton .., fun c hc _ hd =>
    List.mem_singleton.mp hd ▸ hb c hc⟩

theorem forall_mem_concat {l : List Nat} {P : Nat → Prop} (hl : ∀ c ∈ l, P c) (hb : P b) :
    ∀ c ∈ l ++ [b], P c := by
  intro c hc
  rcases List.mem_append.mp hc with hc | hc
  · exact hl c hc
  · exact List.mem_singleton.mp hc ▸ hb

-- What the transitions leave as it is.
structure Next (o o' : Obj) (u : Bool) : Prop where
  unconfirmed : unconfirmed o'.state = u
  visible     : visible o'.state → visible o.state

theorem Ok.destroy (h : o.Ok n) (hv : visible o.state) (hd : (o.destroy a).1 = some o') :
    o'.Ok n ∧ Next o o' (unconfirmed o.state) ∧ visible o'.state = false := by
  obtain ⟨hsh, ho, hk, hf⟩ := h
  rcases o with ⟨st, m, ak, sk⟩
  cases st <;> simp only [visible, Bool.false_eq_true] at hv
  case unusedConfirmed =>
    cases sk
    case nil => simp [Obj.destroy] at hd
    case cons d sk =>
      obtain rfl : _ = o' := by simpa [Obj.destroy] using hd
      exact ⟨⟨by simp_all [Shape], ho, hk, by simp⟩, ⟨rfl, by simp [Mapping.visible]⟩, rfl⟩
  all_goals
    obtain rfl : _ = o' := by simpa [Obj.destroy] using hd
    exact ⟨⟨by simp_all [Shape], ho, hk, by simp⟩, ⟨rfl, by simp [Mapping.visible]⟩, rfl⟩

theorem Ok.describe (h : o.Ok b) (hv : visible o.state) (hd : (o.describe a b).1 = some o') :
    o'.Ok (b + 1) ∧ Next o o' (unconfirmed o.state) := by
  obtain ⟨hsh, ho, hk, hf⟩ := h
  obtain rfl : _ = o' := by simpa [Obj.describe] using hd
  refine ⟨⟨?_, ?_, ?_, ?_⟩, ?_⟩
  · cases hs : o.state <;> simp_all [visible, Shape, described]
  · exact pairwise_concat ho hk
  · exact forall_mem_concat (fun c hc => Nat.lt_succ_of_lt (hk c hc)) (Nat.lt_succ_self b)
  · simp
  · constructor <;> cases hs : o.state <;> simp_all [visible, described, unconfirmed]

theorem Ok.confirm (h : o.Ok n) (hu : unconfirmed o.state) (hs : b ∉ o.skip) (hb : b < n)
    (hn : n ≤ b + 1) (hm : o.state = mappedUnconfirmed → o.mapped = some b) (hc : (o.confirm a b).1 = some o') :
    o'.Ok n ∧ Next o o' false := by
  obtain ⟨hsh, ho, hk, hf⟩ := h
  rcases o with ⟨st, m, ak, sk⟩
  cases st <;> simp only [unconfirmed, Bool.false_eq_true] at hu
  case unusedUnconfirmed =>
    obtain rfl : _ = o' := by simpa [Obj.confirm] using hc
    simp only [Shape] at hsh
    exact ⟨⟨by simp_all [Shape], by simp [refs, hsh], by simpa [refs, hsh], by simp⟩, ⟨rfl, by simp [Mapping.visible]⟩⟩
  case mappedUnconfirmed =>
    obtain rfl : _ = o' := by simpa [Obj.confirm] using hc
    obtain rfl : m = some b := by simpa using hm
    exact ⟨⟨by simp_all [Shape], ho, hk, by simp⟩, ⟨rfl, by simp [Mapping.visible]⟩⟩
  case awaitConfirmation =>
    obtain rfl := Option.some.inj hc
    have hl : (sk ++ (m.filter (· ≠ b)).toList).Sublist (refs ⟨awaitConfirmation, m, ak, sk⟩) := by
      refine List.Sublist.append_left ?_ sk
      cases m <;> simp [Option.filter, Decidable.em]
    have hlt : ∀ c ∈ sk ++ (m.filter (· ≠ b)).toList, c < b := by
      intro c hc
      have hcn := hk c (hl.subset hc)
      have hcb : c ≠ b := by
        rintro rfl
        rcases List.mem_append.mp hc with hc | hc
        · exact hs hc
        · simp at hc
      omega
    have hak : ak = false := hsh.1
    refine ⟨⟨by simp [Shape, hak], pairwise_concat (ho.sublist hl) hlt, ?_, by simp⟩, ⟨rfl, by simp [Mapping.visible]⟩⟩
    exact forall_mem_concat (fun c hc => hk c (hl.subset hc)) hb

theorem Ok.notice (h : o.Ok n) (hu : unconfirmed o.state) (hc : (o.notice a).1 = some o') :
    o'.Ok n ∧ Next o o' false := by
  obtain ⟨hsh, ho, hk, hf⟩ := h
  rcases o with ⟨st, m, ak, sk⟩
  cases st <;> simp only [unconfirmed, Bool.false_eq_true] at hu
  case awaitConfirmation =>
    cases m
    case none => simp [Obj.notice] at hc
    case some c =>
      obtain rfl : _ = o' := by simpa [Obj.notice] using hc
      simp only [Shape] at hsh
      refine ⟨⟨by simp [Shape, hsh, refs], by simpa [refs] using ho, by simpa [refs] using hk, by simp⟩, ⟨rfl, by simp [Mapping.visible]⟩⟩
  all_goals
    obtain rfl : _ = o' := by simpa [Obj.notice] using hc
    simp only [Shape] at hsh
    exact ⟨⟨by simp [Shape, hsh], by simpa [refs] using ho, by simpa [refs] using hk, by simp⟩,
      ⟨rfl, by simp [Mapping.visible]⟩⟩

theorem Ok.remove (h : o.Ok n) (hb : o.Removable b) (hc : (o.remove a).1 = some o') :
    o'.Ok n ∧ Next o o' false := by
  obtain ⟨hsh, ho, hk, hf⟩ := h
  rcases o with ⟨st, m, ak, sk⟩
  cases sk
  case nil =>
    obtain rfl := Option.some.inj hc
    rcases hb with ⟨hb, -⟩ | ⟨-, rfl⟩ | hb
    case inl => exact absurd (rel_skip_iff.mp hb) (by simp)
    case inr.inl =>
      exact ⟨⟨by simp_all [Shape], by simp [refs], by simp [refs], by simp⟩, ⟨rfl, by simp [Mapping.visible]⟩⟩
    case inr.inr =>
      obtain rfl : st = awaitAck := by
        exact state_of_rel_rem (.inl hb)
      exact ⟨⟨⟨hsh.1, fun _ => rfl⟩, ho, hk, by simp⟩, ⟨rfl, by simp [Mapping.visible]⟩⟩
  case cons d sk =>
    have hu : unconfirmed st = false := hb.confirmed
    simp only [Obj.remove] at hc
    split at hc
    case isTrue => simp at hc
    case isFalse hn =>
      obtain rfl := Option.some.inj hc
      have ho' := (List.pairwise_cons.mp ho).2
      refine ⟨⟨?_, ho', fun c hc => hk c (List.mem_cons_of_mem _ hc), ?_⟩, ⟨hu, id⟩⟩
      · cases st <;> simp_all [Shape, unconfirmed]
      · rintro rfl
        simp [unconfirmed] at hu

theorem refs_destroy (hd : (o.destroy a).1 = some o') :
    o'.refs = o.refs ∧ (visible o.state → unconfirmed o'.state = unconfirmed o.state) := by
  cases hs : o.state <;> simp only [Obj.destroy, hs, Option.some.injEq] at hd
  case unusedConfirmed =>
    split at hd
    · simp at hd
    · simp [← Option.some.inj hd, refs, Mapping.unconfirmed]
  all_goals
    subst hd
    simp [refs, Mapping.unconfirmed, Mapping.visible]

theorem refs_describe (hd : (o.describe a b).1 = some o') :
    o'.refs = o.refs ++ [b] ∧ unconfirmed o'.state = unconfirmed o.state := by
  obtain rfl := Option.some.inj hd
  refine ⟨rfl, ?_⟩
  cases o.state <;> rfl

theorem refs_remove (hc : (o.remove a).1 = some o') : o'.refs ⊆ o.refs := by
  intro d hd
  cases hs : o.skip <;> simp only [Obj.remove, hs] at hc
  case nil =>
    obtain rfl := Option.some.inj hc
    split at hd
    · simpa [refs, hs] using hd
    · simp [refs] at hd
  case cons e l =>
    split at hc
    · simp at hc
    · obtain rfl := Option.some.inj hc
      simp only [refs, hs, List.mem_append, List.mem_cons] at hd ⊢
      exact hd.imp_left .inr

end Obj
end Yogi.Mapping
