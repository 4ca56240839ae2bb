import YogiModel.Core.Message
import YogiModel.Mapping.Receive

namespace Yogi.Mapping

open FsmState

-- The part of the relation between the real state machine and an object of the protocol that is not
-- about IDs.
structure Refines (f : Fsm) (o : Obj) : Prop where
  state : f.state = o.state
  skip  : f.skipRemovedAcks = o.skip.length
  zero  : f.mappedId = 0 ↔ o.mapped = none ∨ o.acked = true

-- The message of the protocol with IDs in place of generations.
def Msg.body (x : Identifier) (own remote : Nat → Id) : Msg → Body
  | desc a      => .desc x (own a)
  | map b a     => .map (remote b) (own a)
  | noticed b   => .noticed (remote b)
  | removed b _ => .removed (remote b)
  | ack b _     => .ack (remote b)

-- The transition `r` of the object `o` matches the transition `out` of the state machine `f`.
structure Matches (x : Identifier) (own remote : Nat → Id) (a : Nat) (j : Id) (f : Fsm) (o : Obj)
    (out : Fsm.Outcome) (r : Option Obj × List Msg) : Prop where
  alive : out.alive = r.1.isSome
  obj   : ∀ o', r.1 = some o' → Refines out.fsm o'
  ids   : ∀ o', r.1 = some o' → ∀ b, o'.mapped = some b → o'.acked = false →
    out.fsm.mappedId = remote b ∨
    (o.state = awaitAck ∧ o'.state = awaitAck ∧ o.mapped = some b ∧ o.acked = false ∧
      out.fsm.mappedId = f.mappedId)
  calls : out.calls.filterMap (·.body x (own a) j) = r.2.map (Msg.body x own remote)

namespace Refines

variable {f : Fsm} {o : Obj} {b n : Nat} {remote : Nat → Id} (x : Identifier) (own : Nat → Id)
  (a : Nat) (j : Id)

theorem destroyed (h : Refines f o) : f.destroyed = !visible o.state := by
  simp only [Fsm.destroyed, h.state]
  cases o.state <;> rfl

-- The state machine that belongs to an object, given its `mappedId`.
theorem eq_mk (h : Refines f o) :
    f = ⟨o.state, o.skip.length, f.mappedId⟩ := by
  cases f
  simp only [← h.state, ← h.skip]

theorem destroy (h : Refines f o) (hv : visible o.state) (hsh : o.Shape)
    (hid : ∀ b, o.mapped = some b → f.mappedId = remote b) :
    ∃ out, f.processObjectDestroyed = .ok out ∧
      Matches x own remote a j f o out (o.destroy a) := by
  have hz := h.zero
  rw [h.eq_mk]
  generalize f.mappedId = i at hid hz
  rcases o with ⟨st, m, ak, sk⟩
  cases st <;> simp only [visible, Bool.false_eq_true] at hv
  case unusedConfirmed =>
    cases sk
    case nil =>
      refine ⟨_, rfl, ?_, ?_, ?_, ?_⟩ <;> simp [Obj.destroy]
    case cons d sk =>
      refine ⟨⟨⟨awaitRemovals, (d :: sk).length, i⟩, [], true⟩, ?_, ?_, ?_, ?_, ?_⟩
      · have : (0 : Int) < (d :: sk).length := Int.natCast_pos.mpr (Nat.succ_pos _)
        simp only [Fsm.processObjectDestroyed, gt_iff_lt, this, if_true]
      all_goals simp_all [Obj.destroy, Obj.Shape]
      exact ⟨rfl, by simp, by simp⟩
  case mappedConfirmed =>
    cases m <;> refine ⟨_, rfl, ?_, ?_, ?_, ?_⟩ <;>
      simp_all [Obj.destroy, Obj.Shape, Obj.removals, Fsm.Call.body, Msg.body]
    exact ⟨rfl, rfl, by simpa using hz⟩
  all_goals
    refine ⟨_, rfl, ?_, ?_, ?_, ?_⟩ <;> simp_all [Obj.destroy, Obj.Shape]
    exact ⟨rfl, by simp, by simp [hz, hsh]⟩

theorem describe (h : Refines f o) (hv : visible o.state) (hsh : o.Shape) (hb : remote b ≠ 0)
    (hid : ∀ b, o.mapped = some b → f.mappedId = remote b) :
    ∃ out, f.processRcvdDescription (remote b) = .ok out ∧
      Matches x own remote a (remote b) f o out (o.describe a b) := by
  have hz := h.zero
  rw [h.eq_mk]
  generalize f.mappedId = i at hid hz
  rcases o with ⟨st, m, ak, sk⟩
  have hr : ∀ st', st' = described st → ak = false →
      Refines ⟨st', (sk ++ m.toList).length, remote b⟩
        ⟨described st, some b, ak, sk ++ m.toList⟩ := by
    rintro _ rfl rfl
    exact ⟨rfl, rfl, by simp [hb]⟩
  cases st <;> simp only [visible, Bool.false_eq_true] at hv <;> cases m <;>
    refine ⟨_, rfl, ?_, ?_, ?_, ?_⟩ <;>
    simp_all [Obj.describe, Obj.Shape, Obj.acks, described, Obj.refs, Fsm.Call.body, Msg.body]

theorem confirm (h : Refines f o) (hu : unconfirmed o.state) (hsh : o.Shape) (hb : remote b ≠ 0)
    (hm : o.state = mappedUnconfirmed → o.mapped = some b)
    (hinj : ∀ c, o.mapped = some c → remote c = remote b → c = b)
    (hid : ∀ b, o.mapped = some b → f.mappedId = remote b) :
    ∃ out, f.processRcvdMapping (remote b) = .ok out ∧
      Matches x own remote a j f o out (o.confirm a b) := by
  have hz := h.zero
  rw [h.eq_mk]
  generalize f.mappedId = i at hid hz
  rcases o with ⟨st, m, ak, sk⟩
  cases st <;> simp only [unconfirmed, Bool.false_eq_true] at hu
  case unusedUnconfirmed =>
    refine ⟨_, rfl, ?_, ?_, ?_, ?_⟩ <;> simp_all [Obj.confirm, Obj.Shape, Fsm.Call.body]
    exact ⟨rfl, rfl, by simp [hb]⟩
  case mappedUnconfirmed =>
    refine ⟨⟨⟨mappedConfirmed, sk.length, i⟩, [], true⟩, ?_, ?_, ?_, ?_, ?_⟩
    all_goals simp_all [Obj.confirm, Obj.Shape, Fsm.processRcvdMapping]
    exact ⟨rfl, rfl, by simp [hb]⟩
  case awaitConfirmation =>
    cases m
    case none =>
      refine ⟨⟨⟨awaitAck, sk.length, remote b⟩, [.sendRem (remote b)], true⟩, ?_, ?_, ?_, ?_, ?_⟩
      all_goals simp_all [Obj.confirm, Obj.Shape, Fsm.processRcvdMapping, Fsm.Call.body, Msg.body, Obj.acks]
      exact ⟨rfl, rfl, by simp [hb]⟩
    case some c =>
      cases Decidable.em (c = b)
      case inl hc =>
        refine ⟨⟨⟨awaitAck, sk.length, remote b⟩, [.sendRem (remote b)], true⟩, ?_, ?_, ?_, ?_, ?_⟩
        all_goals simp_all [Obj.confirm, Obj.Shape, Fsm.processRcvdMapping, Fsm.Call.body, Msg.body, Obj.acks, Option.filter]
        exact ⟨rfl, by simp, by simp [hb]⟩
      case inr hc =>
        refine ⟨⟨⟨awaitAck, sk.length + 1, remote b⟩, [.sendRemAck i, .sendRem (remote b)], true⟩, ?_, ?_, ?_, ?_, ?_⟩
        all_goals simp_all [Obj.confirm, Obj.Shape, Fsm.processRcvdMapping, Fsm.Call.body, Msg.body, Obj.acks, Option.filter]
        exact ⟨rfl, by simp, by simp [hb]⟩

theorem notice (h : Refines f o) (hu : unconfirmed o.state) (hsh : o.Shape)
    (hid : ∀ b, o.mapped = some b → f.mappedId = remote b) :
    ∃ out, f.processRcvdNoticed = .ok out ∧
      Matches x own remote a j f o out (o.notice a) := by
  have hz := h.zero
  rw [h.eq_mk]
  generalize f.mappedId = i at hid hz
  rcases o with ⟨st, m, ak, sk⟩
  cases st <;> simp only [unconfirmed, Bool.false_eq_true] at hu <;> cases m
  case awaitConfirmation.none =>
    refine ⟨⟨⟨awaitConfirmation, sk.length, i⟩, [], false⟩, ?_, ?_, ?_, ?_, ?_⟩ <;>
      simp_all [Obj.notice, Obj.Shape, Fsm.processRcvdNoticed, Obj.acks]
  case awaitConfirmation.some c =>
    refine ⟨⟨⟨awaitRemovals, sk.length + 1, 0⟩, [.sendRemAck i], true⟩, ?_, ?_, ?_, ?_, ?_⟩ <;>
      simp_all [Obj.notice, Obj.Shape, Fsm.processRcvdNoticed, Obj.acks, Fsm.Call.body, Msg.body]
    exact ⟨rfl, by simp [Obj.refs], by simp⟩
  case unusedUnconfirmed.none =>
    refine ⟨_, rfl, ?_, ?_, ?_, ?_⟩ <;> simp_all [Obj.notice, Obj.Shape, Obj.acks]
    exact ⟨rfl, by simp [Obj.refs], by simp⟩
  case mappedUnconfirmed.some c =>
    refine ⟨_, rfl, ?_, ?_, ?_, ?_⟩ <;>
      simp_all [Obj.notice, Obj.Shape, Obj.acks, Fsm.Call.body, Msg.body]
    exact ⟨rfl, by simp [Obj.refs], by simp⟩
  all_goals simp_all [Obj.Shape]

-- While the acknowledgement of the own removal is awaited, the mapped ID does not matter as long as
-- there are removals to be skipped.
theorem remove (h : Refines f o) (hsh : o.Shape) (hr : o.Removable b)
    (hid : (o.state = awaitAck → o.skip = []) → ∀ c, o.mapped = some c → f.mappedId = remote c) :
    ∃ out, f.processRcvdRemoved = .ok out ∧
      Matches x own remote a j f o out (o.remove a) := by
  have hz := h.zero
  have hrefs := hr.mem_refs
  rw [h.eq_mk]
  generalize f.mappedId = i at hid hz
  rcases o with ⟨st, m, ak, sk⟩
  cases sk
  case nil =>
    obtain rfl : m = some b := by simpa [Obj.refs] using hrefs
    rcases hr with ⟨hb, -⟩ | ⟨-, hst⟩ | hb
    case inl => exact absurd (Obj.rel_skip_iff.mp hb) (by simp)
    case inr.inl =>
      refine ⟨⟨⟨unusedConfirmed, 0, 0⟩, [.sendRemAck i, .mappStCh false], true⟩, ?_, ?_, ?_, ?_, ?_⟩ <;>
        simp_all [Obj.remove, Obj.Shape, Fsm.processRcvdRemoved, Obj.acks, Fsm.Call.body, Msg.body]
      exact ⟨rfl, rfl, by simp⟩
    case inr.inr =>
      obtain rfl : st = awaitAck := Obj.state_of_rel_rem (.inl hb)
      have hak : ak = false := by
        refine Bool.eq_false_iff.mpr fun hak => ?_
        simp [Obj.rel, hak] at hb
      refine ⟨⟨⟨awaitAck, 0, 0⟩, [.sendRemAck i], true⟩, ?_, ?_, ?_, ?_, ?_⟩ <;>
        simp_all [Obj.remove, Obj.Shape, Fsm.processRcvdRemoved, Obj.acks, Fsm.Call.body, Msg.body]
      exact ⟨rfl, rfl, by simp⟩
  case cons d sk =>
    have hpos : (0 : Int) < sk.length + 1 := by omega
    have hu := hr.confirmed
    have hm : ¬(st = awaitRemovals ∧ sk = []) → Matches x own remote a j
        ⟨st, (d :: sk).length, i⟩ ⟨st, m, ak, d :: sk⟩ ⟨⟨st, sk.length, i⟩, [], true⟩
        (Obj.remove ⟨st, m, ak, d :: sk⟩ a) := by
      intro hst
      refine ⟨by simp [Obj.remove, hst], fun o' ho' => ?_, fun o' ho' b hb hak => ?_, by simp [Obj.remove]⟩ <;>
        obtain rfl : ⟨st, m, ak, sk⟩ = o' := by simpa [Obj.remove, hst] using ho'
      · exact ⟨rfl, rfl, hz⟩
      · cases Decidable.em (st = awaitAck)
        case inl hst => exact .inr ⟨hst, hst, hb, hak, rfl⟩
        case inr hst => exact .inl (hid (fun h => absurd h hst) b hb)
    cases st <;> simp only [unconfirmed, Bool.true_eq_false] at hu
    case unusedConfirmed =>
      refine ⟨_, ?_, hm (by simp)⟩
      simp [Fsm.processRcvdRemoved, hpos]
    case mappedConfirmed =>
      refine ⟨_, ?_, hm (by simp)⟩
      simp [Fsm.processRcvdRemoved, hpos]
    case awaitAck =>
      refine ⟨_, ?_, hm (by simp)⟩
      have : i ≠ 0 := by simp_all [Obj.Shape]
      simp [Fsm.processRcvdRemoved, hpos, this]
    case awaitRemovals =>
      cases sk
      case nil =>
        refine ⟨⟨⟨awaitRemovals, 1, i⟩, [], false⟩, ?_, ?_, ?_, ?_, ?_⟩ <;>
          simp [Obj.remove, Fsm.processRcvdRemoved]
      case cons e sk =>
        refine ⟨_, ?_, hm (by simp)⟩
        have : (1 : Int) < sk.length + 1 + 1 := by omega
        simp [Fsm.processRcvdRemoved, this]

theorem acknowledge (h : Refines f o) (hst : o.state = awaitAck) (hsk : o.skip = []) :
    ∃ out, f.processRcvdRemovedAck = .ok out ∧
      Matches x own remote a j f o out (none, []) := by
  rw [h.eq_mk]
  refine ⟨⟨⟨awaitAck, 0, f.mappedId⟩, [], false⟩, ?_, ?_, ?_, ?_, ?_⟩ <;>
    simp [Fsm.processRcvdRemovedAck, hst, hsk]

end Refines
end Yogi.Mapping
