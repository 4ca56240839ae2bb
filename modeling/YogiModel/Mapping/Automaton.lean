import YogiModel.Core.Fsm
import Mathlib

namespace Yogi.Mapping

open FsmState

-- How an object `p` on one side of a connection relates to an object `q` on the other side.
inductive Rel
  | no   -- `p` is not concerned with `q`
  | act  -- `p` is mapped to `q`
  | rem  -- `p` has sent its removal to `q` and awaits the acknowledgement
  | rma  -- like `rem`, and `p` has received the removal of `q` in the meantime
  | skip -- `p` has acknowledged the removal of `q` in advance
  deriving DecidableEq, Repr

inductive End
  | new
  | gone
  | live (r : Rel) (s : FsmState)
  deriving DecidableEq, Repr

-- The messages of a channel which concern a pair of objects. A reply to a description is a `map`, if
-- it names the other object of the pair, a `remap` if it names any other object, or `noticed`.
inductive Letter
  | desc
  | map
  | remap
  | noticed
  | removed
  | ack
  deriving DecidableEq, Repr

-- All there is to know about a pair of objects `p` and `q`: their states and the messages in flight
-- from `p` to `q` and from `q` to `p`.
structure View where
  p  : End
  pq : List Letter
  qp : List Letter
  q  : End
  deriving DecidableEq, Repr

def visible : FsmState → Bool
  | unusedUnconfirmed | unusedConfirmed | mappedUnconfirmed | mappedConfirmed => true
  | _                                                                         => false

def unconfirmed : FsmState → Bool
  | unusedUnconfirmed | mappedUnconfirmed | awaitConfirmation => true
  | _                                                         => false

def End.visible : End → Bool
  | live _ s => Mapping.visible s
  | _        => false

def End.unconfirmed : End → Bool
  | live _ s => Mapping.unconfirmed s
  | _        => false

-- The state of a visible object after a description was received.
def described : FsmState → FsmState
  | unusedUnconfirmed => mappedUnconfirmed
  | unusedConfirmed   => mappedConfirmed
  | s                 => s

namespace View

def init : View := ⟨.new, [], [], .new⟩

def swap (v : View) : View := ⟨v.q, v.qp, v.pq, v.p⟩

-- The object `p` is created, in the case of `silent` before there is anything to be described.
def create (v : View) : List View :=
  match v.p with
  | .new =>
    { v with p := .live .no unusedUnconfirmed, pq := v.pq ++ [.desc] } ::
    if v.pq = [] ∧ (v.qp = [] ∨ v.qp = [.desc]) ∧ (v.q = .new ∨ v.q = .live .no unusedUnconfirmed ∨
      v.q = .live .no awaitConfirmation) then
      [{ v with p := .live .no unusedConfirmed }]
    else
      []
  | _ => []

def destroy (v : View) : List View :=
  match v.p with
  | .live .act mappedConfirmed => [{ v with p := .live .rem awaitAck, pq := v.pq ++ [.removed] }]
  | .live r mappedConfirmed    => [{ v with p := .live r awaitAck }]
  | .live .no unusedConfirmed  => [{ v with p := .gone }, { v with p := .live .no awaitRemovals }]
  | .live r unusedConfirmed    => [{ v with p := .live r awaitRemovals }]
  | .live r unusedUnconfirmed  => [{ v with p := .live r awaitConfirmation }]
  | .live r mappedUnconfirmed  => [{ v with p := .live r awaitConfirmation }]
  | _                          => []

-- The object `p` receives a message that concerns another object than `q`.
def other (v : View) : List View :=
  match v.p with
  | .live .act s =>
    if visible s ∧ ¬v.q.visible ∧ v.q ≠ .new ∧ .map ∉ v.qp then
      [{ v with p := .live .skip (described s), pq := v.pq ++ [.ack] }]
    else
      []
  | .live .no s =>
    match s with
    | mappedConfirmed => [{ v with p := .live .no unusedConfirmed }]
    | awaitRemovals   => [{ v with p := .gone }]
    | awaitAck        => [{ v with p := .gone }]
    | s               => if visible s then [{ v with p := .live .no (described s) }] else []
  | .live r s => if visible s then [{ v with p := .live r (described s) }] else []
  | _         => []

-- The object `p` receives the next of the messages that concern the pair, `rest` being those that
-- follow it. There are no successors if the protocol does not provide for this to happen.
def receive (v : View) (m : Letter) (rest : List Letter) : List View :=
  match m, v.p with
  | .desc, .live r s =>
    if visible s then
      if r = .no then
        [{ v with p := .live .act (described s), pq := v.pq ++ [.map], qp := rest }]
      else
        []
    else
      [{ v with pq := v.pq ++ [.noticed], qp := rest }, { v with pq := v.pq ++ [.remap], qp := rest }]
  | .desc, _ =>
    [{ v with pq := v.pq ++ [.noticed], qp := rest }, { v with pq := v.pq ++ [.remap], qp := rest }]
  | .map, .live .no unusedUnconfirmed  => [{ v with p := .live .act mappedConfirmed, qp := rest }]
  | .map, .live .act mappedUnconfirmed => [{ v with p := .live .act mappedConfirmed, qp := rest }]
  | .map, .live .act awaitConfirmation =>
    [{ v with p := .live .rem awaitAck, pq := v.pq ++ [.removed], qp := rest }]
  | .map, .live .no awaitConfirmation =>
    [{ v with p := .live .rem awaitAck, pq := v.pq ++ [.removed], qp := rest }]
  | .remap, .live .no unusedUnconfirmed   => [{ v with p := .live .no mappedConfirmed, qp := rest }]
  | .remap, .live .act mappedUnconfirmed  => []
  | .remap, .live r mappedUnconfirmed     => [{ v with p := .live r mappedConfirmed, qp := rest }]
  | .remap, .live .act awaitConfirmation  =>
    [{ v with p := .live .skip awaitAck, pq := v.pq ++ [.ack], qp := rest }]
  | .remap, .live r awaitConfirmation     => [{ v with p := .live r awaitAck, qp := rest }]
  | .noticed, .live .no unusedUnconfirmed => [{ v with p := .live .no unusedConfirmed, qp := rest }]
  | .noticed, .live .act mappedUnconfirmed =>
    [{ v with p := .live .skip unusedConfirmed, pq := v.pq ++ [.ack], qp := rest }]
  | .noticed, .live r mappedUnconfirmed => [{ v with p := .live r unusedConfirmed, qp := rest }]
  | .noticed, .live .act awaitConfirmation =>
    [{ v with p := .live .skip awaitRemovals, pq := v.pq ++ [.ack], qp := rest }]
  | .noticed, .live .no awaitConfirmation =>
    [{ v with p := .live .no awaitRemovals, qp := rest }, { v with p := .gone, qp := rest }]
  | .noticed, .live r awaitConfirmation => [{ v with p := .live r awaitRemovals, qp := rest }]
  | .removed, .live .skip awaitRemovals =>
    [{ v with p := .live .no awaitRemovals, qp := rest }, { v with p := .gone, qp := rest }]
  | .removed, .live .skip s => [{ v with p := .live .no s, qp := rest }]
  | .removed, .live .act mappedConfirmed =>
    [{ v with p := .live .no unusedConfirmed, pq := v.pq ++ [.ack], qp := rest }]
  | .removed, .live .rem awaitAck =>
    [{ v with p := .live .rma awaitAck, pq := v.pq ++ [.ack], qp := rest }]
  | .ack, .live .rem awaitAck => [{ v with p := .gone, qp := rest }]
  | .ack, .live .rma awaitAck => [{ v with p := .gone, qp := rest }]
  | _, _ => []

-- What may happen on the side of `p`.
def next (v : View) : List View :=
  v.create ++ v.destroy ++ v.other ++
    match v.qp with
    | []     => []
    | m :: l => v.receive m l

end View

-- A group of views: the messages in flight and the possible states of `p` and of `q`.
structure Row where
  pq : List Letter
  qp : List Letter
  p  : List End
  q  : List End

namespace Row

def idle : List End := [.new, .gone, .live .no awaitAck, .live .no awaitRemovals]

def confirmed : List End := idle ++ [.live .no unusedConfirmed, .live .no mappedConfirmed]

def pending : List End :=
  [.live .no unusedUnconfirmed, .live .no mappedUnconfirmed, .live .no awaitConfirmation]

def matched : List End := [.live .act mappedUnconfirmed, .live .act awaitConfirmation]

def skipping : List End :=
  [.live .skip unusedConfirmed, .live .skip mappedConfirmed, .live .skip awaitAck,
   .live .skip awaitRemovals]

def preskipping : List End := [.live .skip mappedUnconfirmed, .live .skip awaitConfirmation]

def dying : List End := [.live .no awaitConfirmation]

def removing : List End := [.live .rem awaitAck]

-- The rows in which `q` is not mapped, or in which both sides are, without the replies that do not
-- name the object of the pair.
def common : List Row := [
  ⟨[], [], idle, confirmed⟩,
  ⟨[.desc], [], pending, confirmed⟩,
  ⟨[.desc], [.desc], pending, pending⟩,
  ⟨[.desc, .map], [], matched, pending⟩,
  ⟨[.desc, .map, .ack], [], preskipping, dying⟩,
  ⟨[.map], [], [.live .act mappedConfirmed], matched ++ pending⟩,
  ⟨[.map], [.map], matched, matched⟩,
  ⟨[], [], [.live .act mappedConfirmed], [.live .act mappedConfirmed]⟩,
  ⟨[.map, .ack], [], [.live .skip mappedConfirmed, .live .skip awaitAck],
    dying ++ [.live .act awaitConfirmation]⟩,
  ⟨[.map, .ack], [], [.live .skip unusedConfirmed, .live .skip awaitRemovals], dying⟩,
  ⟨[.map, .removed], [], removing, matched ++ pending⟩,
  ⟨[.removed], [], removing, [.live .act mappedConfirmed]⟩,
  ⟨[.removed], [], [.gone], skipping⟩,
  ⟨[.removed], [.ack], removing, skipping⟩,
  ⟨[.removed], [.removed], removing, removing⟩,
  ⟨[.removed, .ack], [], [.live .rma awaitAck], removing⟩,
  ⟨[.ack], [.ack], [.live .rma awaitAck], [.live .rma awaitAck]⟩,
  ⟨[.ack], [], [.gone], [.live .rma awaitAck]⟩,
  ⟨[.ack], [], confirmed.tail, removing⟩]

-- The rows with a reply `r` to the description of `q` that does not name `p`.
def replied (r : Letter) : List Row := [
  ⟨[r], [], idle, pending⟩,
  ⟨[.desc, r], [], dying, pending⟩,
  ⟨[r, .desc], [], pending, pending⟩,
  ⟨[r], [.map], dying, matched⟩,
  ⟨[r], [.map, .ack], dying, preskipping⟩,
  ⟨[r, .removed], [], [.gone], preskipping⟩,
  ⟨[r, .removed], [], removing, matched⟩,
  ⟨[r, .removed], [.ack], removing, preskipping⟩,
  ⟨[r], [.noticed], dying, dying⟩,
  ⟨[r], [.remap], dying, dying⟩]

def swap (r : Row) : Row := ⟨r.qp, r.pq, r.q, r.p⟩

def all : List Row :=
  let rs := common ++ replied .noticed ++ replied .remap
  rs ++ rs.map swap

def views (r : Row) : List View :=
  r.p.flatMap fun p => r.q.map fun q => ⟨p, r.pq, r.qp, q⟩

def contains (r : Row) (v : View) : Bool :=
  r.pq = v.pq && r.qp = v.qp && r.p.elem v.p && r.q.elem v.q

theorem mem_views_of_contains {r : Row} {v : View} (h : r.contains v) : v ∈ r.views := by
  simp only [contains, Bool.and_eq_true, decide_eq_true_eq, List.elem_eq_mem] at h
  simp only [views, List.mem_flatMap, List.mem_map]
  exact ⟨v.p, h.1.2, v.q, h.2, by rw [h.1.1.1, h.1.1.2]⟩

end Row

-- All views that a pair of objects can ever have.
def table : List View :=
  Row.all.flatMap Row.views

def listed (v : View) : Bool :=
  Row.all.any (·.contains v)

theorem mem_table_of_listed {v : View} (h : listed v) : v ∈ table := by
  obtain ⟨r, hr, hv⟩ := List.any_eq_true.mp h
  exact List.mem_flatMap.mpr ⟨r, hr, Row.mem_views_of_contains hv⟩

theorem init_mem_table : View.init ∈ table :=
  mem_table_of_listed (by decide)

theorem swap_mem_table {v : View} (h : v ∈ table) : v.swap ∈ table := by
  have hs : table.all (fun v => listed v.swap) = true := by decide +kernel
  exact mem_table_of_listed (List.all_eq_true.mp hs v h)

theorem next_mem_table {v w : View} (h : v ∈ table) (hw : w ∈ v.next) : w ∈ table := by
  have hn : table.all (fun v => v.next.all listed) = true := by decide +kernel
  exact mem_table_of_listed (List.all_eq_true.mp (List.all_eq_true.mp hn v h) w hw)

-- What can be read off the table.

def End.rel : End → Rel
  | live r _ => r
  | _        => .no

def End.isLive : End → Bool
  | live _ _ => true
  | _        => false

-- What is known about a pair when `p` receives a message: it finds the object it is addressed to.
@[mk_iff] structure View.Receives (v : View) : Prop where
  isLive       : .map ∈ v.qp ∨ .remap ∈ v.qp ∨ .noticed ∈ v.qp ∨ .removed ∈ v.qp ∨ .ack ∈ v.qp →
    v.p.isLive = true
  map_head     : v.qp.head? = some .map → .desc ∉ v.qp ∧ v.q ≠ .new ∧ v.p.rel ≠ .skip
  removed_head : v.qp.head? = some .removed →
    (v.p.rel = .skip ∧ v.p.unconfirmed = false) ∨ v.p = .live .act mappedConfirmed ∨ v.p.rel = .rem
  ack_head     : v.qp.head? = some .ack → v.p.rel = .rem ∨ v.p.rel = .rma
  head_of_rem  : v.qp.head? = some .removed → v.p.rel = .rem → v.q.isLive = true ∧ v.q.rel ≠ .no

-- What the messages in flight and the state of `p` tell about `q`. An object that has nothing to do
-- with another one is not mentioned anywhere.
@[mk_iff] structure View.Mentions (v : View) : Prop where
  map     : .map ∈ v.qp → v.q.isLive = true ∧ v.q.rel ≠ .no
  removed : .removed ∈ v.qp → v.q = .gone ∨ v.q = .live .rem awaitAck ∨ v.q = .live .rma awaitAck
  ack     : .ack ∈ v.qp → v.q ≠ .new ∧ (v.q.unconfirmed = true → v.q.rel = .skip)
  act     : v.p.rel = .act → v.q.isLive = true
  skip    : v.p.rel = .skip → v.p.unconfirmed = false →
    .removed ∈ v.qp ∨ (.map ∈ v.pq ∧ v.q.unconfirmed = true)
  unused  : v.p = .live .no unusedConfirmed →
    .desc ∉ v.pq ∧ .map ∉ v.pq ∧ .map ∉ v.qp ∧ .remap ∉ v.qp ∧ .noticed ∉ v.qp ∧
    .removed ∉ v.qp ∧ .ack ∉ v.qp ∧ v.q.rel ≠ .act

-- Objects that do not exist yet, and pairs with nothing in flight: the two objects agree on whether
-- they are mapped to each other.
@[mk_iff] structure View.Settles (v : View) : Prop where
  new            : v.p = .new → v.pq = [] ∨ v.pq = [.noticed] ∨ v.pq = [.remap]
  new_of_pending : v.p = .new → v.pq = [] →
    v.q = .new ∨ v.q = .live .no unusedUnconfirmed ∨ v.q = .live .no awaitConfirmation →
    v.qp = [] ∨ v.qp = [.desc]
  quiescent      : v.pq = [] → v.qp = [] →
    (v.p.rel = .no ∧ v.q.rel = .no ∧ ¬(v.p.visible = true ∧ v.q.visible = true)) ∨
    (v.p = .live .act mappedConfirmed ∧ v.q = .live .act mappedConfirmed)

instance : DecidablePred View.Receives :=
  fun v => decidable_of_iff' _ (View.receives_iff v)

set_option synthInstance.maxSize 512 in
instance : DecidablePred View.Mentions :=
  fun v => decidable_of_iff' _ (View.mentions_iff v)

set_option synthInstance.maxSize 512 in
instance : DecidablePred View.Settles :=
  fun v => decidable_of_iff' _ (View.settles_iff v)

theorem receives {v : View} (h : v ∈ table) : v.Receives := by
  have ht : ∀ v ∈ table, v.Receives := by decide +kernel
  exact ht v h

theorem mentions {v : View} (h : v ∈ table) : v.Mentions := by
  have ht : ∀ v ∈ table, v.Mentions := by decide +kernel
  exact ht v h

theorem settles {v : View} (h : v ∈ table) : v.Settles := by
  have ht : ∀ v ∈ table, v.Settles := by decide +kernel
  exact ht v h

end Yogi.Mapping
