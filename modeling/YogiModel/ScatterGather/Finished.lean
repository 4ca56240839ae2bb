import YogiModel.ScatterGather.Consistency

namespace Yogi.ScatterGather

namespace Pending

variable {P Q R : Multiset Pending} {p : Pending} {e : Event} {A : Event → Prop}
  {gs hs : List (Id × Nat)} {fs fs' : List Nat} {op : Id}

-- The flags of the Gather messages of an operation.
def flagsOf (op : Id) (gs : List (Id × Nat)) : List Nat :=
  (gs.filter (·.1 = op)).map Prod.snd

theorem flagsOf_append : flagsOf op (gs ++ hs) = flagsOf op gs ++ flagsOf op hs := by
  simp [flagsOf]

theorem flagsOf_eq_nil (h : ∀ g ∈ gs, g.1 ≠ op) : flagsOf op gs = [] := by
  rw [flagsOf, List.filter_eq_nil_iff.mpr (by simpa using h), List.map_nil]

-- Only the last of a number of Gather messages has the flag FINISHED.
def FinishedLast (fs : List Nat) : Prop :=
  ∃ pre f, fs = pre ++ [f] ∧ finished f = true ∧ ∀ g ∈ pre, finished g = false

def Unfinished (fs : List Nat) : Prop :=
  ∀ f ∈ fs, finished f = false

theorem Unfinished.append (h : Unfinished fs) (h' : Unfinished fs') : Unfinished (fs ++ fs') := by
  intro f hf
  exact (List.mem_append.mp hf).elim (h f) (h' f)

theorem Unfinished.finishedLast (h : Unfinished fs) (h' : FinishedLast fs') :
    FinishedLast (fs ++ fs') := by
  obtain ⟨pre, f, he, hf, hp⟩ := h'
  exact ⟨fs ++ pre, f, by rw [he, List.append_assoc], hf, h.append hp⟩

-- The Gather messages of an operation with pending answers before.
inductive Ends (op : Id) (P : Multiset Pending) (fs : List Nat) (Q : Multiset Pending) : Prop
  | going (h : Awaited P op) (hq : Awaited Q op) (hf : Unfinished fs)
  | ended (h : Awaited P op) (hq : ¬Awaited Q op) (hf : FinishedLast fs)
  | over (h : ¬Awaited P op) (hq : ¬Awaited Q op) (hf : fs = [])

theorem Ends.refl : Ends op P [] P := by
  cases Decidable.em (Awaited P op)
  case inl h => exact .going h h (by simp [Unfinished])
  case inr h => exact .over h h rfl

theorem Ends.trans (h : Ends op P fs Q) (h' : Ends op Q fs' R) : Ends op P (fs ++ fs') R := by
  cases h <;> cases h'
  case going.going hP _ hf _ hR hf' => exact .going hP hR (hf.append hf')
  case going.ended hP _ hf _ hR hf' => exact .ended hP hR (hf.finishedLast hf')
  case ended.over hP _ hf _ hR hf'  => exact .ended hP hR (by rwa [hf', List.append_nil])
  case over.over hP _ hf _ hR hf'   => exact .over hP hR (by rw [hf, hf', List.append_nil])
  all_goals contradiction

theorem Ends.of_iff (h : Awaited P op ↔ Awaited Q op) : Ends op P [] Q := by
  cases Decidable.em (Awaited Q op)
  case inl hq => exact .going (h.mpr hq) hq (by simp [Unfinished])
  case inr hq => exact .over (mt h.mp hq) hq rfl

-- The number of answers to an operation that are pending.
def owed (P : Multiset Pending) (op : Id) : Nat :=
  P.countP (·.operation = op)

theorem owed_cons : owed (p ::ₘ P) op = owed P op + if p.operation = op then 1 else 0 := by
  rw [owed, Multiset.countP_cons]
  rfl

theorem awaited_iff : Awaited P op ↔ 0 < owed P op := by
  rw [owed, Multiset.countP_pos]
  rfl

theorem awaited_self : Awaited (p ::ₘ P) p.operation :=
  ⟨p, Multiset.mem_cons_self .., rfl⟩

def Event.pending : Event → Pending
  | stored p     => p
  | answered p _ => p
  | destroyed p  => p
  | dropped p    => p

-- An event makes no difference to other operations.
theorem Step.other (h : Step P e Q) (hne : e.pending.operation ≠ op) :
    flagsOf op (e.gathers Q) = [] ∧ owed Q op = owed P op := by
  cases h <;> simp only [Event.pending] at hne
  case stored    => exact ⟨rfl, by simp [owed_cons, hne]⟩
  case dropped   => exact ⟨rfl, by simp [owed_cons, hne]⟩
  case answered  => exact ⟨flagsOf_eq_nil (by simp [Event.gathers, hne]), by simp [owed_cons, hne]⟩
  case destroyed =>
    refine ⟨flagsOf_eq_nil fun g hg => ?_, by simp [owed_cons, hne]⟩
    simp only [Event.gathers] at hg
    split at hg <;> simp at hg
    simp [hg, hne]

-- The flags of an answer do not say that the operation has come to an end, so the leaf adds the flag.
theorem finished_or (f : Nat) : finished (f ||| gatherFinished) = true := by
  simp [finished, gatherFinished]

-- A terminal does not get another scattered message of the operation, and no answers are dropped.
def Giving (op : Id) : Event → Prop
  | .stored p           => p.operation ≠ op
  | .answered _ flags   => finished flags = false
  | .destroyed _        => True
  | .dropped _          => False

theorem Step.ends (h : Step P e Q) (he : Giving op e) : Ends op P (flagsOf op (e.gathers Q)) Q := by
  cases Decidable.em (e.pending.operation = op)
  case inr hne =>
    obtain ⟨hf, ho⟩ := h.other hne
    rw [hf]
    exact .of_iff (by rw [awaited_iff, awaited_iff, ho])
  case inl hop =>
    cases h <;> simp only [Giving] at he <;> simp only [Event.pending] at hop <;> subst hop
    case stored => exact absurd rfl he
    case answered p flags =>
      cases Decidable.em (Awaited Q p.operation)
      case inl h => exact .going awaited_self h (by simp [Event.gathers, flagsOf, h, Unfinished, he])
      case inr h =>
        refine .ended awaited_self h ⟨[], flags ||| gatherFinished, ?_, finished_or flags, by simp⟩
        simp [Event.gathers, flagsOf, h]
    case destroyed p =>
      cases Decidable.em (Awaited Q p.operation)
      case inl h => exact .going awaited_self h (by simp [Event.gathers, flagsOf, h, Unfinished])
      case inr h =>
        refine .ended awaited_self h
          ⟨[], gatherBindingDestroyed ||| gatherFinished, ?_, finished_or _, by simp⟩
        simp [Event.gathers, flagsOf, h]

theorem Run.ends (op : Id) (h : Run A P gs Q) (hA : ∀ e, A e → Giving op e) : Ends op P (flagsOf op gs) Q := by
  induction h
  case nil => exact .refl
  case cons hs ha _ ih =>
    rw [flagsOf_append]
    exact (hs.ends (hA _ ha)).trans ih

-- Every pending answer to the operation is given by its terminal.
def Answering (op : Id) : Event → Prop
  | .answered _ _ => True
  | e             => e.pending.operation ≠ op

theorem Step.counts (h : Step P e Q) (he : Answering op e) :
    (flagsOf op (e.gathers Q)).length + owed Q op = owed P op := by
  cases Decidable.em (e.pending.operation = op)
  case inr hne =>
    obtain ⟨hf, ho⟩ := h.other hne
    simp [hf, ho]
  case inl hop =>
    cases h <;> simp only [Answering] at he
    case answered => simp_all [Event.pending, Event.gathers, flagsOf, owed_cons, Nat.add_comm]
    all_goals exact absurd hop he

theorem Run.counts (op : Id) (h : Run A P gs Q) (hA : ∀ e, A e → Answering op e) :
    (flagsOf op gs).length + owed Q op = owed P op := by
  induction h
  case nil => simp [flagsOf]
  case cons hs ha _ ih =>
    rw [flagsOf_append, List.length_append, Nat.add_assoc, ih]
    exact hs.counts (hA _ ha)

-- Without new answers to come the events are about the answers that are pending.
theorem Run.within (h : Run A P gs Q) (hA : ∀ p, ¬A (.stored p)) :
    Run (fun e => A e ∧ e.pending ∈ P) P gs Q := by
  induction h
  case nil => exact .nil
  case cons hs ha _ ih =>
    cases hs
    case stored => exact absurd ha (hA _)
    all_goals
      exact .cons (by constructor) ⟨ha, Multiset.mem_cons_self ..⟩
        (ih.mono fun _ he => ⟨he.left, Multiset.mem_cons_of_mem he.right⟩)

-- Answers that are dropped are not given, and others remain.
theorem Run.drops (h : Run A P gs Q) (hA : ∀ e, A e → ∃ p, e = .dropped p) :
    gs = [] ∧ ∀ p ∈ P, ¬A (.dropped p) → p ∈ Q := by
  induction h
  case nil => exact ⟨rfl, fun _ hp _ => hp⟩
  case cons hs ha _ ih =>
    obtain ⟨p, he⟩ := hA _ ha
    subst he
    cases hs
    refine ⟨ih.left, fun q hq hn => ih.right q ?_ hn⟩
    exact (Multiset.mem_cons.mp hq).resolve_left fun hqp => hn (hqp ▸ ha)

-- The Gather messages of an operation since it began.
def Told (op : Id) (Q : Multiset Pending) (fs : List Nat) : Prop :=
  if Awaited Q op then Unfinished fs else FinishedLast fs

theorem Ends.told (h : Ends op P fs Q) (ha : Awaited P op) : Told op Q fs := by
  cases h
  case going hq hf => exact (if_pos hq).mpr hf
  case ended hq hf => exact (if_neg hq).mpr hf
  case «over» hn _ _ => exact absurd ha hn

theorem Told.append (h : Told op P fs) (h' : Ends op P fs' Q) : Told op Q (fs ++ fs') := by
  cases h'
  case going hp hq hf => exact (if_pos hq).mpr (((if_pos hp).mp h).append hf)
  case ended hp hq hf => exact (if_neg hq).mpr (Unfinished.finishedLast ((if_pos hp).mp h) hf)
  case «over» hp hq hf =>
    rw [hf, List.append_nil]
    exact (if_neg hq).mpr ((if_neg hp).mp h)

end Pending

namespace LeafLogic

open LeafView Pending
open Wire (Byte)

variable {s s' : LeafLogic} {m : Id → Bool} {P Q : Multiset Pending} {p : Pending}
  {op tm bd : Id} {data : List Byte} {calls : Binding → List Call} {b : Binding} {bs cs : List Binding}

-- While there are terminals left that a scattered message is to be delivered to, an answer is pending.
def StillOwed (op bd : Id) (data : List Byte) (calls : Binding → List Call) :
    LeafLogic → List Binding → Prop
  | _, []      => True
  | s, b :: bs =>
    match scatterTo op bd data calls s b with
    | .ok r    => (bs ≠ [] → op ∈ r.1.gatherOperations.map Prod.fst) ∧ StillOwed op bd data calls r.1 bs
    | .error _ => True

-- No two bindings of the group are bindings of the same terminal.
theorem unowed_of_distinct (h : Steady m s P) (hg : (s.leaf.view m).group bd = some (bs, true))
    (hb : ∀ b ∈ cs, b ∈ bs) (hd : (cs.map (·.terminal)).Nodup)
    (hP : ∀ p ∈ P, p.operation = op → p.terminal ∉ cs.map (·.terminal))
    (hc : ∀ b ∈ bs, ∀ c ∈ calls b, (s.terminals c.terminal).isSome = true) :
    Unowed op bd data calls s cs := by
  induction cs generalizing s P
  case nil => trivial
  case cons b cs ih =>
    obtain ⟨hbn, hd⟩ := List.nodup_cons.mp hd
    have hbb := hb b List.mem_cons_self
    have hn : op ∉ (s.terminalExt b.terminal).gatherOperations.map Prod.fst := by
      intro hm
      obtain ⟨p, hp, hop, hpt⟩ := h.tables.terminals.mem.mp hm
      exact hP p hp hop (by simp [hpt])
    obtain ⟨r, Q, hr, hs⟩ := scatterTo_serves data h hg hbb hn (hc b hbb)
    refine ⟨hn, ?_⟩
    rw [hr]
    refine ih hs.steady (hs.leaf ▸ hg) (fun c hc => hb c (List.mem_cons_of_mem _ hc)) hd
      (fun q hq hop => ?_) fun c hcb => hs.calls (hc c hcb)
    have hq := Multiset.mem_of_le (hs.run.le fun _ he => he) hq
    cases Multiset.mem_cons.mp hq
    case inl hq => exact hq ▸ hbn
    case inr hq => exact fun hm => hP q hq hop (List.mem_cons_of_mem _ hm)

-- The messages that are sent while the scattered message is being delivered.
theorem forEach_scatterTo_told (h : Steady m s P) (hg : (s.leaf.view m).group bd = some (bs, true))
    (hb : ∀ b ∈ cs, b ∈ bs) (hne : cs ≠ []) (hu : Unowed op bd data calls s cs)
    (ho : StillOwed op bd data calls s cs)
    (hc : ∀ b ∈ bs, ∀ c ∈ calls b, (s.terminals c.terminal).isSome = true) :
    ∃ r Q, forEach (scatterTo op bd data calls) s cs = .ok r ∧ Steady m r.1 Q ∧
      Told op Q (flagsOf op (gathers r.2)) ∧
      (flagsOf op (gathers r.2)).length + owed Q op = owed P op + cs.length := by
  induction cs generalizing s P
  case nil => exact absurd rfl hne
  case cons b cs ih =>
    have hbb := hb b List.mem_cons_self
    obtain ⟨hn, hu⟩ := hu
    obtain ⟨r, Q, hr, hs⟩ := scatterTo_serves data h hg hbb hn (hc b hbb)
    rw [StillOwed] at ho
    rw [hr] at hu ho
    obtain ⟨ho, ho'⟩ := ho
    have hends := hs.run.ends op fun e he => by
      cases e
      case answered => exact he.unfinished
      all_goals exact he.elim
    have hcount := hs.run.counts op fun e he => by
      cases e
      case answered => trivial
      all_goals exact he.elim
    have htold := hends.told awaited_self
    rw [owed_cons, if_pos rfl] at hcount
    cases cs
    case nil =>
      have hnil : forEach (scatterTo op bd data calls) r.1 [] = .ok (r.1, []) := rfl
      have hf := forEach_ok hr hnil
      rw [List.append_nil] at hf
      exact ⟨_, Q, hf, hs.steady, htold, hcount⟩
    case cons c cs =>
      obtain ⟨r', R, hr', hs', htold', hcount'⟩ := ih hs.steady (hs.leaf ▸ hg)
        (fun c hc => hb c (List.mem_cons_of_mem _ hc)) (by simp) hu ho' fun c hcb => hs.calls (hc c hcb)
      have ha := hs.steady.tables.leaf.mem.mp (ho (by simp))
      have hun : Unfinished (flagsOf op (gathers r.2)) := (if_pos ha).mp htold
      refine ⟨_, R, forEach_ok hr hr', hs', ?_, ?_⟩
      · rw [gathers_append, flagsOf_append, Told]
        split
        case isTrue h  => exact hun.append ((if_pos h).mp htold')
        case isFalse h => exact hun.finishedLast ((if_neg h).mp htold')
      · rw [gathers_append, flagsOf_append, List.length_append, List.length_cons, Nat.add_assoc, hcount',
          ← Nat.add_assoc, hcount]
        simp only [List.length_cons, Nat.add_assoc, Nat.add_comm 1]

theorem TerminalTable.entry (h : s.TerminalTable P) :
    (op, bd) ∈ (s.terminalExt tm).gatherOperations ↔ ⟨op, tm, bd⟩ ∈ P := by
  constructor
  · intro he
    obtain ⟨p, hp, ht, hv⟩ := (Indexes.mem h).mp he
    obtain ⟨ho, hg⟩ := Prod.mk.inj hv
    exact ho ▸ ht ▸ hg ▸ hp
  · exact fun hp => (Indexes.mem h).mpr ⟨_, hp, rfl, rfl⟩

theorem GroupTable.entry (h : s.GroupTable P) : (op, tm) ∈ s.bindingExt bd ↔ ⟨op, tm, bd⟩ ∈ P := by
  constructor
  · intro he
    obtain ⟨p, hp, hg, hv⟩ := (Indexes.mem h).mp he
    obtain ⟨ho, ht⟩ := Prod.mk.inj hv
    exact ho ▸ ht ▸ hg ▸ hp
  · exact fun hp => (Indexes.mem h).mpr ⟨_, hp, rfl, rfl⟩

-- A step that goes on with an operation does not begin it.
def Continues (op : Id) (s : LeafLogic) : Action → Prop
  | .scatterReceived bd op' data calls => op' ≠ op ∧ s.Accepts (.scatterReceived bd op' data calls)
  | _                                  => True

-- If the mapping changes of a step drop a pending answer to an operation, then another one remains.
def Spares (op : Id) (s : LeafLogic) : Action → Prop
  | .base a =>
    (∃ tm bd, (op, bd) ∈ (s.terminalExt tm).gatherOperations ∧ Touches (s.effects a) ⟨op, tm, bd⟩) →
      ∃ tm bd, (op, bd) ∈ (s.terminalExt tm).gatherOperations ∧ ¬Touches (s.effects a) ⟨op, tm, bd⟩
  | _       => True

-- No pending answer to an operation is dropped, or given by the leaf because a binding is destroyed.
def Undisturbed (op : Id) (s : LeafLogic) : Action → Prop
  | .base (.bindingDestroyed b i) => (op, b.terminal) ∉ s.bindingExt i
  | .base a                       =>
    ∀ tm bd, (op, bd) ∈ (s.terminalExt tm).gatherOperations → ¬Touches (s.effects a) ⟨op, tm, bd⟩
  | _                             => True

theorem Continues.accepts {a : Action} (h : s.Continues op a) : s.Accepts a := by
  cases a
  case scatterReceived => exact h.right
  all_goals trivial

-- Terminals answer in steps that are not steps of the base class.
theorem Continues.gives {a : Action} {e : Event} (h : s.Continues op a) (hb : ∀ a', a ≠ .base a')
    (he : Causes s a e) : Giving op e ∧ Answering op e := by
  cases a
  case base a              => exact absurd rfl (hb a)
  case subscribeReceived   => exact he.elim
  case unsubscribeReceived => exact he.elim
  case scatterReceived     =>
    cases e
    case stored   => exact ⟨fun ho => h.left (he.left.symm.trans ho), fun ho => h.left (he.left.symm.trans ho)⟩
    case answered => exact ⟨he.unfinished, trivial⟩
    all_goals exact he.elim
  all_goals
    cases e
    case answered => exact ⟨he.unfinished, trivial⟩
    all_goals exact he.elim

section
variable {a : Leaf.Action} {gs : List (Id × Nat)}

theorem drops_dropped {es : List Leaf.Effect} {e : Event} (h : Drops es e) : ∃ p, e = .dropped p := by
  cases e
  case dropped p => exact ⟨p, rfl⟩
  all_goals exact h.elim

theorem drops_ends (h : s.TerminalTable P) (hsp : s.Spares op (.base a))
    (hr : Run (Drops (s.effects a)) P gs Q) : Ends op P (flagsOf op gs) Q := by
  obtain ⟨hgs, hkeep⟩ := hr.drops fun _ he => drops_dropped he
  have hle := hr.le fun _ => drops_stored
  rw [hgs]
  refine .of_iff ⟨fun hp => ?_, fun hp => hp.imp fun p hp => ⟨Multiset.mem_of_le hle hp.left, hp.right⟩⟩
  obtain ⟨p, hp, hop⟩ := hp
  cases Classical.em (Touches (s.effects a) p)
  case inr hn => exact ⟨p, hkeep p hp hn, hop⟩
  case inl ht =>
    subst hop
    obtain ⟨tm, bd, hq, hn⟩ := hsp ⟨p.terminal, p.group, h.entry.mpr hp, ht⟩
    exact ⟨_, hkeep _ (h.entry.mp hq) hn, rfl⟩

theorem drops_counts (h : s.TerminalTable P)
    (hu : ∀ tm bd, (op, bd) ∈ (s.terminalExt tm).gatherOperations → ¬Touches (s.effects a) ⟨op, tm, bd⟩)
    (hr : Run (Drops (s.effects a)) P gs Q) : (flagsOf op gs).length + owed Q op = owed P op := by
  refine (hr.within fun _ => drops_stored).counts op fun e he => ?_
  obtain ⟨he, hp⟩ := he
  obtain ⟨p, hep⟩ := drops_dropped he
  subst hep
  intro hop
  have hop : p.operation = op := hop
  subst hop
  exact hu p.terminal p.group (h.entry.mpr hp) he

end

theorem step_ends {a : Action} {gs : List (Id × Nat)} (h : Steady m s P) (hc : s.Continues op a)
    (hsp : s.Spares op a) (hr : Run (Causes s a) P gs Q) : Ends op P (flagsOf op gs) Q := by
  cases a
  case base a =>
    cases a
    case bindingDestroyed b i =>
      refine hr.ends op fun e he => ?_
      cases e
      case destroyed => trivial
      all_goals exact he.elim
    all_goals exact drops_ends h.tables.terminals hsp hr
  all_goals exact hr.ends op fun _ he => (hc.gives (by simp) he).left

theorem step_counts {a : Action} {gs : List (Id × Nat)} (h : Steady m s P) (hc : s.Continues op a)
    (hu : s.Undisturbed op a) (hr : Run (Causes s a) P gs Q) :
    (flagsOf op gs).length + owed Q op = owed P op := by
  cases a
  case base a =>
    cases a
    case bindingDestroyed b i =>
      refine (hr.within fun _ he => he).counts op fun e he => ?_
      cases e
      case destroyed p =>
        intro hop
        obtain ⟨he, hp⟩ := he
        have hop : p.operation = op := hop
        have hp : p ∈ P := hp
        have hu : (op, b.terminal) ∉ s.bindingExt i := hu
        rw [← hop, ← he.right, ← he.left] at hu
        exact hu (h.tables.groups.entry.mpr hp)
      all_goals exact he.left.elim
    all_goals exact drops_counts h.tables.terminals hu hr
  all_goals exact hr.counts op fun _ he => (hc.gives (by simp) he).right

-- A number of steps that meet a condition, with their effects.
inductive Steps (C : LeafLogic → Action → Prop) : LeafLogic → List Effect → LeafLogic → Prop
  | nil {s : LeafLogic} : Steps C s [] s
  | cons {s s' : LeafLogic} {a r es} (he : machine.enabled s a) (hc : C s a) (hs : s.step a = .ok r)
    (t : Steps C r.1 es s') : Steps C s (r.2 ++ es) s'

theorem Steps.told {fs : List Nat} {es : List Effect}
    (h : Steps (fun s a => s.Continues op a ∧ s.Spares op a) s es s') (hs : Steady m s P)
    (ht : Told op P fs) : ∃ m Q, Steady m s' Q ∧ Told op Q (fs ++ flagsOf op (gathers es)) := by
  induction h generalizing m P fs
  case nil => exact ⟨m, P, hs, by simpa [gathers, flagsOf] using ht⟩
  case cons he hc hr _ ih =>
    obtain ⟨r', Q, m', hr', hq, hrun⟩ := step_steady hs he hc.left.accepts
    cases hr'.symm.trans hr
    obtain ⟨m'', R, hR, ht'⟩ := ih hq (ht.append (step_ends hs hc.left hc.right hrun))
    refine ⟨m'', R, hR, ?_⟩
    rwa [gathers_append, flagsOf_append, ← List.append_assoc]

theorem Steps.counts {es : List Effect}
    (h : Steps (fun s a => s.Continues op a ∧ s.Undisturbed op a) s es s') (hs : Steady m s P) :
    ∃ m Q, Steady m s' Q ∧ (flagsOf op (gathers es)).length + owed Q op = owed P op := by
  induction h generalizing m P
  case nil => exact ⟨m, P, hs, by simp [gathers, flagsOf]⟩
  case cons he hc hr _ ih =>
    obtain ⟨r', Q, m', hr', hq, hrun⟩ := step_steady hs he hc.left.accepts
    cases hr'.symm.trans hr
    obtain ⟨m'', R, hR, hn⟩ := ih hq
    refine ⟨m'', R, hR, ?_⟩
    rw [gathers_append, flagsOf_append, List.length_append, Nat.add_assoc, hn]
    exact step_counts hs hc.left hc.right hrun

theorem Tables.owed_eq (h : s.Tables P) :
    (s.gatherOperations.map Prod.fst).count op = Pending.owed P op := by
  have := congrArg (fun M => Multiset.count op (M.map Prod.fst)) h.leaf
  simp only [Multiset.map_map, Function.comp_def, Multiset.map_coe, Multiset.coe_count,
    List.map_map] at this
  rw [this, Multiset.count_map, Pending.owed, Multiset.countP_eq_card_filter]
  simp only [eq_comm]

instance decidableStillOwed (op bd : Id) (data : List Byte) (calls : Binding → List Call) :
    ∀ s bs, Decidable (StillOwed op bd data calls s bs)
  | _, []      => .isTrue trivial
  | s, b :: bs => by
    simp only [StillOwed]
    cases scatterTo op bd data calls s b
    case error => infer_instance
    case ok r  =>
      have := decidableStillOwed op bd data calls r.1 bs
      infer_instance

-- Two terminals are bound to a terminal of another leaf.
def boundTwo : List Action :=
  [.base (.connectionStarted false), .base (.newTerminal 0 ⟨1, "a", false⟩),
    .base (.newTerminal 1 ⟨1, "b", false⟩), .base (.newBinding ⟨0, 1⟩ ⟨1, "c", false⟩),
    .base (.newBinding ⟨1, 2⟩ ⟨1, "c", false⟩),
    .base (.messageReceived (.terminalDescription ⟨1, "c", false⟩ 5))]

def scatterToTwo : Action :=
  .scatterReceived 1 7 [1] fun _ => []

end LeafLogic
end Yogi.ScatterGather
