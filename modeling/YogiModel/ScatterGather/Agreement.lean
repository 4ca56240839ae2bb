import YogiModel.ScatterGather.Operations

namespace Yogi.ScatterGather.LeafLogic

open LeafView
open Wire (Byte)

variable {s s' s'' : LeafLogic} {u v w : LeafView} {m : Id → Bool} {t : Nat} {tm : Id} {K : Prop}

-- What the base class does.

theorem forEach_append {α : Type} {f : LeafLogic → α → Result} {as bs : List α} {r}
    (h : forEach f s (as ++ bs) = .ok r) :
    ∃ p q, forEach f s as = .ok p ∧ forEach f p.1 bs = .ok q ∧ r.1 = q.1 := by
  induction as generalizing s r
  case nil => exact ⟨(s, []), r, rfl, h, rfl⟩
  case cons a as ih =>
    obtain ⟨p, q, hp, hq, he⟩ := forEach_cons.mp h
    obtain ⟨p', q', hp', hq', he'⟩ := ih hq
    cases he
    exact ⟨_, q', forEach_cons.mpr ⟨p, p', hp, hp', rfl⟩, hq', he'⟩

theorem ScatterInv.withLeaf {l : Leaf} (h : ScatterInv v s) : ScatterInv v { s with leaf := l } :=
  ⟨h.same, h.tasks, h.ops, h.nodup, h.owner, h.mapped⟩

theorem Passes.ofLeaf {l : Leaf} (h : Passes v w { s with leaf := l } s') : Passes v w s s' :=
  ⟨h.inv, h.subscribed, h.objects, h.ext, h.empty, h.null⟩

theorem Passes.trans (h : Passes v w s s') (h' : Passes w u s' s'')
    (ho : ∀ tm, w.object tm = v.object tm) : Passes v u s s'' where
  inv        := h'.inv
  subscribed := h'.subscribed
  objects    := fun t => (h'.objects t).trans (h.objects t)
  ext        := fun tm htm => (h'.ext tm ((ho tm).trans htm)).trans (h.ext tm htm)
  empty      := fun tm he => h'.empty tm (h.empty tm he)
  null       := fun op => (h'.null op).trans (h.null op)

theorem forEach_single {α : Type} {f : LeafLogic → α → Result} {a : α} {r}
    (h : forEach f s [a] = .ok r) : ∃ p, f s a = .ok p ∧ r.1 = p.1 := by
  obtain ⟨p, q, hp, hq, he⟩ := forEach_cons.mp h
  cases hq
  cases he
  exact ⟨p, hp, rfl⟩

theorem Move.passes {es : List Leaf.Effect} {r} (hm : Move v es w) (h : ScatterInv v s)
    (hsv : Subscribed v s) (hs : forEach onEffect s es = .ok r) : Passes v w s r.1 := by
  have hrefl : Passes v v s s := (SameScatter.refl s).passes h hsv (fun _ => rfl) fun _ _ => rfl
  cases hm
  case send =>
    obtain ⟨p, hp, hr⟩ := forEach_single hs
    cases hp
    exact hr ▸ hrefl
  case publishState =>
    obtain ⟨p, hp, hr⟩ := forEach_single hs
    cases hp
    exact hr ▸ hrefl
  case mapped l i t b hl ht _ _ =>
    obtain ⟨p, hp, hr⟩ := forEach_single hs
    exact hr ▸ (onTerminalMappingChanged_passes (h.withLeaf (l := l)) hsv hl ht hp).ofLeaf
  case established l i bs b hg hl =>
    obtain ⟨p, hp, hr⟩ := forEach_single hs
    have hp : Passes v (v.setGroup i (some (bs, b))) { s with leaf := l } p.1 :=
      (onBindingGroupMappingChanged_same hp).passes h.withLeaf hsv (fun _ => rfl) fun _ _ => rfl
    exact hr ▸ hp.ofLeaf
  case terminalErased i hi =>
    cases hs
    refine (SameScatter.refl s).passes h hsv (fun j => ?_) fun _ _ => rfl
    rw [object_setTerminal]
    split
    case isTrue hj => simp [LeafView.object, hj, hi]
    case isFalse   => rfl
  case groupErased =>
    cases hs
    exact (SameScatter.refl s).passes h hsv (fun _ => rfl) fun _ _ => rfl

theorem Trace.passes {es : List Leaf.Effect} {r} (ht : Trace v es w) (h : ScatterInv v s)
    (hsv : Subscribed v s) (hs : forEach onEffect s es = .ok r) : Passes v w s r.1 := by
  induction ht generalizing s r
  case nil =>
    cases hs
    exact (SameScatter.refl s).passes h hsv (fun _ => rfl) fun _ _ => rfl
  case cons hm _ ih =>
    obtain ⟨p, q, hp, hq, hr⟩ := forEach_append hs
    have hpass := Move.passes hm h hsv hp
    exact hr ▸ hpass.trans (ih hpass.inv hpass.subscribed hq) fun _ => (Trace.single hm).object

theorem onBase_passes {q : Leaf × List Leaf.Effect} {r} (ht : Trace v q.2 w) (h : ScatterInv v s)
    (hsv : Subscribed v s) (hs : s.onBase q = .ok r) : Passes v w s r.1 ∧ r.1.leaf = q.1 := by
  obtain ⟨p, hp, hr⟩ := Except.bind_eq_ok.mp hs
  cases hr
  have := Trace.passes ht h hsv hp
  exact ⟨⟨this.inv.withLeaf, this.subscribed, this.objects, this.ext, this.empty, this.null⟩, rfl⟩

-- Between two steps the terminals of the library user are those of the leaf. If `K` holds, the entries
-- of terminals that have been destroyed do not know any operations.
structure Tracked (K : Prop) (m : Id → Bool) (s : LeafLogic) : Prop where
  sound      : s.leaf.Sound m
  inv        : ScatterInv (s.leaf.view m) s
  subscribed : Subscribed (s.leaf.view m) s
  objects    : ∀ t tm, (s.terminals t).map (·.id) = some tm ↔ s.leaf.objectOf tm = some t
  hidden     : K → ∀ tm, s.leaf.objectOf tm = none → (s.terminalExt tm).scatterOperations = []
  lost       : K → s.leaf.connection = none → ∀ op, s.scatterOperations.get? op ≠ some none

-- The steps by which no ID of an operation is lost: a terminal is not destroyed while it has operations,
-- and the connection is not lost while an operation without a terminal awaits its end.
def Keeping (s : LeafLogic) : Action → Prop
  | .base (.terminalDestroyed _ tm) => (s.terminalExt tm).scatterOperations = []
  | .base .connectionDestroyed      => ∀ op, s.scatterOperations.get? op ≠ some none
  | _                               => True

theorem no_loose_operation_iff :
    some none ∉ (List.range (s.scatterOperations.lut.length + 1)).map s.scatterOperations.get? ↔
      ∀ op, s.scatterOperations.get? op ≠ some none := by
  constructor
  case mp =>
    intro h op hn
    refine h (List.mem_map.mpr ⟨op, List.mem_range.mpr ?_, hn⟩)
    simp only [ObjectRegister.get?] at hn
    split at hn
    case isTrue     => cases hn
    case isFalse hi =>
      have hlt := (List.getElem?_eq_some_iff.mp hn).choose
      omega
  case mpr =>
    intro h hm
    obtain ⟨op, _, hop⟩ := List.mem_map.mp hm
    exact h op hop

instance : Decidable (∀ op, s.scatterOperations.get? op ≠ some none) :=
  decidable_of_iff _ no_loose_operation_iff

instance {a : Action} : Decidable (Keeping s a) :=
  match a with
  | .base (.terminalDestroyed _ tm) =>
    inferInstanceAs (Decidable ((s.terminalExt tm).scatterOperations = []))
  | .base .connectionDestroyed      =>
    inferInstanceAs (Decidable (∀ op, s.scatterOperations.get? op ≠ some none))
  | .base (.connectionStarted _) | .base (.newTerminal _ _) | .base (.newBinding _ _)
  | .base (.bindingDestroyed _ _) | .base (.messageReceived _) | .call _ | .subscribeReceived _
  | .unsubscribeReceived _ | .scatterReceived _ _ _ _ | .gatherReceived _ _ _ _ => isTrue trivial

-- The register of the leaf, the entries of the terminals and the terminals know the same operations,
-- and there are none without a connection.
structure Agree (s : LeafLogic) : Prop where
  entries : ∀ op t, s.scatterOperations.get? op = some (some t) ↔
    ∃ tm, s.leaf.objectOf tm = some t ∧ op ∈ (s.terminalExt tm).scatterOperations
  tasks   : ∀ op t, s.scatterOperations.get? op = some (some t) ↔
    ∃ o, s.terminals t = some o ∧ op ∈ o.tasks.map Prod.fst
  owned   : ∀ tm e, s.leaf.terminals.get? tm = some e →
    (s.terminalExt tm).scatterOperations ≠ [] → e.data.terminal ≠ none
  lost    : s.leaf.connection = none → ∀ op, s.scatterOperations.get? op = none

namespace Tracked

theorem agree (h : Tracked True m s) : Agree s where
  entries := by
    intro op t
    constructor
    · intro hop
      obtain ⟨o, hpr⟩ := h.inv.owner hop
      exact ⟨o.id, Leaf.view_object ▸ hpr.right, (h.inv.ops hpr op).mpr hop⟩
    · rintro ⟨tm, ho, hop⟩
      obtain ⟨o, hot, hi⟩ := Option.map_eq_some_iff.mp ((h.objects t tm).mpr ho)
      subst hi
      exact (h.inv.ops ⟨hot, Leaf.view_object.trans ho⟩ op).mp hop
  tasks   := by
    intro op t
    constructor
    · intro hop
      obtain ⟨o, hpr⟩ := h.inv.owner hop
      exact ⟨o, hpr.left, (h.inv.tasks hpr op).mpr hop⟩
    · rintro ⟨o, ho, hop⟩
      have := (h.objects t o.id).mp (by simp [ho])
      exact (h.inv.tasks ⟨ho, Leaf.view_object.trans this⟩ op).mp hop
  owned   := by
    intro tm e hg hne hn
    exact hne (h.hidden trivial tm (by simp [Leaf.objectOf, hg, hn]))
  lost    := by
    intro hc op
    cases hop : s.scatterOperations.get? op
    case none => rfl
    case some x =>
      cases x
      case none   => exact absurd hop (h.lost trivial hc op)
      case some t =>
        -- without a connection no terminal is mapped
        obtain ⟨o, hpr⟩ := h.inv.owner hop
        have hm : m o.id = true := h.inv.mapped hpr
          (List.ne_nil_of_mem ((h.inv.ops hpr op).mpr hop))
        obtain ⟨e, hg, hh, _⟩ := h.sound.exists_visible (Leaf.view_object ▸ hpr.right)
        have hok := h.sound.inv.terminal hg
        rw [hok.reported hh, (hok.idle hc).right] at hm
        cases hm

theorem init : Tracked K m {} where
  sound      := Leaf.sound_init
  inv        := ⟨by simp, by simp [Proper], by simp [Proper], by simp [Proper], by simp, by simp [Proper]⟩
  subscribed := by simp [Subscribed]
  objects    := by simp [Leaf.objectOf]
  hidden     := fun _ _ _ => rfl
  lost       := by simp

theorem settled (h : Tracked K m s) : Settled (s.leaf.view m) s where
  inv        := h.inv
  subscribed := h.subscribed
  objects    := by
    intro t o ho
    rw [Leaf.view_object]
    exact (h.objects t o.id).mp (by simp [ho])

theorem keeps (h : Tracked K m s) (hk : Keeps (s.leaf.view m) s s')
    (hn : K → s.leaf.connection = none → ∀ op, s'.scatterOperations.get? op ≠ some none) :
    Tracked K m s' where
  sound      := hk.leaf ▸ h.sound
  inv        := hk.leaf ▸ hk.inv
  subscribed := by
    rw [hk.leaf]
    exact fun hv hs => h.subscribed hv (hk.subscribed ▸ hs)
  objects    := by
    intro t tm
    rw [hk.objects, hk.leaf]
    exact h.objects t tm
  hidden     := by
    intro hK tm htm
    rw [hk.leaf] at htm
    exact (hk.ext tm (Leaf.view_object.trans htm)).trans (h.hidden hK tm htm)
  lost       := hk.leaf ▸ hn

end Tracked

theorem onBase_cons {l : Leaf} {e : Leaf.Effect} {es : List Leaf.Effect} {r}
    (h : s.onBase (l, e :: es) = .ok r) :
    ∃ p q, onEffect s e = .ok p ∧ p.1.onBase (l, es) = .ok q ∧ r.1 = q.1 := by
  obtain ⟨f, hf, hr⟩ := Except.bind_eq_ok.mp h
  obtain ⟨p, q, hp, hq, he⟩ := forEach_cons.mp hf
  cases he
  cases hr
  exact ⟨p, ({ q.1 with leaf := l }, q.2), hp, by simp only [onBase, hq]; rfl, rfl⟩

-- Terminals come into being and cease to be without operations.

theorem ScatterInv.setTerminal_none (h : ScatterInv v s) (hn : ∀ tm, v.object tm ≠ some t) :
    ScatterInv v (s.setTerminal t none) := by
  have hp : ∀ {i o}, Proper v (s.setTerminal t none) i o → Proper v s i o := by
    rintro i o ⟨ho, hv⟩
    have hi : i ≠ t := fun hi => hn o.id (hi ▸ hv)
    exact ⟨(Function.update_of_ne hi ..).symm.trans ho, hv⟩
  constructor
  case same   =>
    intro i o tm ho hv
    have hi : i ≠ t := fun hi => hn tm (hi ▸ hv)
    exact h.same ((Function.update_of_ne hi ..).symm.trans ho) hv
  case tasks  => exact fun hpr => h.tasks (hp hpr)
  case ops    => exact fun hpr => h.ops (hp hpr)
  case nodup  => exact fun hpr => h.nodup (hp hpr)
  case owner  =>
    intro i op hop
    obtain ⟨o, ho, hv⟩ := h.owner hop
    have hi : i ≠ t := fun hi => hn o.id (hi ▸ hv)
    exact ⟨o, (Function.update_of_ne hi ..).trans ho, hv⟩
  case mapped => exact fun hpr => h.mapped (hp hpr)

theorem ScatterInv.setTerminal_new (h : ScatterInv v s) (hn : s.terminals t = none)
    (hv : ∀ i, v.object i = some t ↔ i = tm) (he : (s.terminalExt tm).scatterOperations = []) :
    ScatterInv v (s.setTerminal t (some { id := tm })) := by
  have ht : ∀ {i o}, (s.setTerminal t (some { id := tm })).terminals i = some o →
      i = t ∧ o = { id := tm } ∨ s.terminals i = some o := by
    intro i o ho
    simp only [setTerminal, Function.update_apply] at ho
    split at ho
    case isTrue hi  => exact .inl ⟨hi, (Option.some.inj ho).symm⟩
    case isFalse hi => exact .inr ho
  have hno : ∀ op, s.scatterOperations.get? op ≠ some (some t) := by
    intro op hop
    obtain ⟨o, ho, _⟩ := h.owner hop
    simp [hn] at ho
  constructor
  case same =>
    intro i o j ho hj
    cases ht ho
    case inl hi => exact hi.right ▸ ((hv j).mp (hi.left ▸ hj)).symm
    case inr hi => exact h.same hi hj
  case tasks =>
    intro i o hpr op
    cases ht hpr.left
    case inl hi => simpa [hi.left, hi.right, setTerminal] using hno op
    case inr hi => exact h.tasks ⟨hi, hpr.right⟩ op
  case ops =>
    intro i o hpr op
    cases ht hpr.left
    case inl hi => simpa [hi.left, hi.right, he, setTerminal] using hno op
    case inr hi => exact h.ops ⟨hi, hpr.right⟩ op
  case nodup =>
    intro i o hpr
    cases ht hpr.left
    case inl hi => simp [hi.right, he, setTerminal]
    case inr hi => exact h.nodup ⟨hi, hpr.right⟩
  case owner =>
    intro i op hop
    obtain ⟨o, ho, hi⟩ := h.owner hop
    have hit : i ≠ t := fun hit => hno op (hit ▸ hop)
    exact ⟨o, (Function.update_of_ne hit ..).trans ho, hi⟩
  case mapped =>
    intro i o hpr hne
    cases ht hpr.left
    case inl hi => simp [hi.right, he, setTerminal] at hne
    case inr hi => exact h.mapped ⟨hi, hpr.right⟩ hne

-- The entry of a terminal is made before the object of the library user knows its ID.
theorem ScatterInv.insertTerminal {i : Id} (h : ScatterInv v s) (hsv : Subscribed v s)
    (hnt : s.terminals t = none) (hio : v.object i = none) :
    ScatterInv ((v.setTerminal i (some (some t))).setMapped i false)
        ({ s with subscribed := Function.update s.subscribed i false }.setTerminalExt i {}) ∧
      Subscribed ((v.setTerminal i (some (some t))).setMapped i false)
        ({ s with subscribed := Function.update s.subscribed i false }.setTerminalExt i {}) := by
  let w := (v.setTerminal i (some (some t))).setMapped i false
  let s₁ := { s with subscribed := Function.update s.subscribed i false }.setTerminalExt i {}
  have hw : ∀ j, w.object j = if j = i then some t else v.object j := fun j => object_setTerminal
  have hp₁ : ∀ {u o}, Proper w s₁ u o → o.id ≠ i ∧ Proper v s u o := by
    intro u o hpr
    have hou := hpr.right
    rw [hw] at hou
    split at hou
    case isTrue hoi  =>
      have hou : s.terminals u = none := Option.some.inj hou ▸ hnt
      exact absurd (hou.symm.trans hpr.left) (by simp)
    case isFalse hoi => exact ⟨hoi, hpr.left, hou⟩
  have hext : ∀ j, j ≠ i → s₁.terminalExt j = s.terminalExt j := fun j hj => Function.update_of_ne hj ..
  refine ⟨?_, fun {j} hj hsb => ?_⟩
  · constructor
    case same =>
      intro u o j ho hj
      rw [hw] at hj
      split at hj
      case isTrue hji  =>
        have hou : s.terminals u = none := Option.some.inj hj ▸ hnt
        exact absurd (hou.symm.trans ho) (by simp)
      case isFalse hji => exact h.same ho hj
    case tasks => exact fun hpr => h.tasks (hp₁ hpr).right
    case ops =>
      intro u o hpr
      rw [hext _ (hp₁ hpr).left]
      exact h.ops (hp₁ hpr).right
    case nodup =>
      intro u o hpr
      rw [hext _ (hp₁ hpr).left]
      exact h.nodup (hp₁ hpr).right
    case owner =>
      intro u op hop
      obtain ⟨o, ho, hou⟩ := h.owner hop
      have hoi : o.id ≠ i := fun hoi => by simp [← hoi, hou] at hio
      exact ⟨o, ho, (hw _).trans ((if_neg hoi).trans hou)⟩
    case mapped =>
      intro u o hpr hne
      rw [hext _ (hp₁ hpr).left] at hne
      exact (Function.update_of_ne (hp₁ hpr).left ..).trans (h.mapped (hp₁ hpr).right hne)
  · cases Decidable.em (j = i)
    case inl hji => simp [setTerminalExt, hji] at hsb
    case inr hji =>
      have hj : w.object j ≠ none := hj
      rw [hw, if_neg hji] at hj
      have hsb : s.subscribed j = true := (Function.update_of_ne hji ..).symm.trans hsb
      exact (Function.update_of_ne hji ..).trans (hsv hj hsb)

-- The leaf has done what it was asked to do, and `v` is what inheriting classes see before that.
theorem tracked_of_runs {q : Leaf × List Leaf.Effect} {r} (hruns : Leaf.Runs m v q) (hv : v.Owned)
    (h : ScatterInv v s) (hsv : Subscribed v s)
    (hobj : ∀ t tm, (s.terminals t).map (·.id) = some tm ↔ v.object tm = some t)
    (hhid : K → ∀ tm, v.object tm = none → (s.terminalExt tm).scatterOperations = [])
    (hlost : K → v.connection = none → ∀ op, s.scatterOperations.get? op ≠ some none)
    (hs : s.onBase q = .ok r) : Tracked K (Leaf.reported m q.2) r.1 := by
  obtain ⟨hp, hl⟩ := onBase_passes hruns.trace h hsv hs
  have ho : ∀ tm, r.1.leaf.objectOf tm = v.object tm := fun tm => hl ▸ hruns.objectOf
  constructor
  case sound      => exact hl ▸ hruns.sound hv
  case inv        => exact hl ▸ hp.inv
  case subscribed => exact hl ▸ hp.subscribed
  case objects    =>
    intro t tm
    rw [hp.objects, ho]
    exact hobj t tm
  case hidden     =>
    intro hK tm htm
    rw [ho] at htm
    exact (hp.ext tm htm).trans (hhid hK tm htm)
  case lost       =>
    intro hK hc op hn
    exact hlost hK (hruns.connection.symm.trans (hl ▸ hc)) op ((hp.null op).mp hn)

-- Only operations that are known lose their terminal.
theorem call_null {c : Call} {r} (hs : s.call c = .ok r) {op : Id}
    (hn : r.1.scatterOperations.get? op = some none) : s.scatterOperations.get? op ≠ none := by
  have hsame : ∀ {s' : LeafLogic}, SameScatter s s' → s'.scatterOperations.get? op = some none →
      s.scatterOperations.get? op ≠ none := by
    intro s' h hn
    rw [← h.operations, hn]
    simp
  cases c <;> simp only [LeafLogic.call] at hs
  case asyncScatterGather t data buffer =>
    obtain ⟨⟨s₁, es, id⟩, hs₁, hs⟩ := Except.bind_eq_ok.mp hs
    cases id
    case none =>
      cases hs
      cases ScatterInv.sgScatter_none hs₁
      exact hsame (.refl s) hn
    case some id =>
      obtain ⟨o, _, hs⟩ := Except.bind_eq_ok.mp hs
      obtain ⟨_, _, hs⟩ := Except.bind_eq_ok.mp hs
      cases hs
      simp only [LeafLogic.sgScatter, Except.bind_eq_ok] at hs₁
      obtain ⟨_, _, info, _, hs₁⟩ := hs₁
      split at hs₁
      case isTrue  => cases hs₁
      case isFalse =>
        simp only [Except.bind_eq_ok] at hs₁
        obtain ⟨_, _, _, _, hs₁⟩ := hs₁
        cases hs₁
        simp only [setTerminal, setTerminalExt, ObjectRegister.get?_insert] at hn
        split at hn
        case isTrue  => cases hn
        case isFalse => simp [hn]
  case cancelScatterGather t id =>
    obtain ⟨⟨s₁, es, isCanceled⟩, hs₁, hs⟩ := Except.bind_eq_ok.mp hs
    cases isCanceled
    case false =>
      cases hs
      cases ScatterInv.sgCancel_false hs₁
      exact hsame (.refl s) hn
    case true =>
      obtain ⟨o, _, hs⟩ := Except.bind_eq_ok.mp hs
      obtain ⟨_, _, hs⟩ := Except.bind_eq_ok.mp hs
      cases hs
      simp only [sgCancelScatter, Except.bind_eq_ok] at hs₁
      obtain ⟨_, _, info, _, hs₁⟩ := hs₁
      split at hs₁
      case isTrue  => cases hs₁
      case isFalse =>
        obtain ⟨_, hop, hs₁⟩ := Except.bind_eq_ok.mp hs₁
        cases hs₁
        simp only [setTerminal, setTerminalExt, ObjectRegister.get?_set] at hn
        split at hn
        case isTrue hid => exact hid ▸ Option.isSome_iff_ne_none.mp (assert_ok hop)
        case isFalse    => simp [hn]
  case asyncReceiveScatteredMessage t buffer =>
    obtain ⟨o, ho, hs⟩ := Except.bind_eq_ok.mp hs
    split at hs <;> cases hs
    case isTrue  => exact hsame (.refl s) hn
    case isFalse => exact hsame (.reply (terminal!_ok ho)) hn
  case cancelReceiveScatteredMessage t =>
    obtain ⟨o, ho, hs⟩ := Except.bind_eq_ok.mp hs
    split at hs <;> cases hs
    case isTrue  => exact hsame (.reply (terminal!_ok ho)) hn
    case isFalse => exact hsame (.refl s) hn
  case respondToScatteredMessage => exact hsame (sgRespond_same hs) hn
  case ignoreScatteredMessage    => exact hsame (sgRespond_same hs) hn

namespace Tracked

theorem subscribe {b : Bool} {r} (h : Tracked K m s)
    (hb : b = true → ∃ e ∈ s.leaf.terminals.get? tm, e.data.fsm.isMapped = true)
    (hs : s.onSubscribe tm b = .ok r) : Tracked K m r.1 := by
  obtain ⟨_, _, hs⟩ := Except.bind_eq_ok.mp hs
  obtain ⟨e, he, hs⟩ := Except.bind_eq_ok.mp hs
  obtain ⟨_, _, hs⟩ := Except.bind_eq_ok.mp hs
  cases hs
  obtain ⟨hg, hi⟩ := leafTerminal!_ok he
  refine ⟨h.sound, ⟨h.inv.same, h.inv.tasks, h.inv.ops, h.inv.nodup, h.inv.owner, h.inv.mapped⟩,
    fun {i} hv hsb => ?_, h.objects, h.hidden, h.lost⟩
  simp only [Function.update_apply] at hsb
  split at hsb
  case isFalse    => exact h.subscribed hv hsb
  case isTrue hie =>
    -- a terminal that exists is mapped as its entry says
    obtain ⟨e', hg', hm⟩ := hb hsb
    obtain ⟨t, ht⟩ := Option.ne_none_iff_exists'.mp hv
    rw [Leaf.view_object, hie, hi] at ht
    obtain ⟨e'', hg'', hh, _⟩ := h.sound.exists_visible ht
    cases Option.some.inj (hg''.symm.trans hg')
    rw [hie, hi]
    exact ((h.sound.inv.terminal hg').reported hh).trans hm

theorem terminalDestroyed {i : Id} {r} (h : Tracked K m s) (ho : s.leaf.objectOf i = some t)
    (hb : i ∉ s.leaf.bound) (hk : K → (s.terminalExt i).scatterOperations = [])
    (hs : s.onTerminalDestroyed t i = .ok r) : ∃ m, Tracked K m r.1 := by
  obtain ⟨q, hq, hs⟩ := Except.bind_eq_ok.mp hs
  obtain ⟨p, hp, hs⟩ := Except.bind_eq_ok.mp hs
  obtain ⟨_, _, hs⟩ := Except.bind_eq_ok.mp hs
  cases hs
  obtain ⟨e, hg, hh, _⟩ := h.sound.exists_visible ho
  obtain ⟨l₁, es, hes, _, hruns⟩ := h.sound.inv.runs_terminalDestroyed hg hh hq
  rw [show q = (q.1, q.2) from rfl, hes] at hp
  obtain ⟨p₁, p₂, hp₁, hp₂, hpe⟩ := onBase_cons hp
  obtain ⟨o, hot, hi⟩ := Option.map_eq_some_iff.mp ((h.objects t i).mpr ho)
  subst hi
  have hpr : Proper (s.leaf.view m) s t o := ⟨hot, Leaf.view_object.trans ho⟩
  obtain ⟨hinv, hsub, hobj, hext, hget⟩ := onTerminalRemoved_inv (h.inv.withLeaf (l := l₁))
    h.subscribed h.sound.owned.distinct hpr hp₁
  obtain ⟨hpass, hl⟩ := onBase_passes hruns.trace hinv hsub hp₂
  have hv : ∀ j, p₂.1.leaf.objectOf j = if j = o.id then none else s.leaf.objectOf j := by
    intro j
    rw [hl, hruns.objectOf, object_setTerminal, Leaf.view_object]
    rfl
  have hn : ∀ j, p₂.1.leaf.objectOf j ≠ some t := by
    intro j hj
    rw [hv] at hj
    split at hj
    case isTrue      => cases hj
    case isFalse hne =>
      exact hne (h.sound.owned.distinct _ _ _ (Leaf.view_object.trans hj) hpr.right)
  refine ⟨Leaf.reported m es, ?_⟩
  rw [hpe]
  constructor
  case sound =>
    exact hl ▸ hruns.sound (h.sound.owned.terminalDestroyed fun bd b hb' hi =>
      hb (Leaf.mem_bound.mpr ⟨bd, b, Leaf.view_bindings (m := m) ▸ hb', hi⟩))
  case inv =>
    refine ScatterInv.setTerminal_none (hl ▸ hpass.inv) fun j => ?_
    rw [Leaf.view_object]
    exact hn j
  case subscribed => exact hl ▸ hpass.subscribed
  case objects =>
    intro u j
    show ((Function.update p₂.1.terminals t none) u).map (·.id) = some j ↔ p₂.1.leaf.objectOf j = some u
    cases Decidable.em (u = t)
    case inl hu => simpa [hu] using hn j
    case inr hu =>
      rw [Function.update_of_ne hu, hpass.objects, hobj, hv]
      split
      case isFalse   => exact h.objects u j
      case isTrue hj =>
        refine iff_of_false (fun hu' => hu ?_) (by simp)
        have : s.leaf.objectOf j = some u := (h.objects u j).mp hu'
        exact (Option.some.inj (ho.symm.trans (hj ▸ this))).symm
  case hidden =>
    intro hK j hj
    have hj' : p₂.1.leaf.objectOf j = none := hj
    have hvj : ((s.leaf.view m).setTerminal o.id (some none)).object j = none :=
      hruns.objectOf.symm.trans (hl ▸ hj' : q.1.objectOf j = none)
    refine (hpass.ext j hvj).trans ((hext j).trans ?_)
    rw [hv] at hj'
    split at hj'
    case isTrue hjo => exact hjo ▸ hk hK
    case isFalse    => exact h.hidden hK j hj'
  case lost =>
    intro hK hc op hnull
    have hcs : s.leaf.connection = none := hruns.connection.symm.trans (hl ▸ hc)
    have := (hpass.null op).mp hnull
    rw [hget, hk hK] at this
    exact h.lost hK hcs op this

theorem act {a : Leaf.Action} {r} (h : Tracked K m s) (he : s.leaf.enabled a)
    (hk : K → Keeping s (.base a))
    (ha : ∀ t x, a ≠ .newTerminal t x) (hs : s.step (.base a) = .ok r) : ∃ m, Tracked K m r.1 := by
  have hobj : ∀ t tm, (s.terminals t).map (·.id) = some tm ↔ (s.leaf.view m).object tm = some t := by
    intro t tm
    rw [Leaf.view_object]
    exact h.objects t tm
  have hhid : K → ∀ tm, (s.leaf.view m).object tm = none →
      (s.terminalExt tm).scatterOperations = [] := by
    intro hK tm htm
    exact h.hidden hK tm (Leaf.view_object ▸ htm)
  cases a <;> simp only [Leaf.enabled] at he
  case newTerminal t x => exact absurd rfl (ha t x)
  case connectionStarted b =>
    obtain ⟨q, hq, hs⟩ := Except.bind_eq_ok.mp hs
    exact ⟨_, tracked_of_runs (h.sound.inv.runs_connectionStarted he hq)
      ⟨h.sound.owned.owned, h.sound.owned.distinct⟩ (h.inv.view (fun _ => rfl) fun _ _ => rfl)
      h.subscribed hobj hhid (by simp) hs⟩
  case connectionDestroyed =>
    obtain ⟨q, hq, hs⟩ := Except.bind_eq_ok.mp hs
    exact ⟨_, tracked_of_runs (h.sound.inv.runs_connectionDestroyed he hq)
      ⟨h.sound.owned.owned, h.sound.owned.distinct⟩ (h.inv.view (fun _ => rfl) fun _ _ => rfl)
      h.subscribed hobj hhid (fun hK _ => hk hK) hs⟩
  case messageReceived msg =>
    obtain ⟨q, hq, hs⟩ := Except.bind_eq_ok.mp hs
    exact ⟨_, tracked_of_runs (h.sound.inv.runs_message he.left he.right hq) h.sound.owned h.inv
      h.subscribed hobj hhid h.lost hs⟩
  case terminalDestroyed t i => exact h.terminalDestroyed he.left he.right hk hs
  case newBinding b x =>
    have hsame : SameScatter s (if (s.leaf.bindings.find? x).isNone then
        s.setBindingExt (s.leaf.onNewBinding b x).2.2 [] else s) := by
      split
      case isTrue  => exact .bindingExt
      case isFalse => exact .refl s
    have hk := h.inv.keeps hsame
    have hsub : Subscribed (s.leaf.view m) _ := fun hv hsb => h.subscribed hv (hsame.subscribed ▸ hsb)
    have ho : ∀ c ∈ [b], (s.leaf.view m).object c.terminal ≠ none := by simpa [Leaf.view_object] using he
    cases h.sound.inv.runs_newBinding (b := b) (x := x)
    case inl hn =>
      exact ⟨_, tracked_of_runs hn.2.2.2 (h.sound.owned.setGroup ho)
        (hk.inv.view (fun _ => rfl) fun _ _ => rfl) hsub
        (fun t tm => by rw [hk.objects]; exact hobj t tm)
        (fun hK tm htm => (hsame.ext tm).trans (hhid hK tm htm)) (hsame.operations ▸ h.lost) hs⟩
    case inr hn =>
      obtain ⟨e, hf, _, hruns⟩ := hn
      have hg := (Register.find?_eq_some_iff.mp hf).left
      refine ⟨_, tracked_of_runs hruns (h.sound.owned.setGroup fun c hc => ?_)
        (hk.inv.view (fun _ => rfl) fun _ _ => rfl) hsub
        (fun t tm => by rw [hk.objects]; exact hobj t tm)
        (fun hK tm htm => (hsame.ext tm).trans (hhid hK tm htm)) (hsame.operations ▸ h.lost) hs⟩
      cases List.mem_append.mp hc
      case inl hc => exact h.sound.owned.owned e.id c (by simp [LeafView.bindings, Leaf.view, hg, hc])
      case inr hc => exact ho c hc
  case bindingDestroyed b i =>
    obtain ⟨q, hq, hs⟩ := Except.bind_eq_ok.mp hs
    obtain ⟨e, hg, hb⟩ := Leaf.exists_group he
    obtain ⟨l₁, es, hes, _, hruns⟩ := h.sound.inv.runs_bindingDestroyed hg hb hq
    rw [show q = (q.1, q.2) from rfl, hes] at hs
    obtain ⟨p, p', hp, hp', hr⟩ := onBase_cons hs
    have hsame := onBindingRemoved_same hp
    have hk := (h.inv.withLeaf (l := l₁)).keeps hsame
    rw [hr]
    exact ⟨_, tracked_of_runs hruns (h.sound.owned.setGroup fun c hc => h.sound.owned.owned i c
        (by simp [LeafView.bindings, Leaf.view, hg, List.mem_of_mem_erase hc]))
      (hk.inv.view (fun _ => rfl) fun _ _ => rfl)
      (fun hv hsb => h.subscribed hv (hsame.subscribed ▸ hsb))
      (fun t tm => by rw [hk.objects]; exact hobj t tm)
      (fun hK tm htm => (hsame.ext tm).trans (hhid hK tm htm)) (hsame.operations ▸ h.lost) hp'⟩

theorem newTerminal {x : Identifier} {r} (h : Tracked K m s) (ht : t ∉ s.leaf.objects)
    (hs : s.onNewTerminal t x = .ok r) : ∃ m, Tracked K m r.1 := by
  obtain ⟨q, hq, hs⟩ := Except.bind_eq_ok.mp hs
  have hno : ∀ j, s.leaf.objectOf j ≠ some t := fun j hj => ht (Leaf.mem_objects.mpr ⟨j, hj⟩)
  have hnt : s.terminals t = none := by
    cases ho : s.terminals t
    case none   => rfl
    case some o => exact absurd ((h.objects t o.id).mp (by simp [ho])) (hno o.id)
  cases h.sound.inv.runs_newTerminal (t := t) (x := x)
  case inr hn =>
    -- the identifier is in use
    obtain ⟨hes, hv, hinv⟩ := hn
    rw [show (s.leaf.onNewTerminal t x).2.1 = [] from congrArg Prod.fst hes] at hq
    rw [show (s.leaf.onNewTerminal t x).2.2 = none from congrArg Prod.snd hes] at hs
    cases hq
    cases hs
    have hob : ∀ j, (s.leaf.onNewTerminal t x).1.objectOf j = s.leaf.objectOf j := by
      intro j
      rw [← Leaf.view_object (m := m), ← Leaf.view_object (m := m), hv]
    have hi : ScatterInv ((s.leaf.onNewTerminal t x).1.view m)
        { s with leaf := (s.leaf.onNewTerminal t x).1 } := hv ▸ h.inv.withLeaf
    have hsub : Subscribed ((s.leaf.onNewTerminal t x).1.view m)
        { s with leaf := (s.leaf.onNewTerminal t x).1 } := hv ▸ h.subscribed
    refine ⟨m, ⟨hinv, hv ▸ h.sound.owned⟩, hi, hsub, fun u j => ?_,
      fun hK j hj => h.hidden hK j ((hob j).symm.trans hj), fun hK hc => h.lost hK ?_⟩
    · exact (h.objects u j).trans (by rw [← hob])
    · exact (congrArg LeafView.connection hv.symm).trans hc
  case inl hn =>
    obtain ⟨i, hi, hvi, _, es, hes, hruns⟩ := hn
    rw [hi] at hs
    cases hs
    rw [hes] at hq
    obtain ⟨p, p', hp, hp', hqe⟩ := onBase_cons hq
    cases hp
    let v := ((s.leaf.view m).setTerminal i (some (some t))).setMapped i false
    have hio : (s.leaf.view m).object i = none := by simp [LeafView.object, hvi]
    have hv : ∀ j, v.object j = if j = i then some t else s.leaf.objectOf j := by
      intro j
      rw [← Leaf.view_object (m := m)]
      exact object_setTerminal
    let s₁ := { s with subscribed := Function.update s.subscribed i false }.setTerminalExt i {}
    have hext : ∀ j, j ≠ i → s₁.terminalExt j = s.terminalExt j := fun j hj => Function.update_of_ne hj ..
    have hext₀ : (s₁.terminalExt i).scatterOperations = [] := by simp [s₁, setTerminalExt]
    obtain ⟨hinv, hsub⟩ := h.inv.insertTerminal h.subscribed hnt hio
    rw [Leaf.view_object] at hio
    obtain ⟨hpass, hl⟩ := onBase_passes hruns.trace hinv hsub hp'
    have hob : ∀ j, p'.1.leaf.objectOf j = v.object j := fun j => hl ▸ hruns.objectOf
    have hpt : ∀ u, (p'.1.terminals u).map (·.id) = (s.terminals u).map (·.id) := hpass.objects
    refine ⟨Leaf.reported (Function.update m i false) es, ?_⟩
    rw [hqe]
    constructor
    case sound => exact hl ▸ hruns.sound (h.sound.owned.newTerminal fun j => Leaf.view_object ▸ hno j)
    case inv =>
      refine ScatterInv.setTerminal_new (hl ▸ hpass.inv) (by simpa [hnt] using hpt t) (fun j => ?_)
        (hpass.empty i hext₀)
      show (p'.1.leaf.view _).object j = some t ↔ j = i
      rw [Leaf.view_object, hob, hv]
      split
      case isTrue hji  => simpa using hji
      case isFalse hji => exact iff_of_false (hno j) hji
    case subscribed => exact hl ▸ hpass.subscribed
    case objects =>
      intro u j
      show ((Function.update p'.1.terminals t (some { id := i })) u).map (·.id) = some j ↔
        p'.1.leaf.objectOf j = some u
      rw [hob, hv]
      cases Decidable.em (u = t)
      case inl hu =>
        subst hu
        rw [Function.update_self, Option.map_some, Option.some.injEq]
        split
        case isTrue hji  => simpa using hji.symm
        case isFalse hji => exact iff_of_false (Ne.symm hji) (hno j)
      case inr hu =>
        rw [Function.update_of_ne hu, hpt, h.objects]
        split
        case isTrue hji  => simp [hji, hio, Ne.symm hu]
        case isFalse hji => rfl
    case hidden =>
      intro hK j hj
      have hvj : v.object j = none := (hob j).symm.trans hj
      refine (hpass.ext j hvj).trans ?_
      rw [hv] at hvj
      split at hvj
      case isTrue      => cases hvj
      case isFalse hji => exact (congrArg _ (hext j hji)).trans (h.hidden hK j hvj)
    case lost =>
      intro hK hc op hnull
      exact h.lost hK (hruns.connection.symm.trans (hl ▸ hc)) op ((hpass.null op).mp hnull)

theorem step {a : Action} {r} (h : Tracked K m s) (he : s.enabled a) (hk : K → Keeping s a)
    (hs : s.step a = .ok r) : ∃ m, Tracked K m r.1 := by
  cases a
  case base a =>
    cases a
    case newTerminal t x => exact h.newTerminal he.left hs
    all_goals exact h.act he.left hk (by simp) hs
  case call c =>
    have hcall := h.settled.call hs
    refine ⟨m, h.keeps hcall fun hK hc op hn => call_null hs hn ?_⟩
    have h : Tracked True m s := ⟨h.sound, h.inv, h.subscribed, h.objects, fun _ => h.hidden hK,
      fun _ => h.lost hK⟩
    exact h.agree.lost hc op
  case subscribeReceived   => exact ⟨m, h.subscribe (fun _ => he.right.right) hs⟩
  case unsubscribeReceived => exact ⟨m, h.subscribe (by simp) hs⟩
  case scatterReceived =>
    exact ⟨m, h.keeps (h.settled.onScatter hs) fun _ hc => absurd hc he.left⟩
  case gatherReceived =>
    exact ⟨m, h.keeps (h.inv.onGather hs) fun _ hc => absurd hc he.left⟩

end Tracked

-- A step that breaks the condition leaves something behind.

-- The entry of a terminal that is mapped outlives the terminal.
theorem exists_hidden {q : Leaf × List Leaf.Effect} {i : Id} (h : s.leaf.Sound m)
    (ho : s.leaf.objectOf i = some t) (hm : m i = true) (hq : s.leaf.onTerminalDestroyed t i = .ok q) :
    ∃ e, q.1.terminals.get? i = some e ∧ e.data.terminal = none := by
  obtain ⟨e, hg, hh, _⟩ := h.exists_visible ho
  cases Register.get?_id hg
  have hok := h.inv.terminal hg
  have hmapped := (hok.reported hh).symm.trans hm
  have hc : s.leaf.connection ≠ none := by
    intro hc
    rw [(hok.idle hc).right] at hmapped
    cases hmapped
  simp only [Leaf.onTerminalDestroyed, Leaf.terminal!, hg, Except.ok_bind,
    Option.isSome_iff_ne_none.mpr hc, if_true] at hq
  obtain ⟨out, hout, hq⟩ := Except.bind_eq_ok.mp hq
  cases hq
  have ha : out.alive = true := by
    cases hs : e.data.fsm.state <;> simp only [Fsm.isMapped, hs, reduceCtorEq] at hmapped <;>
      simp only [Fsm.processObjectDestroyed, hs] at hout <;> cases hout <;> rfl
  obtain ⟨_, _, ht, _⟩ := Leaf.evalTerminal_spec
    { s.leaf with terminals := s.leaf.terminals.modify e.id ({ · with terminal := none }) } e 0 out
  have := ht e.id
  simp only [if_true, ha, Register.get?_modify, hg, Option.map_some] at this
  exact ⟨_, (Register.get?_hide ..).trans ((if_pos rfl).trans (congrArg (Option.map _) this)), rfl⟩

namespace Tracked

theorem not_agree {a : Action} {r} (h : Tracked K m s) (he : s.enabled a) (hk : ¬Keeping s a)
    (hs : s.step a = .ok r) : ¬Agree r.1 := by
  intro hagree
  cases a
  case base a =>
    cases a
    case terminalDestroyed t i =>
      have ho := he.left.left
      obtain ⟨q, hq, hs⟩ := Except.bind_eq_ok.mp hs
      obtain ⟨p, hp, hs⟩ := Except.bind_eq_ok.mp hs
      obtain ⟨_, _, hs⟩ := Except.bind_eq_ok.mp hs
      cases hs
      obtain ⟨e, hg, hh, _⟩ := h.sound.exists_visible ho
      obtain ⟨l₁, es, hes, _, hruns⟩ := h.sound.inv.runs_terminalDestroyed hg hh hq
      rw [show q = (q.1, q.2) from rfl, hes] at hp
      obtain ⟨p₁, p₂, hp₁, hp₂, hpe⟩ := onBase_cons hp
      obtain ⟨o, hot, hi⟩ := Option.map_eq_some_iff.mp ((h.objects t i).mpr ho)
      subst hi
      have hpr : Proper (s.leaf.view m) s t o := ⟨hot, Leaf.view_object.trans ho⟩
      obtain ⟨hinv, hsub, _, hext, _⟩ := onTerminalRemoved_inv (h.inv.withLeaf (l := l₁))
        h.subscribed h.sound.owned.distinct hpr hp₁
      obtain ⟨hpass, hl⟩ := onBase_passes hruns.trace hinv hsub hp₂
      obtain ⟨e', hg', hn⟩ := exists_hidden h.sound ho (h.inv.mapped hpr hk) hq
      refine hagree.owned o.id e' ?_ ?_ hn
      · rw [hpe]
        exact hl ▸ hg'
      · rw [hpe]
        have hno : ((s.leaf.view m).setTerminal o.id (some none)).object o.id = none := by
          rw [object_setTerminal, if_pos rfl]
          rfl
        exact fun hnil => hk ((hext o.id).symm.trans ((hpass.ext o.id hno).symm.trans hnil))
    case connectionDestroyed =>
      obtain ⟨q, hq, hs⟩ := Except.bind_eq_ok.mp hs
      have hruns := h.sound.inv.runs_connectionDestroyed he.left hq
      obtain ⟨hpass, hl⟩ := onBase_passes hruns.trace (h.inv.view (fun _ => rfl) fun _ _ => rfl)
        h.subscribed hs
      refine hk fun op hn => ?_
      have := hagree.lost (hl ▸ hruns.connection) op
      rw [(hpass.null op).mpr hn] at this
      cases this
    all_goals exact hk trivial
  all_goals exact hk trivial

end Tracked

theorem tracked_of_reachable (h : (machine.restrict fun s a => K → Keeping s a).Reachable s) :
    ∃ m, Tracked K m s := by
  refine h.preserves (I := fun s => ∃ m, Tracked K m s) ?init ?step
  case init =>
    intro s hs
    exact ⟨fun _ => false, (hs : s = {}) ▸ Tracked.init⟩
  case step =>
    rintro s a s' ⟨m, hm⟩ he hs
    obtain ⟨r, hr, h⟩ := Except.map_eq_ok.mp hs
    cases h
    exact hm.step he.left he.right hr

instance : ∀ s a, Decidable ((machine.restrict Keeping).enabled s a) :=
  fun s a => inferInstanceAs (Decidable (machine.enabled s a ∧ Keeping s a))

-- A terminal that is connected to a binding of another leaf begins an operation.
def scattering : List Action :=
  [.base (.connectionStarted false), .base (.newTerminal 0 ⟨1, "a", false⟩),
    .base (.messageReceived (.bindingDescription ⟨1, "a", false⟩ 5)),
    .call (.asyncScatterGather 0 [7] 8)]

end Yogi.ScatterGather.LeafLogic
