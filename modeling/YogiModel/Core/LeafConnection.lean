import YogiModel.Core.LeafInvariant

namespace Yogi.Leaf

open Mapping

variable {l l' : Leaf} {i : Id} {x : Identifier} {s : Id → Bool} {b : Bool} {c : Option Bool}
  {B : Objs} {ba : List Message} {K K' : Key → Prop}

-- The loops over the elements of a register.

theorem forEach_cons {α : Type} {f : Leaf → Element α → Result} {e : Element α} {es : List (Element α)}
    {r t : Leaf × List Effect} (hf : f l e = .ok r) (hr : forEach f r.1 es = .ok t) :
    forEach f l (e :: es) = .ok (t.1, r.2 ++ t.2) := by
  simp only [forEach, hf, bind, Except.bind, hr]
  rfl

-- Changing an entry in the same way again makes no difference.
theorem map_ite_map {α : Type} {p q : Prop} [Decidable p] [Decidable q] {g : α → α} (hg : g ∘ g = g)
    (o : Option α) :
    (if q then (if p then o.map g else o).map g else if p then o.map g else o) =
      if p ∨ q then o.map g else o := by
  cases Decidable.em p <;> cases Decidable.em q <;> simp [*]

theorem forEach_evalTerminal {tms : List (Element TerminalInfo)}
    (hh : ∀ e ∈ tms, e.hidden = false) :
    ∃ l' es, forEach (fun l tm => do
        assert !tm.hidden
        return l.evalTerminal tm 0 (tm.data.fsm.reset b)) l tms = .ok (l', es) ∧
      l'.connection = l.connection ∧ l'.bindings = l.bindings ∧
      (∀ j, l'.terminals.get? j = if j ∈ tms.map (·.id) then
        (l.terminals.get? j).map (Element.modify ({ · with fsm := (Fsm.reset {} b).fsm }))
        else l.terminals.get? j) ∧
      Does l.connection es
        (if b then [] else tms.map fun e => .terminalDescription e.identifier e.id) id := by
  induction tms generalizing l
  case nil => exact ⟨l, [], rfl, rfl, rfl, by simp, by simpa using Does.nil⟩
  case cons tm tms ih =>
    obtain ⟨hc, hb, ht, hd⟩ := evalTerminal_spec l tm 0 (tm.data.fsm.reset b)
    obtain ⟨l', es, hr, hc', hb', ht', hd'⟩ := ih (l := (l.evalTerminal tm 0 (tm.data.fsm.reset b)).1)
      fun e he => hh e (List.mem_cons_of_mem _ he)
    refine ⟨l', _, forEach_cons ?_ hr, hc'.trans hc, hb'.trans hb, fun j => ?_, ?_⟩
    · simp only [hh tm List.mem_cons_self]
      rfl
    · have ht : (l.evalTerminal tm 0 (tm.data.fsm.reset b)).1.terminals.get? j = if j = tm.id then
          (l.terminals.get? j).map (Element.modify ({ · with fsm := (Fsm.reset {} b).fsm }))
          else l.terminals.get? j := by
        rw [ht]
        cases b <;> rfl
      rw [ht', ht]
      simpa only [List.map_cons, List.mem_cons] using map_ite_map rfl _
    · rw [hc] at hd'
      refine (hd.append hd').congr ?_ fun s => ?_
      · cases b <;> rfl
      · cases b <;> simp [Fsm.reset, Fsm.Call.mapped]

theorem forEach_evalBinding {bds : List (Element BindingInfo)}
    (hh : ∀ e ∈ bds, e.hidden = false) :
    ∃ l' es, forEach (fun l bd => do
        assert !bd.hidden
        return l.evalBinding bd 0 (bd.data.fsm.reset false)) l bds = .ok (l', es) ∧
      l'.connection = l.connection ∧ l'.terminals = l.terminals ∧
      (∀ j, l'.bindings.get? j = if j ∈ bds.map (·.id) then
        (l.bindings.get? j).map (Element.modify ({ · with fsm := { state := .unusedUnconfirmed } }))
        else l.bindings.get? j) ∧
      Does l.connection es (bds.map fun e => .bindingDescription e.identifier e.id) id := by
  induction bds generalizing l
  case nil => exact ⟨l, [], rfl, rfl, rfl, by simp, Does.nil⟩
  case cons bd bds ih =>
    obtain ⟨hc, ht, hb, hd⟩ := evalBinding_spec l bd 0 (bd.data.fsm.reset false)
    obtain ⟨l', es, hr, hc', ht', hb', hd'⟩ :=
      ih (l := (l.evalBinding bd 0 (bd.data.fsm.reset false)).1)
        fun e he => hh e (List.mem_cons_of_mem _ he)
    refine ⟨l', _, forEach_cons ?_ hr, hc'.trans hc, ht'.trans ht, fun j => ?_, ?_⟩
    · simp only [hh bd List.mem_cons_self]
      rfl
    · have hb : (l.evalBinding bd 0 (bd.data.fsm.reset false)).1.bindings.get? j = if j = bd.id then
          (l.bindings.get? j).map (Element.modify ({ · with fsm := { state := .unusedUnconfirmed } }))
          else l.bindings.get? j := by
        rw [hb]
        rfl
      rw [hb', hb]
      simpa only [List.map_cons, List.mem_cons] using map_ite_map rfl _
    · rw [hc] at hd'
      exact hd.append hd'

theorem forEach_updateBindingState (l : Leaf) (bds : List (Element BindingInfo)) :
    ∃ l' es, forEach (fun l bd => return l.updateBindingState bd.id false) l bds = .ok (l', es) ∧
      l'.connection = l.connection ∧ l'.terminals = l.terminals ∧
      (∀ j, l'.bindings.get? j = if j ∈ bds.map (·.id) then
        (l.bindings.get? j).map (Element.modify ({ · with established := false }))
        else l.bindings.get? j) ∧
      Does l.connection es [] id := by
  induction bds generalizing l
  case nil => exact ⟨l, [], rfl, rfl, rfl, by simp, Does.nil⟩
  case cons bd bds ih =>
    obtain ⟨hc, ht, hb, hd⟩ := updateBindingState_spec l bd.id false
    obtain ⟨l', es, hr, hc', ht', hb', hd'⟩ := ih (l := (l.updateBindingState bd.id false).1)
    refine ⟨l', _, forEach_cons rfl hr, hc'.trans hc, ht'.trans ht, fun j => ?_, ?_⟩
    · rw [hb', hb]
      simpa only [List.map_cons, List.mem_cons] using map_ite_map rfl _
    · rw [hc] at hd'
      exact hd.append hd'

-- The loop that resets the state machines of the terminals after the loss of the connection.
theorem forEach_resetTerminal {tms : List (Element TerminalInfo)}
    (hs : ∀ e ∈ tms, e.data.fsm.isMapped = false → s e.id = false) :
    ∃ l' es, forEach (fun l tm =>
        let l' := { l with
          terminals := l.terminals.modify tm.id fun d => { d with fsm := (d.fsm.reset true).fsm } }
        if tm.data.fsm.isMapped then
          return (l', [.call l' (.terminalMappingChanged false tm.id)])
        else
          return (l', [])) l tms = .ok (l', es) ∧
      l'.connection = l.connection ∧ l'.bindings = l.bindings ∧
      (∀ j, l'.terminals.get? j = if j ∈ tms.map (·.id) then
        (l.terminals.get? j).map (Element.modify ({ · with fsm := {} }))
        else l.terminals.get? j) ∧
      sent es = [] ∧ (∀ j, reported s es j = if j ∈ tms.map (·.id) then false else s j) ∧
      ∀ {l'' h}, .call l'' h ∈ es → l''.connection = l.connection := by
  induction tms generalizing l s
  case nil => exact ⟨l, [], rfl, rfl, rfl, by simp, rfl, fun _ => rfl, by simp⟩
  case cons tm tms ih =>
    let l₁ := { l with
      terminals := l.terminals.modify tm.id fun d => { d with fsm := (d.fsm.reset true).fsm } }
    have hs' : ∀ e ∈ tms, e.data.fsm.isMapped = false → Function.update s tm.id false e.id = false := by
      intro e he hm
      rw [Function.update_apply]
      split
      case isTrue  => rfl
      case isFalse => exact hs e (List.mem_cons_of_mem _ he) hm
    obtain ⟨l', es, hr, hc, hb, ht, hsn, hrp, hcl⟩ := ih (l := l₁) hs'
    have hd : Does l.connection (if tm.data.fsm.isMapped then
        [.call l₁ (.terminalMappingChanged false tm.id)] else []) []
        fun s => if tm.data.fsm.isMapped then Function.update s tm.id false else s := by
      split
      case isTrue  => exact Does.terminalMappingChanged false tm.id (by rfl)
      case isFalse => exact Does.nil
    have hu : reported s (if tm.data.fsm.isMapped then
        [.call l₁ (.terminalMappingChanged false tm.id)] else []) = Function.update s tm.id false := by
      rw [hd.reported]
      split
      case isTrue    => rfl
      case isFalse h =>
        rw [← hs tm List.mem_cons_self (Bool.not_eq_true _ ▸ h), Function.update_eq_self]
    refine ⟨l', (if tm.data.fsm.isMapped then
      [.call l₁ (.terminalMappingChanged false tm.id)] else []) ++ es,
      forEach_cons (r := (l₁, _)) ?_ hr, hc, hb, fun j => ?_, ?_, fun j => ?_, fun hm => ?_⟩
    · cases tm.data.fsm.isMapped <;> rfl
    · have ht' : l₁.terminals.get? j = if j = tm.id then
          (l.terminals.get? j).map (Element.modify fun d => { d with fsm := {} })
          else l.terminals.get? j := Register.get?_modify
      rw [ht, ht', List.map_cons]
      simpa only [List.mem_cons] using map_ite_map (g := Element.modify fun d : TerminalInfo => { d with fsm := {} }) rfl _
    · exact List.filterMap_append.trans (congrArg₂ _ hd.sent hsn)
    · rw [reported_append, hu, hrp, Function.update_apply]
      cases Decidable.em (j = tm.id) <;> cases Decidable.em (j ∈ tms.map (·.id)) <;> simp [*]
    · exact (List.mem_append.mp hm).elim hd.calls hcl

theorem get?_foldl_erase {α : Type} {r : Register α} {es : List (Element α)} {j : Id} :
    (es.foldl (·.erase ·.id) r).get? j = if j ∈ es.map (·.id) then none else r.get? j := by
  induction es generalizing r
  case nil => rfl
  case cons e es ih =>
    simp only [List.foldl_cons, ih, Register.get?_erase, List.map_cons, List.mem_cons]
    cases Decidable.em (j = e.id) <;> cases Decidable.em (j ∈ es.map (·.id)) <;> simp [*]

theorem mem_ids_elements {α : Type} {r : Register α} {j : Id} :
    j ∈ r.elements.map (·.id) ↔ ∃ e, r.get? j = some e := by
  simp only [List.mem_map, Register.mem_elements_iff]
  constructor
  · rintro ⟨e, he, rfl⟩
    exact ⟨e, he⟩
  · rintro ⟨e, he⟩
    cases Register.get?_id he
    exact ⟨e, he, rfl⟩

theorem get?_visible {α : Type} {r : Register α} {j : Id} :
    ((r.elements.filter (·.hidden)).foldl (·.erase ·.id) r).get? j =
      (r.get? j).filter (!·.hidden) := by
  rw [get?_foldl_erase]
  cases h : r.get? j
  case none => simp
  case some e =>
    cases Register.get?_id h
    cases hh : e.hidden
    case false =>
      have : e.id ∉ (r.elements.filter (·.hidden)).map (·.id) := by
        simp only [List.mem_map, List.mem_filter, Register.mem_elements_iff]
        rintro ⟨d, ⟨hd, hdh⟩, hi⟩
        rw [hi, h] at hd
        cases hd
        simp [hh] at hdh
      simp [Option.filter, this, hh]
    case true =>
      have : e.id ∈ (r.elements.filter (·.hidden)).map (·.id) :=
        List.mem_map.mpr ⟨e, List.mem_filter.mpr ⟨Register.mem_elements_iff.mpr h, hh⟩, rfl⟩
      simp [Option.filter, this, hh]

-- The entries that all elements of a register are changed to.
theorem get?_of_forall {α : Type} {r r' : Register α} {g : α → α}
    (h : ∀ j, r'.get? j =
      if j ∈ r.elements.map (·.id) then (r.get? j).map (Element.modify g) else r.get? j) {j} :
    r'.get? j = (r.get? j).map (Element.modify g) := by
  rw [h]
  split
  case isTrue  => rfl
  case isFalse hj =>
    cases he : r.get? j
    case none   => rfl
    case some e => exact absurd (mem_ids_elements.mpr ⟨e, he⟩) hj

-- The objects that are described when the connection is established.
def described {α : Type} (r : Role) (reg : Register α) : List (Key × Id) :=
  reg.elements.map fun e => ((r, e.identifier), e.id)

theorem mem_described {α : Type} {r r' : Role} {reg : Register α} :
    ((r, x), i) ∈ described r' reg ↔ r = r' ∧ ∃ e, reg.get? i = some e ∧ e.identifier = x := by
  simp only [described, List.mem_map, Prod.mk.injEq, Register.mem_elements_iff]
  constructor
  · rintro ⟨e, he, ⟨rfl, hx⟩, rfl⟩
    exact ⟨rfl, e, he, hx⟩
  · rintro ⟨rfl, e, he, hx⟩
    cases Register.get?_id he
    exact ⟨e, he, ⟨rfl, hx⟩, rfl⟩

theorem described_nodup {α : Type} {r : Role} {reg : Register α}
    (h : ∀ e ∈ reg.elements, e.hidden = false) : ((described r reg).map Prod.fst).Nodup := by
  have := (Register.elements_identifier_nodup h).map (f := Prod.mk r) fun _ _ he => by simpa using he
  simpa [described, Function.comp_def] using this

theorem mem_startDescribed {r : Role} {l : Leaf} :
    ((r, x), i) ∈ (if b then described .terminal l.terminals else []) ++
      described .binding l.bindings ↔
      (b = true ∧ r = .terminal ∧ ∃ e, l.terminals.get? i = some e ∧ e.identifier = x) ∨
        (r = .binding ∧ ∃ e, l.bindings.get? i = some e ∧ e.identifier = x) := by
  cases b <;> simp [mem_described]

-- The terminals that are there although they are not described.
def silents (l : Leaf) (b : Bool) (k : Key) : Bool :=
  !b && k.1 = .terminal && (l.terminals.find? k.2).isSome

def silentId (l : Leaf) (k : Key) : Id :=
  ((l.terminals.find? k.2).map (·.id)).getD 0

theorem objs_started
    (ht : ∀ j, l'.terminals.get? j = (l.terminals.get? j).map
      (Element.modify ({ · with fsm := (Fsm.reset {} !b).fsm })))
    (hb : ∀ j, l'.bindings.get? j = (l.bindings.get? j).map
      (Element.modify ({ · with fsm := { state := .unusedUnconfirmed } })))
    (hv : ∀ {i e}, l.terminals.get? i = some e → e.hidden = false) :
    l'.objs = fun k i => if (k, i) ∈ (if b then described .terminal l.terminals else []) ++
        described .binding l.bindings then some { state := .unusedUnconfirmed }
      else if l.silents b k then if i = l.silentId k then some {} else none else none := by
  funext ⟨r, x⟩ i
  cases Decidable.em (((r, x), i) ∈ (if b then described .terminal l.terminals else []) ++
    described .binding l.bindings)
  case inl hm =>
    rw [if_pos hm]
    cases mem_startDescribed.mp hm
    case inl hm =>
      obtain ⟨hb', hr, e, he, hx⟩ := hm
      simp [objs, hr, ht, he, hx, hb', Fsm.reset]
    case inr hm =>
      obtain ⟨hr, e, he, hx⟩ := hm
      simp [objs, hr, hb, he, hx]
  case inr hm =>
    rw [if_neg hm]
    have hm := mt mem_startDescribed.mpr hm
    split
    case isTrue hs =>
      simp only [silents, Bool.and_eq_true, Bool.not_eq_true', decide_eq_true_eq,
        Option.isSome_iff_exists] at hs
      obtain ⟨⟨hbf, hr⟩, d, hf⟩ := hs
      obtain ⟨hd, hx, _⟩ := Register.find?_eq_some_iff.mp hf
      have hid : l.silentId (r, x) = d.id := by simp [silentId, hf]
      subst hr
      split
      case isTrue hi => simp [objs, ht, hi, hid, hd, hx, hbf, Fsm.reset]
      case isFalse hi =>
        refine Option.eq_none_iff_forall_ne_some.mpr fun f hf' => ?_
        obtain ⟨e', he', hx', _⟩ := objs_terminal_eq_some.mp hf'
        rw [ht] at he'
        obtain ⟨e, he, hm⟩ := Option.map_eq_some_iff.mp he'
        have hxe : e.identifier = d.identifier := by rw [hx, ← hx', ← hm]; rfl
        have hvd := (Register.find?_eq_some_iff.mp hf).right.right
        exact hi ((Register.visible_unique he hd hxe (hv he) hvd).trans hid.symm)
    case isFalse hs =>
      refine Option.eq_none_iff_forall_ne_some.mpr fun f hf => ?_
      cases r
      case binding =>
        obtain ⟨e', he', hx', _⟩ := objs_binding_eq_some.mp hf
        rw [hb] at he'
        obtain ⟨e, he, hme⟩ := Option.map_eq_some_iff.mp he'
        exact hm (.inr ⟨rfl, e, he, by rw [← hx', ← hme]; rfl⟩)
      case terminal =>
        obtain ⟨e', he', hx', _⟩ := objs_terminal_eq_some.mp hf
        rw [ht] at he'
        obtain ⟨e, he, hme⟩ := Option.map_eq_some_iff.mp he'
        have hx : e.identifier = x := by rw [← hx', ← hme]; rfl
        cases hbb : b
        case true  => exact hm (.inl ⟨hbb, rfl, e, he, hx⟩)
        case false =>
          refine hs ?_
          have := Register.find?_of_get? he (hv he)
          simp [silents, hbb, ← hx, this]

-- A terminal that is not described is taken for granted by the protocol.
theorem Inv.onConnectionStarted (h : l.Inv s) (hc : l.connection = none)
    (hl : Linked (fun _ _ => none) B [] ba K K') (hK : b = false → ∀ k, k.1 = .terminal → K k)
    (hK' : b = false → ∀ k, K' k → k.1 = .terminal) :
    ∃ l' es, l.onConnectionStarted b = .ok (l', es) ∧
      Linked l'.objs B (sent es) ba Linked.none K' ∧ l'.Inv (reported s es) ∧
      l'.connection = some b ∧ ∀ {l'' h}, .call l'' h ∈ es → l''.connection = some b := by
  have hvt : ∀ e ∈ l.terminals.elements, e.hidden = false := fun e he =>
    ((h.terminal (Register.mem_elements_iff.mp he)).idle hc).left
  have hvb : ∀ e ∈ l.bindings.elements, e.hidden = false := fun e he =>
    ((h.binding (Register.mem_elements_iff.mp he)).idle hc).left
  obtain ⟨l₁, es, hr, hc₁, hb₁, ht₁, hd⟩ :=
    forEach_evalTerminal (l := { l with connection := some b }) (b := !b) hvt
  obtain ⟨l₂, es', hr', hc₂, ht₂, hb₂, hd'⟩ :=
    forEach_evalBinding (l := l₁) (hb₁ ▸ hvb)
  have hcn : l₂.connection = some b := hc₂.trans hc₁
  have ht : ∀ j, l₂.terminals.get? j = (l.terminals.get? j).map
      (Element.modify ({ · with fsm := (Fsm.reset {} !b).fsm })) :=
    fun j => by rw [ht₂, get?_of_forall ht₁]
  have hb : ∀ j, l₂.bindings.get? j = (l.bindings.get? j).map
      (Element.modify ({ · with fsm := { state := .unusedUnconfirmed } })) :=
    fun j => by rw [get?_of_forall hb₂, hb₁]
  have hdd := hd.append (hc₁ ▸ hd')
  refine ⟨l₂, es ++ es', ?_, ?_, ⟨fun {i e} he => ?_, fun {i e} he => ?_⟩, hcn, hdd.calls⟩
  · have hi : l.connection.isNone = true := by simp [hc]
    simp only [Leaf.onConnectionStarted, hi, assert, if_true, bind, Except.bind]
    erw [hr]
    simp only
    erw [hr']
    rfl
  · have hv : ∀ {i e}, l.terminals.get? i = some e → e.hidden = false := fun he =>
      ((h.terminal he).idle hc).left
    have hl := hl.silent (l.silents b) l.silentId
      (fun k hk => by simp [silents] at hk; exact hK hk.1.1 k hk.1.2)
      fun k hk => by
        cases hb : b
        case true  => simp [silents]
        case false => simp [silents, Key.flip, hK' hb k hk, Role.flip]
    have hm := Moves.describe (A := fun k i => if l.silents b k then
        if i = l.silentId k then some {} else none else none)
      ((if b then described .terminal l.terminals else []) ++ described .binding l.bindings)
      (by
        rw [List.map_append, List.nodup_append]
        refine ⟨?_, described_nodup hvb, fun k hk k' hk' => ?_⟩
        · cases b
          case false => exact List.nodup_nil
          case true  => exact described_nodup hvt
        · cases b <;> simp [described] at hk hk'
          obtain ⟨e, _, he⟩ := hk
          obtain ⟨e', _, he'⟩ := hk'
          simp [← he, ← he'])
      (fun k i hm => by
        obtain ⟨r, x⟩ := k
        cases mem_startDescribed.mp hm
        case inl h =>
          obtain ⟨_, _, e, he, _⟩ := h
          exact Register.get?_ne_zero he
        case inr h =>
          obtain ⟨_, e, he, _⟩ := h
          exact Register.get?_ne_zero he)
      (fun k i hm j => by
        obtain ⟨r, x⟩ := k
        cases mem_startDescribed.mp hm
        case inl h => simp [silents, h.left]
        case inr h => simp [silents, h.left])
    have hl := hl.moves hm
    rw [hdd.sent, objs_started ht hb hv]
    convert hl using 1
    simp only [described, List.nil_append, List.map_append, hb₁]
    cases b <;> simp [Role.message, Function.comp_def]
  · rw [ht] at he
    obtain ⟨d, hg, hd'⟩ := Option.map_eq_some_iff.mp he
    have hok := h.terminal hg
    have hi := hok.idle hc
    subst hd'
    rw [hdd.reported, hcn]
    have hrp := hok.reported hi.left
    rw [hi.right] at hrp
    refine ⟨?_, hok.object, fun _ => hrp.trans ?_, fun hn => by simp at hn, ?_⟩
    · simp only [Element.modify_hidden, hi.left]
      cases b <;> rfl
    · cases b <;> rfl
    · cases b <;> exact Int.le_refl 0
  · rw [hb] at he
    obtain ⟨d, hg, hd'⟩ := Option.map_eq_some_iff.mp he
    have hok := h.binding hg
    have hi := hok.idle hc
    subst hd'
    rw [hcn]
    exact ⟨hi.left.symm, hok.objects, fun _ _ => hi.right, fun hn => by simp at hn, Int.le_refl 0⟩

theorem Inv.onConnectionDestroyed (h : l.Inv s) (hc : l.connection ≠ none) :
    ∃ l' es, l.onConnectionDestroyed = .ok (l', es) ∧ l'.Inv (reported s es) ∧
      l'.connection = none ∧ sent es = [] ∧ ∀ {l'' h}, .call l'' h ∈ es → l''.connection = none := by
  let l₁ : Leaf := {
    connection := none
    terminals  := (l.terminals.elements.filter (·.hidden)).foldl (·.erase ·.id) l.terminals
    bindings   := (l.bindings.elements.filter (·.hidden)).foldl (·.erase ·.id) l.bindings }
  obtain ⟨l₂, es, hr, hc₂, ht₂, hb₂, hd⟩ := forEach_updateBindingState l₁ l₁.bindings.elements
  have hs : ∀ e ∈ l₂.terminals.elements, e.data.fsm.isMapped = false → s e.id = false := by
    intro e he hm
    have hg := Register.mem_elements_iff.mp he
    rw [ht₂] at hg
    simp only [l₁, get?_visible, Option.filter_eq_some_iff, Bool.not_eq_true'] at hg
    rw [(h.terminal hg.left).reported hg.right, hm]
  obtain ⟨l₃, es', hr', hc₃, hb₃, ht₃, hsn, hrp, hcl⟩ := forEach_resetTerminal (l := l₂) hs
  have hcn : l₃.connection = none := hc₃.trans hc₂
  refine ⟨l₃, es ++ es', ?_, ⟨fun {i e} he => ?_, fun {i e} he => ?_⟩, hcn, ?_, fun hm => ?_⟩
  · have hi : l.connection.isSome = true := Option.isSome_iff_ne_none.mpr hc
    simp only [Leaf.onConnectionDestroyed, hi, assert, if_true, bind, Except.bind]
    rw [show forEach (fun l bd => pure (l.updateBindingState bd.id false)) l₁ l₁.bindings.elements =
      .ok (l₂, es) from hr]
    simp only
    erw [hr']
    rfl
  · rw [get?_of_forall ht₃] at he
    obtain ⟨d, hg, hd'⟩ := Option.map_eq_some_iff.mp he
    have hrp := hrp i
    rw [if_pos (mem_ids_elements.mpr ⟨d, hg⟩)] at hrp
    rw [ht₂] at hg
    simp only [l₁, get?_visible, Option.filter_eq_some_iff, Bool.not_eq_true'] at hg
    have hok := h.terminal hg.left
    subst hd'
    refine ⟨hg.right.symm, hok.object, fun _ => ?_, fun _ => ⟨hg.right, rfl⟩, Int.le_refl 0⟩
    rw [reported_append, hd.reported]
    exact hrp
  · rw [hb₃, get?_of_forall hb₂] at he
    obtain ⟨d, hg, hd'⟩ := Option.map_eq_some_iff.mp he
    simp only [l₁, get?_visible, Option.filter_eq_some_iff, Bool.not_eq_true'] at hg
    have hok := h.binding hg.left
    subst hd'
    exact ⟨hok.hidden, hok.objects, fun _ hn => by simp [hcn] at hn, fun _ => ⟨hg.right, rfl⟩,
      hok.skip⟩
  · exact List.filterMap_append.trans (congrArg₂ _ hd.sent hsn)
  · cases List.mem_append.mp hm
    case inl hm => exact hd.calls hm
    case inr hm => exact (hcl hm).trans hc₂

end Yogi.Leaf
