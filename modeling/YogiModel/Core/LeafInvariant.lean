import YogiModel.Core.LeafEndpoint

namespace Yogi.Leaf

open Mapping

-- What holds for the entries of a leaf with the connection `c`, `b` being what inheriting classes have
-- been told about the mapping state of a terminal.
structure TerminalOk (c : Option Bool) (b : Bool) (e : Element TerminalInfo) : Prop where
  hidden   : e.data.fsm.destroyed = e.hidden
  object   : e.data.terminal.isSome = !e.hidden
  reported : e.hidden = false → b = e.data.fsm.isMapped
  idle     : c = none → e.hidden = false ∧ e.data.fsm = {}
  skip     : 0 ≤ e.data.fsm.skipRemovedAcks

structure BindingOk (c : Option Bool) (e : Element BindingInfo) : Prop where
  hidden   : e.data.fsm.destroyed = e.hidden
  objects  : e.data.bindings = [] ↔ e.hidden = true
  reported : e.hidden = false → c = some false → e.data.established = e.data.fsm.isMapped
  idle     : c = none → e.hidden = false ∧ e.data.established = false
  skip     : 0 ≤ e.data.fsm.skipRemovedAcks

structure Inv (l : Leaf) (s : Id → Bool) : Prop where
  terminal : ∀ {i e}, l.terminals.get? i = some e → TerminalOk l.connection (s i) e
  binding  : ∀ {i e}, l.bindings.get? i = some e → BindingOk l.connection e

variable {l l' : Leaf} {i j : Id} {x : Identifier} {f : Fsm} {out : Fsm.Outcome}
  {s : Id → Bool} {B : Objs} {ab ba : List Message} {K : Key → Prop}

theorem inv_init : Inv {} s where
  terminal := by simp
  binding  := by simp

-- Changes of a single entry.

theorem objs_terminal_eq_some :
    l.objs (.terminal, x) i = some f ↔
      ∃ e, l.terminals.get? i = some e ∧ e.identifier = x ∧ e.data.fsm = f := by
  simp [objs, Option.bind_eq_some_iff]

theorem objs_binding_eq_some :
    l.objs (.binding, x) i = some f ↔
      ∃ e, l.bindings.get? i = some e ∧ e.identifier = x ∧ e.data.fsm = f := by
  simp [objs, Option.bind_eq_some_iff]

theorem objs_congr (ht : ∀ j, (l'.terminals.get? j).map (fun e => (e.identifier, e.data.fsm)) =
      (l.terminals.get? j).map fun e => (e.identifier, e.data.fsm))
    (hb : ∀ j, (l'.bindings.get? j).map (fun e => (e.identifier, e.data.fsm)) =
      (l.bindings.get? j).map fun e => (e.identifier, e.data.fsm)) : l'.objs = l.objs := by
  funext ⟨r, x⟩ j
  cases r
  case terminal =>
    have := ht j
    cases h : l.terminals.get? j <;> cases h' : l'.terminals.get? j <;> simp_all [objs]
  case binding =>
    have := hb j
    cases h : l.bindings.get? j <;> cases h' : l'.bindings.get? j <;> simp_all [objs]

theorem objs_set_terminal {o : Option (Element TerminalInfo)}
    (hb : ∀ j, (l'.bindings.get? j) = l.bindings.get? j)
    (ht : ∀ j, l'.terminals.get? j = if j = i then o else l.terminals.get? j)
    (hx : ∀ e, l.terminals.get? i = some e → e.identifier = x)
    (ho : ∀ e, o = some e → e.identifier = x) :
    l'.objs = l.objs.set (.terminal, x) i (o.map (·.data.fsm)) := by
  funext ⟨r, y⟩ j
  cases r
  case binding  => simp [objs, Objs.set_apply, hb]
  case terminal =>
    cases Decidable.em (j = i)
    case inr hj => simp [objs, Objs.set_apply, ht, hj]
    case inl hj =>
      subst hj
      simp only [objs, Objs.set_apply, ht j, if_true, Prod.mk.injEq, true_and, and_true]
      cases Decidable.em (y = x)
      case inl hy => cases o <;> simp_all
      case inr hy =>
        cases h : l.terminals.get? j <;> cases o <;> simp_all [Ne.symm hy]

theorem objs_set_binding {o : Option (Element BindingInfo)}
    (ht : ∀ j, (l'.terminals.get? j) = l.terminals.get? j)
    (hb : ∀ j, l'.bindings.get? j = if j = i then o else l.bindings.get? j)
    (hx : ∀ e, l.bindings.get? i = some e → e.identifier = x)
    (ho : ∀ e, o = some e → e.identifier = x) :
    l'.objs = l.objs.set (.binding, x) i (o.map (·.data.fsm)) := by
  funext ⟨r, y⟩ j
  cases r
  case terminal => simp [objs, Objs.set_apply, ht]
  case binding  =>
    cases Decidable.em (j = i)
    case inr hj => simp [objs, Objs.set_apply, hb, hj]
    case inl hj =>
      subst hj
      simp only [objs, Objs.set_apply, hb j, if_true, Prod.mk.injEq, true_and, and_true]
      cases Decidable.em (y = x)
      case inl hy => cases o <;> simp_all
      case inr hy =>
        cases h : l.bindings.get? j <;> cases o <;> simp_all [Ne.symm hy]

theorem Inv.set_terminal {o : Option (Element TerminalInfo)} {b : Bool} (h : l.Inv s)
    (hc : l'.connection = l.connection) (hb : ∀ j, l'.bindings.get? j = l.bindings.get? j)
    (ht : ∀ j, l'.terminals.get? j = if j = i then o else l.terminals.get? j)
    (ho : ∀ e, o = some e → TerminalOk l.connection b e) : l'.Inv (Function.update s i b) where
  terminal := by
    intro j e he
    rw [ht] at he
    rw [hc, Function.update_apply]
    split at he
    case isTrue hj  => simpa [hj] using ho e he
    case isFalse hj => simpa [hj] using h.terminal he
  binding  := by
    intro j e he
    rw [hb] at he
    exact hc ▸ h.binding he

theorem Inv.set_binding {o : Option (Element BindingInfo)} (h : l.Inv s)
    (hc : l'.connection = l.connection) (ht : ∀ j, l'.terminals.get? j = l.terminals.get? j)
    (hb : ∀ j, l'.bindings.get? j = if j = i then o else l.bindings.get? j)
    (ho : ∀ e, o = some e → BindingOk l.connection e) : l'.Inv s where
  terminal := by
    intro j e he
    rw [ht] at he
    exact hc ▸ h.terminal he
  binding  := by
    intro j e he
    rw [hb] at he
    rw [hc]
    split at he
    case isTrue  => exact ho e he
    case isFalse => exact h.binding he

theorem objs_evalTerminal {tm : Element TerminalInfo} (hg : l.terminals.get? tm.id = some tm) :
    (l.evalTerminal tm j out).1.objs = l.objs.set (.terminal, tm.identifier) tm.id out.result := by
  obtain ⟨_, hb, ht, _⟩ := evalTerminal_spec l tm j out
  have ho := objs_set_terminal (i := tm.id) (x := tm.identifier) (fun j => by rw [hb]) (l := l)
    (o := if out.alive then some (tm.modify ({ · with fsm := out.fsm })) else none)
    (fun j => by rw [ht]; split <;> simp_all) (by simp [hg]) (by simp)
  rw [ho]
  cases h : out.alive <;> simp [Fsm.Outcome.result, h]

theorem objs_evalBinding {bd : Element BindingInfo} (hg : l.bindings.get? bd.id = some bd) :
    (l.evalBinding bd j out).1.objs = l.objs.set (.binding, bd.identifier) bd.id out.result := by
  obtain ⟨_, ht, hb, _⟩ := evalBinding_spec l bd j out
  have ho := objs_set_binding (i := bd.id) (x := bd.identifier) (fun j => by rw [ht]) (l := l)
    (o := if out.alive then some (bd.modify fun d =>
      { d with
        fsm         := out.fsm
        established := out.calls.foldl (established l.connection) d.established }) else none)
    (fun j => by rw [hb]; split <;> simp_all) (by simp [hg]) (by simp)
  rw [ho]
  cases h : out.alive <;> simp [Fsm.Outcome.result, h]

theorem foldl_established {b : Bool} {cs : List Fsm.Call} :
    cs.foldl (established (some false)) b = cs.foldl Fsm.Call.mapped b := by
  congr
  funext b c
  cases c <;> simp [established, Fsm.Call.mapped]
  case mappStCh b => cases b <;> rfl

-- The transitions that are caused by messages.

theorem Inv.evalTerminal {tm : Element TerminalInfo} (h : l.Inv s)
    (hg : l.terminals.get? tm.id = some tm) (hc : l.connection ≠ none)
    (hf : tm.data.fsm.Faithful out) :
    (l.evalTerminal tm j out).1.Inv (reported s (l.evalTerminal tm j out).2) := by
  obtain ⟨hcn, hb, ht, hd⟩ := evalTerminal_spec l tm j out
  have htm := h.terminal hg
  rw [hd.reported]
  refine h.set_terminal hcn (fun j => by rw [hb])
    (o := if out.alive then some (tm.modify ({ · with fsm := out.fsm })) else none)
    (fun j => by rw [ht]; split <;> simp_all) fun e he => ?_
  split at he
  case isFalse => simp at he
  case isTrue ha =>
    cases he
    refine ⟨(hf.destroyed ha).trans htm.hidden, htm.object, fun hh => ?_, fun hn => absurd hn hc,
      hf.skip htm.skip⟩
    rw [htm.reported hh, hf.mapped]
    rfl

theorem Inv.evalBinding {bd : Element BindingInfo} (h : l.Inv s)
    (hg : l.bindings.get? bd.id = some bd) (hc : l.connection ≠ none)
    (hf : bd.data.fsm.Faithful out) :
    (l.evalBinding bd j out).1.Inv (reported s (l.evalBinding bd j out).2) := by
  obtain ⟨hcn, ht, hb, hd⟩ := evalBinding_spec l bd j out
  have hbd := h.binding hg
  rw [hd.reported]
  refine h.set_binding (i := bd.id) hcn (fun j => by rw [ht])
    (o := if out.alive then some (bd.modify fun d =>
      { d with
        fsm         := out.fsm
        established := out.calls.foldl (established l.connection) d.established }) else none)
    (fun j => by rw [hb]; split <;> simp_all) fun e he => ?_
  split at he
  case isFalse => simp at he
  case isTrue ha =>
    cases he
    refine ⟨(hf.destroyed ha).trans hbd.hidden, hbd.objects, fun hh hcf => ?_,
      fun hn => absurd hn hc, hf.skip hbd.skip⟩
    simp only [Element.modify_data]
    rw [hbd.reported hh hcf, hcf, foldl_established, hf.mapped]

-- The leaf deals with the first of the messages `m :: ba` it is to receive as the protocol says, `B` being
-- the objects of the remote endpoint and `ab` the messages to it.
def Reacts (l : Leaf) (s : Id → Bool) (B : Objs) (ab ba : List Message) (K : Key → Prop)
    (r : Result) : Prop :=
  ∃ l' es, r = .ok (l', es) ∧ Linked l'.objs B (ab ++ sent es) ba Linked.none K ∧
    l'.Inv (reported s es) ∧ l'.connection = l.connection ∧
    ∀ {l'' h}, .call l'' h ∈ es → l''.connection = l.connection

theorem Inv.reacts_terminal {tm : Element TerminalInfo} (h : l.Inv s)
    (hg : l.terminals.get? tm.id = some tm) (hc : l.connection ≠ none)
    (hf : tm.data.fsm.Faithful out)
    (hl : Linked (l.objs.set (.terminal, tm.identifier) tm.id out.result) B
      (ab ++ sends (.terminal, tm.identifier) tm.id j out) ba Linked.none K) :
    l.Reacts s B ab ba K (.ok (l.evalTerminal tm j out)) := by
  obtain ⟨hcn, _, _, hd⟩ := evalTerminal_spec l tm j out
  refine ⟨(l.evalTerminal tm j out).1, (l.evalTerminal tm j out).2, rfl, ?_,
    h.evalTerminal hg hc hf, hcn, hd.calls⟩
  rw [objs_evalTerminal hg, hd.sent]
  exact hl

theorem Inv.reacts_binding {bd : Element BindingInfo} (h : l.Inv s)
    (hg : l.bindings.get? bd.id = some bd) (hc : l.connection ≠ none)
    (hf : bd.data.fsm.Faithful out)
    (hl : Linked (l.objs.set (.binding, bd.identifier) bd.id out.result) B
      (ab ++ sends (.binding, bd.identifier) bd.id j out) ba Linked.none K) :
    l.Reacts s B ab ba K (.ok (l.evalBinding bd j out)) := by
  obtain ⟨hcn, _, _, hd⟩ := evalBinding_spec l bd j out
  refine ⟨(l.evalBinding bd j out).1, (l.evalBinding bd j out).2, rfl, ?_,
    h.evalBinding hg hc hf, hcn, hd.calls⟩
  rw [objs_evalBinding hg, hd.sent]
  exact hl

theorem Inv.reacts_send {m : Message} (h : l.Inv s)
    (hl : Linked l.objs B (ab ++ [m]) ba Linked.none K) :
    l.Reacts s B ab ba K (.ok (l, [.send m])) :=
  ⟨_, _, rfl, hl, h, rfl, by simp⟩

theorem Inv.destroyed_of_find?_none_terminal (h : l.Inv s) (hn : l.terminals.find? x = none)
    (hf : l.objs (.terminal, x) i = some f) : f.destroyed = true := by
  obtain ⟨e, hg, hx, he⟩ := objs_terminal_eq_some.mp hf
  rw [← he, (h.terminal hg).hidden]
  exact Register.find?_eq_none_iff.mp hn _ _ hg hx

theorem Inv.destroyed_of_find?_none_binding (h : l.Inv s) (hn : l.bindings.find? x = none)
    (hf : l.objs (.binding, x) i = some f) : f.destroyed = true := by
  obtain ⟨e, hg, hx, he⟩ := objs_binding_eq_some.mp hf
  rw [← he, (h.binding hg).hidden]
  exact Register.find?_eq_none_iff.mp hn _ _ hg hx

theorem Inv.reacts_terminalDescription (h : l.Inv s) (hc : l.connection ≠ none)
    (hl : Linked l.objs B ab (.terminalDescription x j :: ba) Linked.none K) :
    l.Reacts s B ab ba K (l.onTerminalDescription x j) := by
  simp only [onTerminalDescription]
  cases hb : l.bindings.find? x
  case none =>
    refine h.reacts_send ?_
    exact hl.rcvd_description_none (r := .binding) fun _ _ => h.destroyed_of_find?_none_binding hb
  case some bd =>
    obtain ⟨hg, hx, hh⟩ := Register.find?_eq_some_iff.mp hb
    subst hx
    obtain ⟨_, out, hout, hl'⟩ := hl.rcvd_description (r := .binding)
      (objs_binding_eq_some.mpr ⟨bd, hg, rfl, rfl⟩) ((h.binding hg).hidden.trans hh)
      (Register.get?_ne_zero hg)
    simp only [hout]
    exact h.reacts_binding hg hc (Fsm.faithful_description hout) hl'

theorem Inv.reacts_bindingDescription (h : l.Inv s) (hc : l.connection ≠ none)
    (hl : Linked l.objs B ab (.bindingDescription x j :: ba) Linked.none K) :
    l.Reacts s B ab ba K (l.onBindingDescription x j) := by
  simp only [onBindingDescription]
  cases ht : l.terminals.find? x
  case none =>
    refine h.reacts_send ?_
    exact hl.rcvd_description_none (r := .terminal) fun _ _ => h.destroyed_of_find?_none_terminal ht
  case some tm =>
    obtain ⟨hg, hx, hh⟩ := Register.find?_eq_some_iff.mp ht
    subst hx
    obtain ⟨_, out, hout, hl'⟩ := hl.rcvd_description (r := .terminal)
      (objs_terminal_eq_some.mpr ⟨tm, hg, rfl, rfl⟩) ((h.terminal hg).hidden.trans hh)
      (Register.get?_ne_zero hg)
    simp only [hout]
    exact h.reacts_terminal hg hc (Fsm.faithful_description hout) hl'

-- All other messages name an entry, whose state machine makes the transition `g`.

theorem Inv.reacts_terminal! {g : Fsm → Except Fault Fsm.Outcome} (h : l.Inv s)
    (hc : l.connection ≠ none) (hf : l.objs (.terminal, x) i = some f) (hg : g f = .ok out)
    (ho : f.Faithful out)
    (hl : Linked (l.objs.set (.terminal, x) i out.result) B (ab ++ sends (.terminal, x) i j out) ba
      Linked.none K) :
    l.Reacts s B ab ba K (do
      let tm ← l.terminal! i
      let out ← g tm.data.fsm
      return l.evalTerminal tm j out) := by
  obtain ⟨e, he, hx, hd⟩ := objs_terminal_eq_some.mp hf
  cases Register.get?_id he
  subst hx hd
  simp only [terminal!, he, bind, Except.bind, hg]
  exact h.reacts_terminal he hc ho hl

theorem Inv.reacts_binding! {g : Fsm → Except Fault Fsm.Outcome} (h : l.Inv s)
    (hc : l.connection ≠ none) (hf : l.objs (.binding, x) i = some f) (hg : g f = .ok out)
    (ho : f.Faithful out)
    (hl : Linked (l.objs.set (.binding, x) i out.result) B (ab ++ sends (.binding, x) i j out) ba
      Linked.none K) :
    l.Reacts s B ab ba K (do
      let bd ← l.binding! i
      let out ← g bd.data.fsm
      return l.evalBinding bd j out) := by
  obtain ⟨e, he, hx, hd⟩ := objs_binding_eq_some.mp hf
  cases Register.get?_id he
  subst hx hd
  simp only [binding!, he, bind, Except.bind, hg]
  exact h.reacts_binding he hc ho hl

theorem Inv.reacts (h : l.Inv s) (hc : l.connection ≠ none) {m : Message}
    (hl : Linked l.objs B ab (m :: ba) Linked.none K) :
    l.Reacts s B ab ba K (l.onMessageReceived m) := by
  obtain ⟨r, b, hm⟩ := hl.head_eq_message
  subst hm
  cases r <;> cases b <;> simp only [Role.message, onMessageReceived] at hl ⊢
  case terminal.desc => exact h.reacts_terminalDescription hc hl
  case binding.desc  => exact h.reacts_bindingDescription hc hl
  case binding.map   =>
    obtain ⟨x, f, out, hf, ho, hl'⟩ := hl.rcvd_mapping (r := .terminal)
    exact h.reacts_terminal! (g := (·.processRcvdMapping _)) hc hf ho (Fsm.faithful_mapping ho) hl'
  case terminal.map  =>
    obtain ⟨x, f, out, hf, ho, hl'⟩ := hl.rcvd_mapping (r := .binding)
    exact h.reacts_binding! (g := (·.processRcvdMapping _)) hc hf ho (Fsm.faithful_mapping ho) hl'
  case binding.noticed =>
    obtain ⟨x, f, out, hf, ho, hl'⟩ := hl.rcvd_noticed (r := .terminal)
    exact h.reacts_terminal! hc hf ho (Fsm.faithful_noticed ho) hl'
  case terminal.noticed =>
    obtain ⟨x, f, out, hf, ho, hl'⟩ := hl.rcvd_noticed (r := .binding)
    exact h.reacts_binding! hc hf ho (Fsm.faithful_noticed ho) hl'
  case binding.removed =>
    obtain ⟨x, f, out, hf, ho, hl'⟩ := hl.rcvd_removed (r := .terminal)
    exact h.reacts_terminal! hc hf ho (Fsm.faithful_removed ho) hl'
  case terminal.removed =>
    obtain ⟨x, f, out, hf, ho, hl'⟩ := hl.rcvd_removed (r := .binding)
    exact h.reacts_binding! hc hf ho (Fsm.faithful_removed ho) hl'
  case binding.ack =>
    obtain ⟨x, f, out, hf, ho, hl'⟩ := hl.rcvd_removedAck (r := .terminal)
    exact h.reacts_terminal! hc hf ho (Fsm.faithful_removedAck ho) hl'
  case terminal.ack =>
    obtain ⟨x, f, out, hf, ho, hl'⟩ := hl.rcvd_removedAck (r := .binding)
    exact h.reacts_binding! hc hf ho (Fsm.faithful_removedAck ho) hl'

end Yogi.Leaf
