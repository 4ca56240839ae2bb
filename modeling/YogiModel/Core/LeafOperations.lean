import YogiModel.Core.LeafInvariant

namespace Yogi.Leaf

open Mapping

-- An operation of the library user.
structure Operates (l : Leaf) (s : Id → Bool) (l' : Leaf) (es : List Effect) : Prop where
  inv        : l'.Inv (reported s es)
  connection : l'.connection = l.connection
  calls      : ∀ {l'' h}, .call l'' h ∈ es → l''.connection = l.connection
  idle       : l.connection = none →
    sent es = [] ∧ ∀ {l'' b tm}, .call l'' (.terminalMappingChanged b tm) ∉ es
  moves      : l.connection ≠ none → Moves l.objs (sent es) l'.objs

variable {l l' : Leaf} {i : Id} {x : Identifier} {s : Id → Bool} {t : Nat} {b : Binding}

theorem objs_eq_none_of_terminals (h : l.terminals.get? i = none) :
    l.objs (.terminal, x) i = none := by
  simp [objs, h]

theorem objs_eq_none_of_bindings (h : l.bindings.get? i = none) :
    l.objs (.binding, x) i = none := by
  simp [objs, h]

-- The description of the new entry `e`, which has already been added.

theorem Inv.describe_terminal (l' : Leaf) (e : Element TerminalInfo) (h : l.Inv s)
    (hc : l'.connection = l.connection) (hn : l.connection ≠ none)
    (hb : ∀ j, l'.bindings.get? j = l.bindings.get? j)
    (ht : ∀ j, l'.terminals.get? j = if j = e.id then some e else l.terminals.get? j)
    (hi : l.terminals.get? e.id = none) (h0 : e.id ≠ 0) (hx : l.terminals.find? e.identifier = none)
    (hh : e.hidden = false) (he : e.data.terminal.isSome = true) (f : Fsm) :
    (l'.evalTerminal e 0 (f.reset false)).1.Inv (Function.update s e.id false) ∧
    (l'.evalTerminal e 0 (f.reset false)).1.connection = l.connection ∧
    Does l.connection (l'.evalTerminal e 0 (f.reset false)).2
      [.terminalDescription e.identifier e.id] id ∧
    Moves l.objs [.terminalDescription e.identifier e.id]
      (l'.evalTerminal e 0 (f.reset false)).1.objs := by
  obtain ⟨hc', hb', ht', hd⟩ := evalTerminal_spec l' e 0 (f.reset false)
  have ht : ∀ j, (l'.evalTerminal e 0 (f.reset false)).1.terminals.get? j =
      if j = e.id then some (e.modify ({ · with fsm := { state := .unusedUnconfirmed } }))
      else l.terminals.get? j := by
    intro j
    rw [ht', ht]
    split <;> simp [Fsm.reset]
  have hb : ∀ j, (l'.evalTerminal e 0 (f.reset false)).1.bindings.get? j = l.bindings.get? j :=
    fun j => hb' ▸ hb j
  refine ⟨?_, hc'.trans hc, ?_, ?_⟩
  · refine h.set_terminal (hc'.trans hc) hb ht fun d hd => ?_
    cases hd
    exact ⟨hh.symm, by simp [hh, he], fun _ => rfl, fun hc => absurd hc hn, Int.le_refl 0⟩
  · exact (hc ▸ hd).congr rfl fun s => Function.update_eq_self _ _
  · rw [objs_set_terminal (x := e.identifier) hb ht (by simp [hi]) (by simp)]
    exact Moves.create (fun j f => h.destroyed_of_find?_none_terminal hx)
      (objs_eq_none_of_terminals hi) h0

theorem Inv.describe_binding (l' : Leaf) (e : Element BindingInfo) (h : l.Inv s)
    (hc : l'.connection = l.connection) (hn : l.connection ≠ none)
    (ht : ∀ j, l'.terminals.get? j = l.terminals.get? j)
    (hb : ∀ j, l'.bindings.get? j = if j = e.id then some e else l.bindings.get? j)
    (hi : l.bindings.get? e.id = none) (h0 : e.id ≠ 0) (hx : l.bindings.find? e.identifier = none)
    (hh : e.hidden = false) (he : e.data.bindings ≠ []) (hest : e.data.established = false)
    (f : Fsm) :
    (l'.evalBinding e 0 (f.reset false)).1.Inv s ∧
    (l'.evalBinding e 0 (f.reset false)).1.connection = l.connection ∧
    Does l.connection (l'.evalBinding e 0 (f.reset false)).2
      [.bindingDescription e.identifier e.id] id ∧
    Moves l.objs [.bindingDescription e.identifier e.id]
      (l'.evalBinding e 0 (f.reset false)).1.objs := by
  obtain ⟨hc', ht', hb', hd⟩ := evalBinding_spec l' e 0 (f.reset false)
  have hb : ∀ j, (l'.evalBinding e 0 (f.reset false)).1.bindings.get? j =
      if j = e.id then some (e.modify ({ · with fsm := { state := .unusedUnconfirmed } }))
      else l.bindings.get? j := by
    intro j
    rw [hb', hb]
    split <;> simp [Fsm.reset, established]
  have ht : ∀ j, (l'.evalBinding e 0 (f.reset false)).1.terminals.get? j = l.terminals.get? j :=
    fun j => ht' ▸ ht j
  refine ⟨?_, hc'.trans hc, hc ▸ hd, ?_⟩
  · refine h.set_binding (hc'.trans hc) ht hb fun d hd => ?_
    cases hd
    exact ⟨hh.symm, by simp [hh, he], fun _ _ => hest, fun hc => absurd hc hn, Int.le_refl 0⟩
  · rw [objs_set_binding (x := e.identifier) ht hb (by simp [hi]) (by simp)]
    exact Moves.create (fun j f => h.destroyed_of_find?_none_binding hx)
      (objs_eq_none_of_bindings hi) h0

theorem Inv.onNewTerminal (h : l.Inv s) :
    Operates l s (l.onNewTerminal t x).1 (l.onNewTerminal t x).2.1 := by
  cases hf : l.terminals.find? x
  case some e =>
    obtain ⟨hi, hg⟩ := Register.insert_of_find?_some (d := ({} : TerminalInfo)) hf
    have hl : l.onNewTerminal t x =
        ({ l with terminals := (l.terminals.insert x {}).1 }, [], none) := by
      simp [Leaf.onNewTerminal, hi]
    have ho : ({ l with terminals := (l.terminals.insert x {}).1 } : Leaf).objs = l.objs :=
      objs_congr (fun j => congrArg _ (hg j)) fun j => rfl
    rw [hl]
    exact ⟨⟨fun he => h.terminal (hg _ ▸ he), h.binding⟩, rfl, by simp, fun _ => ⟨rfl, by simp⟩,
      fun _ => ho ▸ Moves.refl⟩
  case none =>
    obtain ⟨hins, h0, hn, hg⟩ := Register.insert_of_find?_none (d := ({} : TerminalInfo)) hf
    cases hr : l.terminals.insert x {}
    case mk tms p =>
    cases p
    case mk i ins =>
    simp only [hr] at hins h0 hn hg
    have hm : ∀ j, (tms.modify i ({ · with terminal := some t })).get? j =
        if j = i then some ⟨x, i, false, { terminal := some t }⟩ else l.terminals.get? j := by
      intro j
      rw [Register.get?_modify, hg]
      split <;> rfl
    cases hc : l.connection
    case none =>
      have hl : l.onNewTerminal t x =
          ({ l with terminals := tms.modify i ({ · with terminal := some t }) },
            [.terminalInserted i], some i) := by
        simp [Leaf.onNewTerminal, hr, hins, hc]
      rw [hl]
      refine ⟨?_, rfl, by simp, fun _ => ⟨rfl, by simp⟩, fun hn => absurd hc hn⟩
      rw [(Does.inserted (c := none) i).reported]
      exact h.set_terminal rfl (fun _ => rfl) hm fun e he => by
        cases he
        exact ⟨rfl, rfl, fun _ => rfl, fun _ => ⟨rfl, rfl⟩, Int.le_refl 0⟩
    case some c =>
      have hnc : l.connection ≠ none := by simp [hc]
      obtain ⟨hinv, hc', hd, hmv⟩ := h.describe_terminal
        { l with terminals := tms.modify i ({ · with terminal := some t }) }
        ⟨x, i, false, { terminal := some t }⟩ rfl hnc (fun _ => rfl) hm hn h0 hf rfl rfl {}
      have hd := Does.cons (Does.inserted i) hd
      have hl : l.onNewTerminal t x =
          (({ l with terminals := tms.modify i ({ · with terminal := some t }) }.evalTerminal
              ⟨x, i, false, { terminal := some t }⟩ 0 (Fsm.reset {} false)).1,
            .terminalInserted i :: ({ l with
              terminals := tms.modify i ({ · with terminal := some t }) }.evalTerminal
              ⟨x, i, false, { terminal := some t }⟩ 0 (Fsm.reset {} false)).2, some i) := by
        simp [Leaf.onNewTerminal, hr, hins, hc, hm]
      rw [hl]
      refine ⟨?_, hc', hd.calls, fun hn => absurd hn hnc, fun _ => ?_⟩
      · rw [hd.reported]
        exact hinv
      · rw [hd.sent]
        exact hmv

theorem Inv.onTerminalDestroyed (h : l.Inv s) {e : Element TerminalInfo}
    (hg : l.terminals.get? i = some e) (hh : e.hidden = false) :
    ∃ l' es, l.onTerminalDestroyed t i = .ok (l', es) ∧ Operates l s l' es := by
  cases Register.get?_id hg
  have hok := h.terminal hg
  let l₁ := { l with terminals := l.terminals.modify e.id ({ · with terminal := none }) }
  have hg₁ : ∀ j, l₁.terminals.get? j = if j = e.id then
      some (e.modify ({ · with terminal := none })) else l.terminals.get? j := by
    intro j
    simp only [l₁, Register.get?_modify]
    split <;> simp_all
  have hrem := Does.terminalRemoved t e.id (show l₁.connection = l.connection by rfl)
  cases hc : l.connection
  case none =>
    refine ⟨{ l₁ with terminals := l₁.terminals.erase e.id },
      [.call l₁ (.terminalRemoved t e.id)], ?_, ?_, rfl, hrem.calls, fun _ => ⟨rfl, by simp⟩,
      fun hn => absurd hc hn⟩
    · have hn : l.connection.isSome = false := by simp [hc]
      simp only [Leaf.onTerminalDestroyed, terminal!, hg, hn, bind, Except.bind]
      rfl
    · rw [hrem.reported, ← Function.update_eq_self e.id s]
      refine h.set_terminal (o := none) rfl (fun _ => rfl) (fun j => ?_) (by simp)
      simp only [Register.get?_erase, hg₁]
      split <;> rfl
  case some c =>
    obtain ⟨out, hout⟩ := Fsm.exists_processObjectDestroyed (hok.hidden.trans hh)
    obtain ⟨hc', hb', ht', hd⟩ := evalTerminal_spec l₁ e 0 out
    let l₂ := (l₁.evalTerminal e 0 out).1
    have ht : ∀ j, (l₂.terminals.hide e.id).get? j = if j = e.id then
        if out.alive then some ⟨e.identifier, e.id, true, { fsm := out.fsm, terminal := none }⟩
        else none else l.terminals.get? j := by
      intro j
      simp only [l₂, Register.get?_hide, ht', hg₁]
      repeat' split
      all_goals simp_all [Element.modify]
    have hb : ∀ j, l₂.bindings.get? j = l.bindings.get? j := fun j => congrArg (·.get? j) hb'
    have hd := Does.cons hrem hd
    refine ⟨{ l₂ with terminals := l₂.terminals.hide e.id }, _, ?_, ?_, hc', hd.calls,
      fun hn => by simp [hc] at hn, fun _ => ?_⟩
    · have hn : l.connection.isSome = true := by simp [hc]
      simp only [Leaf.onTerminalDestroyed, terminal!, hg, hn, if_true, bind, Except.bind, hout]
      rfl
    · rw [hd.reported]
      refine h.set_terminal hc' hb ht fun d hd => ?_
      split at hd
      case isFalse   => simp at hd
      case isTrue ha =>
        cases hd
        exact ⟨Fsm.destroyed_of_processObjectDestroyed hout ha, rfl, by simp,
          fun hn => by simp [hc] at hn, Fsm.skip_of_processObjectDestroyed hout ▸ hok.skip⟩
    · have ho : (if out.alive then some (⟨e.identifier, e.id, true, { fsm := out.fsm }⟩ :
          Element TerminalInfo) else none).map (·.data.fsm) = out.result := by
        cases ha : out.alive <;> simp [Fsm.Outcome.result, ha]
      have hobjs : ({ l₂ with terminals := l₂.terminals.hide e.id } : Leaf).objs = _ :=
        objs_set_terminal (x := e.identifier) hb ht (by simp [hg]) (by simp)
      rw [hd.sent, hobjs, ho]
      exact Moves.destroy (objs_terminal_eq_some.mpr ⟨e, hg, rfl, rfl⟩) (hok.hidden.trans hh) hout

theorem Inv.onNewBinding (h : l.Inv s) :
    Operates l s (l.onNewBinding b x).1 (l.onNewBinding b x).2.1 := by
  cases hf : l.bindings.find? x
  case some e =>
    obtain ⟨hi, hg⟩ := Register.insert_of_find?_some (d := ({} : BindingInfo)) hf
    obtain ⟨he, hx, hh⟩ := Register.find?_eq_some_iff.mp hf
    have hok := h.binding he
    cases hr : l.bindings.insert x {}
    case mk bds p =>
    cases p
    case mk i ins =>
    simp only [hr, Prod.mk.injEq] at hi hg
    have hne : e.data.bindings ≠ [] := by simp [hok.objects, hh]
    let e' := e.modify fun d => { d with bindings := d.bindings ++ [b] }
    let l' := { l with bindings := bds.modify i fun d => { d with bindings := d.bindings ++ [b] } }
    have hm : ∀ j, l'.bindings.get? j = if j = e.id then some e' else l.bindings.get? j := by
      intro j
      simp only [l', Register.get?_modify, hg, hi.left]
      split <;> simp_all [e']
    have hl : l.onNewBinding b x =
        (l', if e.data.established then [.publishState b true] else [], i) := by
      have hb : l'.bindings.get? i = some e' := by simp [hm, hi.left]
      simp only [Leaf.onNewBinding, hr]
      rw [show ((bds.modify i fun d => { d with bindings := d.bindings ++ [b] }).get? i) = some e'
        from hb]
      simp only [e', Element.modify_data, List.length_append, List.length_singleton,
        Nat.add_eq_right, List.length_eq_zero_iff, hne, and_false, if_false]
      cases Decidable.em (e.data.established = true)
      case inl he => simp only [he, if_true, l']
      case inr he => simp only [he, l']; rfl
    have hd : Does l.connection (if e.data.established then [.publishState b true] else []) [] id := by
      split
      case isTrue  => exact Does.publishState [b]
      case isFalse => exact Does.nil
    have ho : l'.objs = l.objs := objs_congr (fun _ => rfl) fun j => by
      rw [hm]
      split
      case isTrue hj  => simp [hj, he, e']
      case isFalse hj => rfl
    rw [hl]
    refine ⟨?_, rfl, hd.calls, fun _ => ⟨hd.sent, by split <;> simp⟩, fun _ => ?_⟩
    · rw [hd.reported]
      refine h.set_binding rfl (fun _ => rfl) hm fun d hd => ?_
      cases hd
      exact ⟨hok.hidden, by simp [e', hh], hok.reported, hok.idle, hok.skip⟩
    · rw [hd.sent]
      exact ho ▸ Moves.refl
  case none =>
    obtain ⟨hins, h0, hn, hg⟩ := Register.insert_of_find?_none (d := ({} : BindingInfo)) hf
    cases hr : l.bindings.insert x {}
    case mk bds p =>
    cases p
    case mk i ins =>
    simp only [hr] at hins h0 hn hg
    let l' := { l with bindings := bds.modify i fun d => { d with bindings := d.bindings ++ [b] } }
    have hm : ∀ j, l'.bindings.get? j =
        if j = i then some ⟨x, i, false, { bindings := [b] }⟩ else l.bindings.get? j := by
      intro j
      simp only [l', Register.get?_modify, hg]
      split <;> rfl
    have hb : (bds.modify i fun d => { d with bindings := d.bindings ++ [b] }).get? i =
        some ⟨x, i, false, { bindings := [b] }⟩ := (hm i).trans (if_pos rfl)
    cases hc : l.connection
    case none =>
      have hl : l.onNewBinding b x = (l', [], i) := by
        simp [Leaf.onNewBinding, hr, hc, hb, l']
      rw [hl]
      refine ⟨?_, rfl, by simp, fun _ => ⟨rfl, by simp⟩, fun hn => absurd hc hn⟩
      refine h.set_binding rfl (fun _ => rfl) hm fun e he => ?_
      cases he
      exact ⟨rfl, by simp, fun _ _ => rfl, fun _ => ⟨rfl, rfl⟩, Int.le_refl 0⟩
    case some c =>
      have hnc : l.connection ≠ none := by simp [hc]
      obtain ⟨hinv, hc', hd, hmv⟩ := h.describe_binding l' ⟨x, i, false, { bindings := [b] }⟩ rfl hnc
        (fun _ => rfl) hm hn h0 hf rfl (by simp) rfl {}
      have hl : l.onNewBinding b x =
          ((l'.evalBinding ⟨x, i, false, { bindings := [b] }⟩ 0 (Fsm.reset {} false)).1,
            (l'.evalBinding ⟨x, i, false, { bindings := [b] }⟩ 0 (Fsm.reset {} false)).2, i) := by
        have hs : l.connection.isSome = true := by simp [hc]
        simp only [Leaf.onNewBinding, hr, hb]
        simp [hs, l']
      rw [hl]
      refine ⟨?_, hc', hd.calls, fun hn => absurd hn hnc, fun _ => ?_⟩
      · rw [hd.reported]
        exact hinv
      · rw [hd.sent]
        exact hmv

theorem Inv.onBindingDestroyed (h : l.Inv s) {e : Element BindingInfo}
    (hg : l.bindings.get? i = some e) (hb : b ∈ e.data.bindings) :
    ∃ l' es, l.onBindingDestroyed b i = .ok (l', es) ∧ Operates l s l' es := by
  cases Register.get?_id hg
  have hok := h.binding hg
  have hh : e.hidden = false := by
    have := mt hok.objects.mpr (List.ne_nil_of_mem hb)
    simpa using this
  let l₁ := { l with
    bindings := l.bindings.modify e.id fun d => { d with bindings := d.bindings.erase b } }
  have hg₁ : ∀ j, l₁.bindings.get? j = if j = e.id then
      some (e.modify fun d => { d with bindings := d.bindings.erase b })
      else l.bindings.get? j := by
    intro j
    simp only [l₁, Register.get?_modify]
    split <;> simp_all
  have hrem := Does.bindingRemoved b e.id (show l₁.connection = l.connection by rfl)
  cases Decidable.em (e.data.bindings.erase b = [])
  case inr hne =>
    refine ⟨l₁, [.call l₁ (.bindingRemoved b e.id)], ?_, ?_, rfl, hrem.calls, fun _ => ⟨rfl, by simp⟩,
      fun _ => ?_⟩
    · simp only [Leaf.onBindingDestroyed, binding!, hg, bind, Except.bind, hb, not_true_eq_false,
        if_false, hne, ne_eq, not_false_eq_true, if_true]
      rfl
    · rw [hrem.reported]
      refine h.set_binding rfl (fun _ => rfl) hg₁ fun d hd => ?_
      cases hd
      exact ⟨hok.hidden, by simp [hne, hh], hok.reported, hok.idle, hok.skip⟩
    · have ho : l₁.objs = l.objs := objs_congr (fun _ => rfl) fun j => by
        rw [hg₁]
        split
        case isTrue hj  => simp [hj, hg]
        case isFalse hj => rfl
      rw [hrem.sent]
      exact ho ▸ Moves.refl
  case inl he =>
    cases hc : l.connection
    case none =>
      refine ⟨{ l₁ with bindings := l₁.bindings.erase e.id },
        [.call l₁ (.bindingRemoved b e.id)], ?_, ?_, rfl, hrem.calls, fun _ => ⟨rfl, by simp⟩,
        fun hn => absurd hc hn⟩
      · have hn : l.connection.isSome = false := by simp [hc]
        simp only [Leaf.onBindingDestroyed, binding!, hg, hn, bind, Except.bind, hb,
          not_true_eq_false, if_false, he, ne_eq]
        rfl
      · rw [hrem.reported]
        refine h.set_binding (i := e.id) (o := none) rfl (fun _ => rfl) (fun j => ?_) (by simp)
        simp only [Register.get?_erase, hg₁]
        split <;> rfl
    case some c =>
      obtain ⟨out, hout⟩ := Fsm.exists_processObjectDestroyed (hok.hidden.trans hh)
      obtain ⟨hc', ht', hb', hd⟩ := evalBinding_spec l₁ e 0 out
      let l₂ := (l₁.evalBinding e 0 out).1
      let o := if out.alive then some (⟨e.identifier, e.id, true,
        { fsm         := out.fsm
          established := out.calls.foldl (established l.connection) e.data.established }⟩ :
            Element BindingInfo) else none
      have hbs : ∀ j, (l₂.bindings.hide e.id).get? j =
          if j = e.id then o else l.bindings.get? j := by
        intro j
        simp only [l₂, Register.get?_hide, hb', hg₁, o]
        repeat' split
        all_goals simp_all [Element.modify, l₁]
      have ht : ∀ j, l₂.terminals.get? j = l.terminals.get? j := fun j => congrArg (·.get? j) ht'
      have hd := Does.cons hrem hd
      refine ⟨{ l₂ with bindings := l₂.bindings.hide e.id }, _, ?_, ?_, hc', hd.calls,
        fun hn => by simp [hc] at hn, fun _ => ?_⟩
      · have hn : l.connection.isSome = true := by simp [hc]
        simp only [Leaf.onBindingDestroyed, binding!, hg, hn, if_true, bind, Except.bind, hout, hb,
          not_true_eq_false, if_false, he, ne_eq]
        rfl
      · rw [hd.reported]
        refine h.set_binding hc' ht hbs fun d hd => ?_
        simp only [o] at hd
        split at hd
        case isFalse   => simp at hd
        case isTrue ha =>
          cases hd
          exact ⟨Fsm.destroyed_of_processObjectDestroyed hout ha, by simp, by simp,
            fun hn => by simp [hc] at hn, Fsm.skip_of_processObjectDestroyed hout ▸ hok.skip⟩
      · have ho : o.map (·.data.fsm) = out.result := by
          cases ha : out.alive <;> simp [o, Fsm.Outcome.result, ha]
        have hobjs : ({ l₂ with bindings := l₂.bindings.hide e.id } : Leaf).objs = _ :=
          objs_set_binding (x := e.identifier) ht hbs (by simp [hg]) (by simp [o])
        rw [hd.sent, hobjs, ho]
        exact Moves.destroy (objs_binding_eq_some.mpr ⟨e, hg, rfl, rfl⟩) (hok.hidden.trans hh) hout

end Yogi.Leaf
