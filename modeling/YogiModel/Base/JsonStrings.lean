import Mathlib
import YogiModel.Base.Json

namespace Json

-- A text that stands for itself between quotes.
def Clean (s : Text) : Prop :=
  ∀ c ∈ s, c ≠ '"' ∧ c ≠ '\\' ∧ ' ' ≤ c

instance (s : Text) : Decidable (Clean s) :=
  List.decidableBAll (fun c => c ≠ '"' ∧ c ≠ '\\' ∧ ' ' ≤ c) s

theorem literal_of_clean {s : Text} (h : Clean s) : Literal s s := by
  induction s
  case nil         => exact .nil
  case cons c s ih =>
    obtain ⟨hq, hb, hc⟩ := h c List.mem_cons_self
    exact .cons (.plain hq hb hc) (ih fun x hx => h x (List.mem_cons_of_mem c hx))

theorem derives_string {s : Text} (h : Clean s) : Derives (.tree (.leaf s)) ('"' :: s ++ ['"']) :=
  .string (literal_of_clean h)

-- Numbers and names are clean.
theorem clean_of_isNumber {w : Text} (h : isNumber w = true) : Clean w := by
  have hs : ∀ (q q' : NumberState) c, q.step c = some q' → c ≠ '"' ∧ c ≠ '\\' ∧ ' ' ≤ c := by
    intro q q' c h
    have hd : c.isDigit = true → c ≠ '"' ∧ c ≠ '\\' ∧ ' ' ≤ c := by
      intro hd
      simp only [Char.isDigit, Bool.and_eq_true, decide_eq_true_eq] at hd
      refine ⟨?_, ?_, ?_⟩
      · rintro rfl
        exact absurd hd (by decide)
      · rintro rfl
        exact absurd hd (by decide)
      · exact UInt32.le_trans (show (32 : UInt32) ≤ 48 by decide) hd.left
    have hc : c.isDigit = true ∨ c ∈ ['-', '+', '.', 'e', 'E', '0'] := by
      cases q <;> simp only [NumberState.step] at h <;> grind
    cases hc
    case inl hc => exact hd hc
    case inr hc =>
      simp only [List.mem_cons, List.not_mem_nil, or_false] at hc
      rcases hc with rfl | rfl | rfl | rfl | rfl | rfl <;> decide
  have hf : ∀ (w : Text) (q q' : NumberState), w.foldlM NumberState.step q = some q' → Clean w := by
    intro w
    induction w
    case nil         => exact fun _ _ _ _ h => by cases h
    case cons c w ih =>
      intro q q' h
      simp only [List.foldlM_cons, Option.bind_eq_bind, Option.bind_eq_some_iff] at h
      obtain ⟨q₁, h₁, h₂⟩ := h
      intro x hx
      cases List.mem_cons.mp hx
      case inl hx => exact hx ▸ hs q q₁ c h₁
      case inr hx => exact ih q₁ q' h₂ x hx
  simp only [isNumber, Option.any_eq_true] at h
  obtain ⟨q, hq, _⟩ := h
  exact hf w _ q hq

theorem clean_of_name {w : Text} (h : w ∈ names) : Clean w := by
  simp only [names, List.mem_cons, List.not_mem_nil, or_false] at h
  rcases h with rfl | rfl | rfl <;> decide

theorem Encodes.cases_clean {u : Text} {c} (h : Encodes u c) :
    (u = [c] ∧ c ≠ '"' ∧ c ≠ '\\' ∧ ' ' ≤ c) ∨ ('\\' ∈ u ∧ 1 < u.length) := by
  cases h
  case plain hq hb hc => exact .inl ⟨rfl, hq, hb, hc⟩
  all_goals exact .inr ⟨List.mem_cons_self, by simp⟩

-- A string that is not clean takes more characters than it has, one of them a backslash.
theorem Literal.cases_clean {l s : Text} (h : Literal l s) :
    (l = s ∧ Clean s) ∨ ('\\' ∈ l ∧ s.length < l.length) := by
  have hle : ∀ {l s : Text}, Literal l s → s.length ≤ l.length := by
    intro l s h
    induction h
    case nil => simp
    case cons hu _ ih =>
      obtain ⟨x, v, hx, _⟩ := hu.head
      simp only [hx, List.length_append, List.length_cons]
      omega
  induction h
  case nil => exact .inl ⟨rfl, fun _ h => by cases h⟩
  case cons u c w s hu hw ih =>
    have hl := hle hw
    cases hu.cases_clean
    case inr hu =>
      refine .inr ⟨List.mem_append_left w hu.left, ?_⟩
      simp only [List.length_append, List.length_cons]
      omega
    case inl hu =>
      obtain ⟨he, hc⟩ := hu
      subst he
      cases ih
      case inl ih =>
        obtain ⟨he, hs⟩ := ih
        subst he
        refine .inl ⟨rfl, ?_⟩
        intro x hx
        cases List.mem_cons.mp hx
        case inl hx => exact hx ▸ hc
        case inr hx => exact hs x hx
      case inr ih =>
        refine .inr ⟨List.mem_append_right [c] ih.left, ?_⟩
        simp only [List.length_append, List.length_cons, List.length_nil]
        omega

theorem hexDigit_range {c : Char} {n} (h : hexDigit c = some n) : c ≠ '"' ∧ ' ' ≤ c := by
  simp only [hexDigit] at h
  have hle : '0' ≤ c ∨ 'a' ≤ c ∨ 'A' ≤ c := by
    split at h
    case isTrue hc => exact .inl hc.left
    case isFalse =>
      split at h
      case isTrue hc => exact .inr (.inl hc.left)
      case isFalse =>
        split at h
        case isTrue hc => exact .inr (.inr hc.left)
        case isFalse   => cases h
  have hlt : '"' < c ∧ ' ' ≤ c := by
    rcases hle with hc | hc | hc <;>
      exact ⟨lt_of_lt_of_le (by decide) hc, le_trans (by decide) hc⟩
  refine ⟨?_, hlt.right⟩
  intro he
  subst he
  exact lt_irrefl _ hlt.left

theorem hex_range {a b c d : Char} {n} (h : hex a b c d = some n) :
    ∀ x ∈ ['\\', 'u', a, b, c, d], x ≠ '"' ∧ ' ' ≤ x := by
  simp only [hex, bind, Option.bind_eq_some_iff, pure] at h
  obtain ⟨_, ha, _, hb, _, hc, _, hd, _⟩ := h
  simp only [List.mem_cons, List.not_mem_nil, or_false, forall_eq_or_imp, forall_eq]
  exact ⟨by decide, by decide, hexDigit_range ha, hexDigit_range hb, hexDigit_range hc,
    hexDigit_range hd⟩

theorem hex_noQuote {a b c d : Char} {n} (h : hex a b c d = some n) :
    '"' ∉ ['\\', 'u', a, b, c, d] :=
  fun hm => (hex_range h _ hm).left rfl

-- Within a string there is no line break.
theorem Encodes.noControl {u : Text} {c} (h : Encodes u c) : ∀ x ∈ u, ' ' ≤ x := by
  intro x hx
  cases h
  case plain hc => exact List.mem_singleton.mp hx ▸ hc
  case escape e he =>
    cases List.mem_cons.mp hx
    case inl hx => exact hx ▸ by decide
    case inr hm =>
      have hm := List.mem_singleton.mp hm
      subst hm
      obtain ⟨l₁, l₂, hl, _⟩ := List.lookup_eq_some_iff.mp he
      have hm : (x, c) ∈ l₁ ++ (x, c) :: l₂ := List.mem_append_right l₁ List.mem_cons_self
      rw [← hl] at hm
      simp only [List.mem_cons, List.not_mem_nil, or_false, Prod.mk.injEq] at hm
      rcases hm with hm | hm | hm | hm | hm | hm | hm | hm <;> exact hm.left ▸ by decide
  case unicode hn _ _ => exact (hex_range hn x hx).right
  case surrogates a b c d n a' b' c' d' m hn hm _ _ =>
    have : x ∈ ['\\', 'u', a, b, c, d] ∨ x ∈ ['\\', 'u', a', b', c', d'] := by
      simpa [List.mem_cons, or_assoc] using hx
    cases this
    case inl h => exact (hex_range hn x h).right
    case inr h => exact (hex_range hm x h).right

theorem Literal.noControl {l s : Text} (h : Literal l s) : ∀ c ∈ l, ' ' ≤ c := by
  induction h
  case nil => exact fun _ h => by cases h
  case cons u c w s hu hw ih =>
    intro x hx
    cases List.mem_append.mp hx
    case inl hx => exact hu.noControl x hx
    case inr hx => exact ih x hx

-- Within a string every quote has a backslash before it.
theorem Literal.backslash_before_quote {l s : Text} (h : Literal l s) {x y}
    (hl : l = x ++ '"' :: y) : ∃ x', x = x' ++ ['\\'] := by
  induction h generalizing x
  case nil => simp at hl
  case cons u c w s hu hw ih =>
    cases List.append_eq_append_iff.mp hl
    case inl ha =>
      -- The quote is behind the first character.
      obtain ⟨a, hx, hw'⟩ := ha
      obtain ⟨x', hx'⟩ := ih hw'
      exact ⟨u ++ x', by rw [hx, hx', List.append_assoc]⟩
    case inr ha =>
      obtain ⟨a, hu', ha'⟩ := ha
      cases a
      case nil =>
        -- The next character begins with the quote.
        obtain ⟨x', hx'⟩ := ih (x := []) ha'.symm
        simp at hx'
      case cons b a =>
        cases ha'
        cases hu
        case plain hq hb hc =>
          cases x
          case nil =>
            simp only [List.nil_append, List.cons.injEq] at hu'
            exact absurd hu'.left hq
          case cons z x => simp at hu'
        case escape e he =>
          cases x
          case nil => cases hu'
          case cons z x =>
            simp only [List.cons_append, List.cons.injEq] at hu'
            obtain ⟨hz, hx⟩ := hu'
            cases x
            case nil => exact ⟨[], by simp [← hz]⟩
            case cons z' x => simp at hx
        case unicode a b c d n hn _ _ =>
          have hm : '"' ∈ ['\\', 'u', a, b, c, d] := hu' ▸ List.mem_append_right x List.mem_cons_self
          exact absurd hm (hex_noQuote hn)
        case surrogates a b c d n a' b' c' d' m hn hm _ _ =>
          have hq : '"' ∈ ['\\', 'u', a, b, c, d, '\\', 'u', a', b', c', d'] :=
            hu' ▸ List.mem_append_right x List.mem_cons_self
          have : '"' ∈ ['\\', 'u', a, b, c, d] ∨ '"' ∈ ['\\', 'u', a', b', c', d'] := by
            simpa [List.mem_cons, or_assoc] using hq
          cases this
          case inl h => exact absurd h (hex_noQuote hn)
          case inr h => exact absurd h (hex_noQuote hm)

-- The text occurs between quotes.
def Occurs (s w : Text) : Prop :=
  ∃ l, Literal l s ∧ ('"' :: l ++ ['"']) <:+: w

theorem Occurs.mono {s w w' : Text} (h : Occurs s w) (hw : w <:+: w') : Occurs s w' :=
  have ⟨l, hl, hi⟩ := h
  ⟨l, hl, hi.trans hw⟩

def Part.Has (s : Text) : Part → Prop
  | .tree t       => t.Has s
  | .entry _ e    => e.fst = s ∨ e.snd.Has s
  | .entries _ es => ∃ e ∈ es, e.fst = s ∨ e.snd.Has s

theorem clean_nil : Clean [] :=
  fun _ h => by cases h

-- The texts of a tree are found in the text that the tree was read from.
theorem Derives.clean_or_occurs {p : Part} {w s} (h : Derives p w) (hp : p.Has s) :
    Clean s ∨ Occurs s w := by
  induction h
  case name h =>
    have hs := Ptree.Has.eq_of_leaf hp
    exact .inl (hs ▸ clean_of_name h)
  case number h =>
    have hs := Ptree.Has.eq_of_leaf hp
    exact .inl (hs ▸ clean_of_isNumber h)
  case string w s' hl =>
    have hs := Ptree.Has.eq_of_leaf hp
    exact .inr ⟨w, hs ▸ hl, List.infix_refl _⟩
  case empty =>
    have hs := Ptree.Has.eq_of_leaf hp
    exact .inl (hs ▸ clean_nil)
  case group b es w _ ih =>
    have hw : w <:+: opening b :: w ++ [closing b] := ⟨[opening b], [closing b], rfl⟩
    cases hp
    case data         => exact .inl clean_nil
    case key t hm        => exact (ih ⟨(s, t), hm, .inl rfl⟩).imp_right fun h => h.mono hw
    case child k t ht hm => exact (ih ⟨(k, t), hm, .inr ht⟩).imp_right fun h => h.mono hw
  case element w₁ t w w₂ _ _ _ ih =>
    cases hp
    case inl hk => exact .inl (hk ▸ clean_nil)
    case inr ht => exact (ih ht).imp_right fun h => h.mono ⟨w₁, w₂, rfl⟩
  case member w₁ l k w₂ w₃ t w w₄ _ hl _ _ _ _ ih =>
    cases hp
    case inl hk =>
      exact .inr ⟨l, hk ▸ hl, w₁, w₂ ++ ':' :: w₃ ++ w ++ w₄, by simp⟩
    case inr ht =>
      refine (ih ht).imp_right fun h => h.mono ?_
      exact ⟨w₁ ++ '"' :: l ++ '"' :: w₂ ++ ':' :: w₃, w₄, by simp⟩
  case one e w _ ih =>
    obtain ⟨e', hm, he⟩ := hp
    exact ih (List.mem_singleton.mp hm ▸ he)
  case more b e es w w' _ _ ih ih' =>
    obtain ⟨e', hm, he⟩ := hp
    cases List.mem_cons.mp hm
    case inl h => exact (ih (h ▸ he)).imp_right fun h => h.mono ⟨[], ',' :: w', rfl⟩
    case inr h =>
      refine (ih' ⟨e', h, he⟩).imp_right fun h => h.mono ?_
      exact ⟨w ++ [','], [], by simp⟩

theorem infix_split {w l r : Text} {c} (h : w <:+: l ++ c :: r) (hc : c ∉ w) :
    w <:+: l ∨ w <:+: r := by
  induction l
  case nil =>
    cases List.infix_cons_iff.mp h
    case inr h => exact .inr h
    case inl h =>
      cases w
      case nil       => exact .inl (List.infix_refl [])
      case cons x w  => exact absurd ((List.cons_prefix_cons.mp h).left ▸ List.mem_cons_self) hc
  case cons y l ih =>
    cases List.infix_cons_iff.mp h
    case inr h => exact (ih h).imp_left fun h => h.trans (List.suffix_cons y l).isInfix
    case inl h =>
      have hp : y :: l <+: y :: (l ++ c :: r) := List.prefix_append (y :: l) (c :: r)
      cases List.prefix_or_prefix_of_prefix h hp
      case inl h => exact .inl h.isInfix
      case inr hl =>
        obtain ⟨a, ha⟩ := hl
        have hw : (y :: l) ++ a <+: (y :: l) ++ c :: r := ha ▸ h
        rw [List.prefix_append_right_inj] at hw
        cases a
        case nil      => exact .inl (by simp [← ha])
        case cons x a =>
          have hm : x ∈ w := ha ▸ List.mem_append_right (y :: l) List.mem_cons_self
          exact absurd ((List.cons_prefix_cons.mp hw).left ▸ hm) hc

end Json
