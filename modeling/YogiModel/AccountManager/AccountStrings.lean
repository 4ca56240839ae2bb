import Mathlib
import YogiModel.Base.Except
import YogiModel.AccountManager.AccountsFile

namespace Yogi.AccountManager

namespace FileAccountProvider

open Json (Clean Literal Occurs)

variable {lib : PropertyTreeLibrary} {as bs : Accounts}

theorem mem_strings {s : Text} : s ∈ as.strings ↔ ∃ a ∈ as.entries, s ∈ a.strings :=
  List.mem_flatMap

-- The strings that have been loaded come from the file.

theorem has_of_getString {t : Ptree} {key s} (h : getString t key = .ok s) : t.Has s := by
  simp only [getString] at h
  split at h
  case h_1 c hc =>
    cases h
    exact Ptree.has_of_child hc Ptree.has_data
  case h_2 => cases h

theorem has_of_loadAccount {c : Text × Ptree} {a s} (h : loadAccount lib c = .ok a)
    (hs : s ∈ a.strings) : c.fst = s ∨ c.snd.Has s := by
  simp only [loadAccount] at h
  obtain ⟨password, hp, h₁⟩ := Except.bind_eq_ok.mp h
  obtain ⟨firstName, hf, h₂⟩ := Except.bind_eq_ok.mp h₁
  obtain ⟨lastName, hl, h₃⟩ := Except.bind_eq_ok.mp h₂
  obtain ⟨enabled, he, h₄⟩ := Except.bind_eq_ok.mp h₃
  obtain ⟨groupsChild, hg, h₅⟩ := Except.bind_eq_ok.mp h₄
  cases h₅
  simp only [Account.strings, insertAll, List.mem_cons, List.mem_dedup, List.mem_map] at hs
  rcases hs with hs | hs | hs | hs | ⟨e, hm, hs⟩
  · exact .inl hs.symm
  · exact .inr (hs ▸ has_of_getString hp)
  · exact .inr (hs ▸ has_of_getString hf)
  · exact .inr (hs ▸ has_of_getString hl)
  · simp only [getChild] at hg
    split at hg
    case h_1 c' hc =>
      cases hg
      have ht : groupsChild.Has s := by
        cases groupsChild
        exact .child hm (hs ▸ Ptree.has_data)
      exact .inr (Ptree.has_of_child hc ht)
    case h_2 => cases hg

theorem mem_of_loadAccounts {cs : List (Text × Ptree)} (h : loadAccounts lib cs as = .ok bs) :
    ∀ b ∈ bs.entries, b ∈ as.entries ∨ ∃ c ∈ cs, loadAccount lib c = .ok b := by
  induction cs generalizing as
  case nil =>
    cases h
    exact fun b hb => .inl hb
  case cons c cs ih =>
    obtain ⟨a, ha, hl⟩ := Except.bind_eq_ok.mp h
    intro b hb
    cases ih hl b hb
    case inl hm =>
      cases List.mem_cons.mp hm
      case inl he => exact .inr ⟨c, List.mem_cons_self, he ▸ ha⟩
      case inr hm => exact .inl (List.mem_filter.mp hm).left
    case inr hm =>
      obtain ⟨c', hc, hb⟩ := hm
      exact .inr ⟨c', List.mem_cons_of_mem c hc, hb⟩

theorem clean_or_occurs_of_load {file : Text} {s} (h : asyncLoadAccounts lib file = .ok bs)
    (hs : s ∈ bs.strings) : Clean s ∨ Occurs s file := by
  simp only [asyncLoadAccounts] at h
  split at h
  case h_1 => cases h
  case h_2 t ht =>
    obtain ⟨w₁, w, w₂, _, hw, _, he⟩ := (lib.conforming _ _).mp ht
    obtain ⟨b, hb, hsb⟩ := mem_strings.mp hs
    have hm := (mem_of_loadAccounts h b hb).resolve_left (by simp [Accounts.empty])
    obtain ⟨c, hc, hl⟩ := hm
    have hts : t.Has s := by
      cases t
      cases has_of_loadAccount hl hsb
      case inl hk =>
        subst hk
        exact .key hc
      case inr ht => exact .child hc ht
    exact (hw.clean_or_occurs hts).imp_right fun h => h.mono ⟨w₁, w₂, he.symm⟩

-- What a line of the file is part of.
inductive Template (as : Accounts) : Text → Prop
  | fixed {l} (h : '\\' ∉ l) : Template as l
  | string {a q b} (hq : q ∈ as.strings) (ha : '\\' ∉ a) (hb : '\\' ∉ b) (hn : '"' ∉ b) :
      Template as (a ++ ' ' :: '"' :: q ++ '"' :: b)

def Templated (as : Accounts) (line : Text) : Prop :=
  ∃ l, Template as l ∧ line <:+: l

theorem Template.templated {l : Text} (h : Template as l) : Templated as l :=
  ⟨l, h, List.infix_refl l⟩

theorem Templated.dropLast {l : Text} (h : Templated as l) : Templated as l.dropLast :=
  have ⟨l', hl, hi⟩ := h
  ⟨l', hl, (List.dropLast_prefix l).isInfix.trans hi⟩

theorem mem_popBack {ls : List Text} {l} (h : l ∈ popBack ls) :
    l ∈ ls ∨ ∃ l' ∈ ls, l = l'.dropLast := by
  cases List.eq_nil_or_concat' ls
  case inl hn =>
    subst hn
    cases h
  case inr hc =>
    obtain ⟨init, x, hx⟩ := hc
    rw [hx, popBack_concat] at h
    subst hx
    cases List.mem_append.mp h
    case inl h => exact .inl (List.mem_append_left [x] h)
    case inr h => exact .inr ⟨x, by simp, List.mem_singleton.mp h⟩

theorem templated_popBack {ls : List Text} (h : ∀ l ∈ ls, Templated as l) :
    ∀ l ∈ popBack ls, Templated as l := by
  intro l hl
  cases mem_popBack hl
  case inl hm => exact h l hm
  case inr hm =>
    obtain ⟨l', hl', he⟩ := hm
    exact he ▸ (h l' hl').dropLast

theorem templated_fixed {s : String} (h : '\\' ∉ s.toList) : Templated as (text s) :=
  Template.templated (.fixed (text_eq ▸ h))

theorem templated_string {q l : Text} (a b : String) (hq : q ∈ as.strings)
    (ha : '\\' ∉ a.toList) (hb : '\\' ∉ b.toList ∧ '"' ∉ b.toList)
    (hl : l = a.toList ++ ' ' :: '"' :: q ++ '"' :: b.toList) : Templated as l :=
  hl ▸ Template.templated (.string hq ha hb.left hb.right)

theorem templated_accountLines {a : Account} (ha : a ∈ as.entries) :
    ∀ l ∈ accountLines a, Templated as l := by
  have hm : ∀ s ∈ a.strings, s ∈ as.strings := fun s hs => mem_strings.mpr ⟨a, ha, hs⟩
  simp only [Account.strings, List.mem_cons, forall_eq_or_imp] at hm
  obtain ⟨hu, hp, hf, hln, hg⟩ := hm
  have hgs : ∀ l ∈ (sort a.groups).map groupLine, Templated as l := by
    intro l hl
    obtain ⟨g, hgm, he⟩ := List.mem_map.mp hl
    apply templated_string "     " "," (hg g (mem_sort.mp hgm)) (by decide) (by decide)
    simp [← he, groupLine, text_eq]
  have hgl : ∀ l ∈ groupLines (sort a.groups), Templated as l := by
    intro l hl
    simp only [groupLines] at hl
    split at hl
    case isTrue  => cases hl
    case isFalse => exact templated_popBack hgs l hl
  have hen : Templated as (text "    \"enabled\": " ++ text (if a.enabled then "true" else "false")
      ++ text ",") := by
    apply Template.templated (.fixed _)
    simp only [text_eq]
    cases a.enabled <;> decide
  rw [accountLines_eq, accountBody]
  intro l hl
  simp only [List.mem_append, List.mem_cons, List.not_mem_nil, or_false] at hl
  rcases hl with ((hl | hl | hl | hl | hl | hl) | hl | hl) | hl
  · apply templated_string " " ": \x7b" hu (by decide) (by decide)
    simp [hl, text_eq]
  · apply templated_string "    \"password\":" "," hp (by decide) (by decide)
    simp [hl, text_eq]
  · apply templated_string "    \"first-name\":" "," hf (by decide) (by decide)
    simp [hl, text_eq]
  · apply templated_string "    \"last-name\":" "," hln (by decide) (by decide)
    simp [hl, text_eq]
  · exact hl ▸ hen
  · exact hl ▸ templated_fixed (by decide)
  · exact hgl l hl
  · exact hl ▸ templated_fixed (by decide)
  · exact hl ▸ templated_fixed (by decide)

theorem templated_saveLines : ∀ l ∈ saveLines as, Templated as l := by
  have ha : ∀ l ∈ (saved as).flatMap accountLines, Templated as l := by
    intro l hl
    obtain ⟨a, hm, hl⟩ := List.mem_flatMap.mp hl
    exact templated_accountLines (mem_saved.mp hm) l hl
  have hs : ∀ l ∈ [text "\x7b"] ++ (saved as).flatMap accountLines, Templated as l := by
    intro l hl
    cases List.mem_append.mp hl
    case inl hl => exact List.mem_singleton.mp hl ▸ templated_fixed (by decide)
    case inr hl => exact ha l hl
  intro l hl
  simp only [saveLines, saved_lines] at hl
  cases List.mem_append.mp hl
  case inr hl => exact List.mem_singleton.mp hl ▸ templated_fixed (by decide)
  case inl hl =>
    split at hl
    case isTrue  => exact hs l hl
    case isFalse => exact templated_popBack hs l hl

theorem infix_line {w : Text} {ls : List Text}
    (h : w <:+: ls.flatMap fun line => line ++ ['\n']) (hw : w ≠ []) (hn : '\n' ∉ w) :
    ∃ l ∈ ls, w <:+: l := by
  induction ls
  case nil => exact absurd (List.eq_nil_of_infix_nil h) hw
  case cons l ls ih =>
    rw [List.flatMap_cons, List.append_assoc, List.singleton_append] at h
    cases Json.infix_split h hn
    case inl h => exact ⟨l, List.mem_cons_self, h⟩
    case inr h =>
      obtain ⟨l', hm, hi⟩ := ih h
      exact ⟨l', List.mem_cons_of_mem l hm, hi⟩

-- An escaped string does not begin before the quote that opens a string of an account.
theorem behind_opening {l s a r : Text} (h : Literal l s) (hl : '\\' ∈ l) (ha : '\\' ∉ a)
    (hi : ('"' :: l ++ ['"']) <:+: a ++ ' ' :: '"' :: r) : (l ++ ['"']) <:+: r := by
  have hs : (l ++ ['"']) <:+: '"' :: l ++ ['"'] := ⟨['"'], [], by simp⟩
  induction a
  case nil =>
    cases List.infix_cons_iff.mp hi
    case inl hp => exact absurd (List.cons_prefix_cons.mp hp).left (by decide)
    case inr hi =>
      cases List.infix_cons_iff.mp hi
      case inl hp => exact (List.cons_prefix_cons.mp hp).right.isInfix
      case inr hi => exact hs.trans hi
  case cons c a ih =>
    have ha' : '\\' ∉ a := fun hm => ha (List.mem_cons_of_mem c hm)
    cases List.infix_cons_iff.mp hi
    case inr hi => exact ih ha' hi
    case inl hp =>
      obtain ⟨y, he⟩ := (List.cons_prefix_cons.mp hp).right
      have he : l ++ '"' :: y = (a ++ [' ']) ++ '"' :: r := by simpa using he
      have hna : '\\' ∉ a ++ [' '] := by simp [ha']
      cases List.append_eq_append_iff.mp he
      case inl hx =>
        obtain ⟨f, hf, _⟩ := hx
        exact absurd (hf ▸ List.mem_append_left f hl) hna
      case inr hx =>
        obtain ⟨f, hf, hr⟩ := hx
        cases f
        case nil =>
          rw [List.append_nil] at hf
          exact absurd (hf ▸ hl) hna
        case cons d f =>
          -- The opening quote is within the string but no backslash is before it.
          have hd : '"' = d := (List.cons.inj hr).left
          subst hd
          obtain ⟨x, hx⟩ := h.backslash_before_quote hf
          have := congrArg List.getLast? hx
          simp at this

-- It ends before the quote that closes that string.
theorem before_closing {l q b : Text} (hb : '"' ∉ b) (hi : (l ++ ['"']) <:+: q ++ '"' :: b) :
    l <:+: q := by
  obtain ⟨x, y, he⟩ := hi
  have he : (x ++ l) ++ '"' :: y = q ++ '"' :: b := by simpa using he
  cases List.append_eq_append_iff.mp he
  case inl hx =>
    obtain ⟨f, hf, _⟩ := hx
    exact ⟨x, f, hf.symm⟩
  case inr hx =>
    obtain ⟨f, hf, hr⟩ := hx
    cases f
    case nil      => exact ⟨x, [], by simpa using hf⟩
    case cons d f =>
      have hm : '"' ∈ b := (List.cons.inj hr).right ▸ List.mem_append_right f List.mem_cons_self
      exact absurd hm hb

theorem longer_string {u : Text} (h : Occurs u (asyncSaveAccounts as)) (hu : ¬ Clean u) :
    ∃ q ∈ as.strings, ¬ Clean q ∧ u.length < q.length := by
  obtain ⟨l, hl, hi⟩ := h
  obtain ⟨hb, hlt⟩ := hl.cases_clean.resolve_left fun h => hu h.right
  have hne : '\n' ∉ '"' :: l ++ ['"'] := by
    intro hm
    have hm : '\n' ∈ l := by simpa using hm
    exact absurd (hl.noControl _ hm) (by decide)
  obtain ⟨line, hm, hi⟩ := infix_line hi (by simp) hne
  obtain ⟨l', ht, hi'⟩ := templated_saveLines line hm
  have hi := hi.trans hi'
  cases ht
  case fixed hf => exact absurd (hi.subset (by simp [hb])) hf
  case string a q b hq ha hb' hn =>
    rw [List.append_assoc, List.cons_append] at hi
    have hlq := before_closing hn (behind_opening hl hb ha hi)
    have hle := hlq.length_le
    exact ⟨q, hq, fun hc => (hc _ (hlq.subset hb)).right.left rfl, by omega⟩

theorem mem_strings_of_same {s : Text} (h : as.Same bs) (hs : s ∈ as.strings) : s ∈ bs.strings := by
  obtain ⟨a, ha, hm⟩ := mem_strings.mp hs
  have h := h a.username
  rw [Accounts.find_of_mem ha] at h
  cases hb : bs.find a.username
  case none   => simp [hb] at h
  case some b =>
    simp only [hb] at h
    refine mem_strings.mpr ⟨b, Accounts.mem_of_find hb, ?_⟩
    simpa [Account.strings, h.username, h.password, h.firstName, h.lastName, h.groups] using hm

theorem clean_of_survives (h : Survives lib as) : ∀ a ∈ as.entries, Account.Clean a := by
  obtain ⟨bs, hl, hs⟩ := h
  have hlonger : ∀ u ∈ as.strings, ¬ Clean u → ∃ q ∈ as.strings, ¬ Clean q ∧ u.length < q.length := by
    intro u hm hu
    have ho := clean_or_occurs_of_load hl (mem_strings_of_same hs hm)
    exact longer_string (ho.resolve_left hu) hu
  intro a ha s hsa
  apply Classical.byContradiction
  intro hc
  -- The longest string that is not clean.
  let unclean := as.strings.toFinset.filter fun s => ¬ Clean s
  have hm : s ∈ unclean := by simpa [unclean, hc] using mem_strings.mpr ⟨a, ha, hsa⟩
  obtain ⟨u, hu, hmax⟩ := unclean.exists_max_image List.length ⟨s, hm⟩
  simp only [unclean, Finset.mem_filter, List.mem_toFinset] at hu hmax
  obtain ⟨q, hq, hcq, hlt⟩ := hlonger u hu.left hu.right
  have := hmax q ⟨hq, hcq⟩
  omega

theorem survives_iff_clean (lib : PropertyTreeLibrary) (as : Accounts) :
    Survives lib as ↔ ∀ a ∈ as.entries, Account.Clean a :=
  ⟨clean_of_survives, survives_of_clean⟩

-- The property tree library with a parser for the grammar.
def ptreeLibrary : PropertyTreeLibrary where
  readJson     := Json.read
  toBool       := fun d =>
    [("true".toList, true), ("false".toList, false), ("1".toList, true), ("0".toList, false)].lookup d
  conforming   := Json.read_conforming
  toBool_true  := by decide
  toBool_false := by decide

def quotingAccounts : Accounts where
  entries := [{
    username  := "user".toList
    password  := "pass\"word".toList
    firstName := []
    lastName  := []
    groups    := []
    enabled   := true
    nodup     := List.nodup_nil }]
  nodup   := List.nodup_singleton _

theorem account_with_quote_is_lost : ¬ ∀ lib as, Survives lib as := by
  intro h
  have hc := clean_of_survives (h ptreeLibrary quotingAccounts)
  have hc := hc _ List.mem_cons_self "pass\"word".toList (by decide)
  exact absurd hc (by decide)

end FileAccountProvider

end Yogi.AccountManager
