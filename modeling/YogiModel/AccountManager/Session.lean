import YogiModel.AccountManager.Account

namespace Yogi.AccountManager

-- The object of a web session or an ordinary session.
structure Session where
  name    : Text
  account : Account
  deriving DecidableEq

namespace Session

-- How many sessions an account has had. The counters are shared by all sessions.
abbrev Counters := Text → UInt32

def makeNameSuffix (tag : Text) (cnt : UInt32) : Text :=
  if tag = [] then
    Nat.toDigits 10 cnt.toNat
  else
    tag ++ '-' :: Nat.toDigits 10 cnt.toNat

def makeName (username tag : Text) (cnt : UInt32) : Text :=
  username ++ '-' :: makeNameSuffix tag cnt

def web : Text :=
  ['w', 'e', 'b']

-- The two tags that the session manager gives its sessions.
inductive IsTag : Text → Prop
  | none : IsTag []
  | web  : IsTag web

theorem dash_notMem_digits {n : Nat} : '-' ∉ Nat.toDigits 10 n := by
  intro h
  have := Nat.isDigit_of_mem_toDigits (by decide) (by decide) h
  exact absurd this (by decide)

-- The last dash of a text separates what is before it from what is after it.
theorem split_at_last_dash {a b c d : Text} (hb : '-' ∉ b) (hd : '-' ∉ d)
    (h : a ++ '-' :: b = c ++ '-' :: d) : a = c ∧ b = d := by
  induction a generalizing c
  case nil =>
    cases c
    case nil => simpa using h
    case cons x c =>
      simp only [List.nil_append, List.cons_append, List.cons.injEq] at h
      exact absurd (h.right ▸ List.mem_append_right c List.mem_cons_self) hb
  case cons x a ih =>
    cases c
    case nil =>
      simp only [List.nil_append, List.cons_append, List.cons.injEq] at h
      exact absurd (h.right ▸ List.mem_append_right a List.mem_cons_self) hd
    case cons y c =>
      simp only [List.cons_append, List.cons.injEq] at h
      obtain ⟨ha, hb⟩ := ih h.right
      exact ⟨h.left ▸ ha ▸ rfl, hb⟩

theorem makeName_web {username : Text} {cnt} :
    makeName username web cnt = (username ++ '-' :: web) ++ '-' :: Nat.toDigits 10 cnt.toNat := by
  simp [makeName, makeNameSuffix, web]

theorem makeName_none {username : Text} {cnt} :
    makeName username [] cnt = username ++ '-' :: Nat.toDigits 10 cnt.toNat := by
  simp [makeName, makeNameSuffix]

-- What an ordinary session shares its name with: a web session of another user.
theorem makeName_none_eq {u v tag : Text} {m n} (ht : IsTag tag)
    (h : makeName v tag m = makeName u [] n) : v = u ∨ u = v ++ '-' :: web := by
  rw [makeName_none] at h
  cases ht
  case none =>
    rw [makeName_none] at h
    exact .inl (split_at_last_dash dash_notMem_digits dash_notMem_digits h).left
  case web =>
    rw [makeName_web] at h
    exact .inr (split_at_last_dash dash_notMem_digits dash_notMem_digits h).left.symm

theorem eq_of_prefix_append {p v w : Text} (h : p <+: v ++ w) :
    p <+: v ∨ ∃ x, x ≠ [] ∧ p = v ++ x ∧ x <+: w := by
  obtain ⟨t, ht⟩ := h
  cases List.append_eq_append_iff.mp ht
  case inl hv =>
    obtain ⟨x, hx, _⟩ := hv
    exact .inl ⟨x, hx.symm⟩
  case inr hp =>
    obtain ⟨x, hp, hw⟩ := hp
    by_cases hn : x = []
    · subst hn
      exact .inl ⟨[], by simp [hp]⟩
    · exact .inr ⟨x, hn, hp, t, hw.symm⟩

-- Whose sessions look like web sessions of the user `u`.
theorem owner_of_web_name {u v tag : Text} {n} (ht : IsTag tag)
    (h : (u ++ '-' :: web ++ ['-']) <+: makeName v tag n) :
    v = u ∨ v = u ++ '-' :: web ∨ (u ++ '-' :: web ++ ['-']) <+: v := by
  simp only [makeName] at h
  cases eq_of_prefix_append h
  case inl hp => exact .inr (.inr hp)
  case inr hx =>
    obtain ⟨x, hn, hp, hx⟩ := hx
    -- The rest of the prefix after `v` begins with a dash and ends with one.
    cases x
    case nil => exact absurd rfl hn
    case cons y ys =>
      obtain ⟨z, hxz⟩ := hx
      simp only [List.cons_append, List.cons.injEq] at hxz
      obtain ⟨rfl, hz⟩ := hxz
      by_cases he : ys = []
      · subst he
        have := (split_at_last_dash (b := []) (d := []) (by simp) (by simp) hp).left
        exact .inr (.inl this.symm)
      · obtain ⟨ys', y', hys⟩ := List.eq_nil_or_concat' ys |>.resolve_left he
        subst hys
        have hp' : u ++ '-' :: web ++ ['-'] = (v ++ '-' :: ys') ++ [y'] := by simp [hp]
        obtain ⟨hp₁, hy'⟩ := List.append_inj' hp' rfl
        simp only [List.cons.injEq, and_true] at hy'
        subst hy'
        rw [List.append_assoc, List.singleton_append] at hz
        cases ht
        case none =>
          have : '-' ∈ makeNameSuffix [] n := hz ▸ List.mem_append_right ys' List.mem_cons_self
          simp only [makeNameSuffix, if_true] at this
          exact absurd this dash_notMem_digits
        case web =>
          have hs : makeNameSuffix web n = web ++ '-' :: Nat.toDigits 10 n.toNat := rfl
          rw [hs] at hz
          have hc : '-' ∉ z := by
            intro hm
            have hcount := congrArg (List.count '-') hz
            have h₁ : List.count '-' (Nat.toDigits 10 n.toNat) = 0 :=
              List.count_eq_zero.mpr dash_notMem_digits
            have h₂ : 0 < List.count '-' z := List.count_pos_iff.mpr hm
            have h₃ : List.count '-' web = 0 := by decide
            simp only [List.count_append, List.count_cons_self, h₁, h₃] at hcount
            omega
          have hw := (split_at_last_dash hc dash_notMem_digits hz).left
          rw [hw] at hp₁
          exact .inl (List.append_cancel_right hp₁).symm

end Session

end Yogi.AccountManager
