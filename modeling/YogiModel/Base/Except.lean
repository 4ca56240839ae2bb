import Mathlib

-- The results of fallible functions that do not fail.

namespace Except

variable {ε α β : Type} {x : Except ε α} {f : α → Except ε β} {g : α → β} {a : α} {b : β}

theorem bind_eq_ok : x >>= f = .ok b ↔ ∃ a, x = .ok a ∧ f a = .ok b := by
  cases x <;> simp [bind, Except.bind]

theorem map_eq_ok : x.map g = .ok b ↔ ∃ a, x = .ok a ∧ g a = b := by
  cases x <;> simp [Except.map]

@[simp] theorem ok_bind : (.ok a : Except ε α) >>= f = f a :=
  rfl

@[simp] theorem error_bind {e : ε} : (.error e : Except ε α) >>= f = .error e :=
  rfl

-- What holds of the result if there is one.
def Returns (x : Except ε α) (P : α → Prop) : Prop :=
  ∀ a, x = .ok a → P a

namespace Returns

variable {P P' : α → Prop} {Q : β → Prop}

theorem any : x.Returns fun _ => True :=
  fun _ _ => trivial

theorem ok (h : P a) : (.ok a : Except ε α).Returns P := by
  intro b hb
  cases hb
  exact h

theorem pure (h : P a) : (Pure.pure a : Except ε α).Returns P :=
  ok h

theorem error {e : ε} : (.error e : Except ε α).Returns P := by
  intro b hb
  cases hb

theorem imp (h : x.Returns P) (hp : ∀ a, P a → P' a) : x.Returns P' :=
  fun a ha => hp a (h a ha)

theorem and (h : x.Returns P) (h' : x.Returns P') : x.Returns fun a => P a ∧ P' a :=
  fun a ha => ⟨h a ha, h' a ha⟩

theorem bind (hx : x.Returns P) (hf : ∀ a, P a → (f a).Returns Q) : (x >>= f).Returns Q := by
  intro b hb
  obtain ⟨a, ha, hb⟩ := bind_eq_ok.mp hb
  exact hf a (hx a ha) b hb

-- The result of the first computation does not matter.
theorem bind' (hf : ∀ a, (f a).Returns Q) : (x >>= f).Returns Q :=
  any.bind fun a _ => hf a

theorem ite {p : Prop} [Decidable p] {y : Except ε α} (hx : p → x.Returns P) (hy : ¬p → y.Returns P) :
    (if p then x else y).Returns P := by
  split
  case isTrue h  => exact hx h
  case isFalse h => exact hy h

end Returns

-- There is a result and it has a property.
def Succeeds (x : Except ε α) (P : α → Prop) : Prop :=
  ∃ a, x = .ok a ∧ P a

namespace Succeeds

variable {P P' : α → Prop} {Q : β → Prop}

theorem pure (h : P a) : (Pure.pure a : Except ε α).Succeeds P :=
  ⟨a, rfl, h⟩

theorem imp (h : x.Succeeds P) (hp : ∀ a, P a → P' a) : x.Succeeds P' := by
  obtain ⟨a, ha, h⟩ := h
  exact ⟨a, ha, hp a h⟩

theorem bind (hx : x.Succeeds P) (hf : ∀ a, P a → (f a).Succeeds Q) : (x >>= f).Succeeds Q := by
  obtain ⟨a, ha, h⟩ := hx
  rw [ha]
  exact hf a h

theorem ite {p : Prop} [Decidable p] {y : Except ε α} (hx : p → x.Succeeds P) (hy : ¬p → y.Succeeds P) :
    (if p then x else y).Succeeds P := by
  split
  case isTrue h  => exact hx h
  case isFalse h => exact hy h

theorem and (h : x.Succeeds P) (hr : x.Returns P') : x.Succeeds fun a => P a ∧ P' a := by
  obtain ⟨a, ha, h⟩ := h
  exact ⟨a, ha, h, hr a ha⟩

end Succeeds
end Except
