import Mathlib

-- A reader takes a value off the front of a sequence of symbols.
abbrev Reader (σ α : Type) := List σ → Option (α × List σ)

namespace Reader

variable {σ α β : Type}

def pure (a : α) : Reader σ α :=
  fun s => some (a, s)

def bind (r : Reader σ α) (f : α → Reader σ β) : Reader σ β :=
  fun s => r s >>= fun (a, s') => f a s'

-- Whatever follows the word of a value, the reader gets the value back and stops after its word.
def Reads (r : Reader σ α) (w : List σ) (a : α) : Prop :=
  ∀ rest, r (w ++ rest) = some (a, rest)

theorem Reads.pure {a : α} : (Reader.pure a : Reader σ α).Reads [] a :=
  fun _ => rfl

theorem Reads.bind {r : Reader σ α} {f : α → Reader σ β} {v w a b} (h₁ : r.Reads v a)
    (h₂ : (f a).Reads w b) : (r.bind f).Reads (v ++ w) b := by
  intro rest
  simp [Reader.bind, List.append_assoc, h₁ (w ++ rest), h₂ rest]

theorem Reads.map {r : Reader σ α} {g : α → β} {w a} (h : r.Reads w a) :
    (r.bind fun a => Reader.pure (g a)).Reads w (g a) := by
  intro rest
  simp [Reader.bind, h rest, Reader.pure]

-- A reader that reads two words decides which of two values it is that begins a sequence.
theorem Reads.inj {r : Reader σ α} {v w a b s t} (h₁ : r.Reads v a) (h₂ : r.Reads w b)
    (h : v ++ s = w ++ t) : a = b ∧ s = t := by
  have hr := h₁ s
  rw [h, h₂ t] at hr
  cases hr
  exact ⟨rfl, rfl⟩

-- The symbols as they are.
def take (n : Nat) : Reader σ (List σ) :=
  fun s => if n ≤ s.length then some (s.take n, s.drop n) else none

theorem Reads.take {w : List σ} : (Reader.take w.length).Reads w w := by
  intro rest
  simp [Reader.take]

end Reader
