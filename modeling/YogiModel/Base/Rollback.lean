import YogiModel.Base.Except
import Mathlib

-- Computations that send messages. An attempt is given the number of messages that can be sent until
-- sending throws an exception.
inductive Attempt (σ : Type)
  | done (s : σ) (left : Nat)
  | thrown (s : σ)

namespace Attempt

variable {σ α ι ε : Type}

-- Sends messages and changes the state afterwards.
def sending (n : Nat) (s s' : σ) (k : Nat) : Attempt σ :=
  if k < n then .thrown s else .done s' (k - n)

def andThen (a : Except ε (Attempt σ)) (f : σ → Nat → Except ε (Attempt σ)) :
    Except ε (Attempt σ) := do
  match ← a with
  | .done s k => f s k
  | .thrown s => return .thrown s

def each (f : σ → α → Nat → Except ε (Attempt σ)) : List α → σ → Nat → Except ε (Attempt σ)
  | [],      s, k => .ok (.done s k)
  | a :: as, s, k => andThen (f s a k) (each f as)

variable [DecidableEq ι] (start : ι → σ → Nat → Except ε (Attempt σ)) (undo : ι → σ → Except ε σ)

-- A component is started before the others, and this is undone if one of the others fails to start.
def guarded (i : ι) (others : (ι → σ) → Nat → Except ε (Attempt (ι → σ))) (s : ι → σ) (k : Nat) :
    Except ε (Attempt (ι → σ)) := do
  match ← start i (s i) k with
  | .thrown c => return .thrown (Function.update s i c)
  | .done c k =>
    match ← others (Function.update s i c) k with
    | .done s k => return .done s k
    | .thrown s => return .thrown (Function.update s i (← undo i (s i)))

def startAll : List ι → (ι → σ) → Nat → Except ε (Attempt (ι → σ))
  | []      => fun s k => .ok (.done s k)
  | i :: is => guarded start undo i (startAll is)

end Attempt

-- A computation that sends `n` messages: `P` holds when it is done and `Q` when sending has thrown an
-- exception. Unless `F` holds, it does not fail in any other way.
structure Sends {σ ε : Type} (f : Nat → Except ε (Attempt σ)) (n : Nat) (P Q : σ → Prop)
    (F : Prop) : Prop where
  done   : ∀ {k}, n ≤ k → ∃ s, f k = .ok (.done s (k - n)) ∧ P s
  thrown : ∀ {k}, k < n → (∃ s, f k = .ok (.thrown s) ∧ Q s) ∨ (∃ e, f k = .error e) ∧ F

namespace Sends

open Attempt

variable {σ α ι ε : Type} {f : Nat → Except ε (Attempt σ)} {g : σ → Nat → Except ε (Attempt σ)}
  {n m k : Nat} {s s' : σ} {P P' Q Q' : σ → Prop} {F : Prop}

theorem pure (h : P s) : Sends (ε := ε) (fun k => .ok (.done s k)) 0 P Q F where
  done   := fun _ => ⟨s, by simp, h⟩
  thrown := fun h => absurd h (Nat.not_lt_zero _)

theorem sending (h : P s') (h' : Q s) :
    Sends (ε := ε) (fun k => .ok (Attempt.sending n s s' k)) n P Q F where
  done   := fun hk => ⟨s', by simp [Attempt.sending, Nat.not_lt.mpr hk], h⟩
  thrown := fun hk => .inl ⟨s, by simp [Attempt.sending, hk], h'⟩

theorem imp (h : Sends f n P Q F) (hp : ∀ s, P s → P' s) (hq : ∀ s, Q s → Q' s) :
    Sends f n P' Q' F where
  done hk := by
    obtain ⟨s, hf, hs⟩ := h.done hk
    exact ⟨s, hf, hp s hs⟩
  thrown hk := by
    cases h.thrown hk
    case inl h =>
      obtain ⟨s, hf, hs⟩ := h
      exact .inl ⟨s, hf, hq s hs⟩
    case inr h => exact .inr h

theorem andThen (h : Sends f n P Q F) (hg : ∀ s, P s → Sends (g s) m P' Q F) :
    Sends (fun k => Attempt.andThen (f k) g) (n + m) P' Q F where
  done {k} hk := by
    obtain ⟨s, hf, hs⟩ := h.done (k := k) (by omega)
    obtain ⟨s', hf', hs'⟩ := (hg s hs).done (k := k - n) (by omega)
    refine ⟨s', ?_, hs'⟩
    simp only [Attempt.andThen, hf, Except.ok_bind, hf', Nat.sub_sub]
  thrown {k} hk := by
    cases Nat.lt_or_ge k n
    case inl hn =>
      cases h.thrown hn
      case inl h =>
        obtain ⟨s, hf, hs⟩ := h
        exact .inl ⟨s, by simp only [Attempt.andThen, hf, Except.ok_bind]; rfl, hs⟩
      case inr h =>
        obtain ⟨⟨e, he⟩, hF⟩ := h
        exact .inr ⟨⟨e, by simp only [Attempt.andThen, he, Except.error_bind]⟩, hF⟩
    case inr hn =>
      obtain ⟨s, hf, hs⟩ := h.done hn
      have := (hg s hs).thrown (k := k - n) (by omega)
      simpa only [Attempt.andThen, hf, Except.ok_bind] using this

-- The loop has the invariant `I`, which depends on the elements that are left.
theorem each {f : σ → α → Nat → Except ε (Attempt σ)} {c : α → Nat} {I : List α → σ → Prop}
    (h : ∀ a as s, I (a :: as) s → Sends (f s a) (c a) (I as) Q F) {as : List α} (hi : I as s) :
    Sends (Attempt.each f as s) (as.map c).sum (I []) Q F := by
  induction as generalizing s
  case nil => exact pure hi
  case cons a as ih =>
    rw [List.map_cons, List.sum_cons]
    exact (h a as s hi).andThen fun s hs => ih hs

variable [DecidableEq ι]

-- What is left behind if a component has failed to start after those in `before` have been started.
structure RolledBack (U T : ι → σ → Prop) (s s' : ι → σ) (before : List ι) (failed : ι) : Prop where
  stuck     : T failed (s' failed)
  undone    : ∀ i ∈ before, U i (s' i)
  untouched : ∀ i ∉ before, i ≠ failed → s' i = s i

variable {start : ι → σ → Nat → Except ε (Attempt σ)} {undo : ι → σ → Except ε σ}
  {D U T : ι → σ → Prop} {c : ι → Nat} {s : ι → σ} {i : ι} {is : List ι}

theorem guarded (h : Sends (start i (s i)) (c i) (D i) (T i) F)
    (hu : ∀ t, D i t → (∃ u, undo i t = .ok u ∧ U i u) ∨ (∃ e, undo i t = .error e) ∧ F)
    (hi : i ∉ is) {others : (ι → σ) → Nat → Except ε (Attempt (ι → σ))}
    (ho : ∀ t, D i t → Sends (others (Function.update s i t)) m
      (fun s' => (∀ j ∈ is, D j (s' j)) ∧ ∀ j ∉ is, s' j = Function.update s i t j)
      (fun s' => ∃ before failed after, is = before ++ failed :: after ∧
        RolledBack U T (Function.update s i t) s' before failed) F) :
    Sends (Attempt.guarded start undo i others s) (c i + m)
      (fun s' => (∀ j ∈ i :: is, D j (s' j)) ∧ ∀ j ∉ i :: is, s' j = s j)
      (fun s' => ∃ before failed after, i :: is = before ++ failed :: after ∧
        RolledBack U T s s' before failed) F where
  done {k} hk := by
    obtain ⟨t, hs, ht⟩ := h.done (k := k) (by omega)
    obtain ⟨s', hf, hd, hn⟩ := (ho t ht).done (k := k - c i) (by omega)
    refine ⟨s', by simp only [Attempt.guarded, hs, Except.ok_bind, hf, Nat.sub_sub]; rfl, ?_, ?_⟩
    · intro j hj
      cases List.mem_cons.mp hj
      case inl hj => rw [hj, hn i hi, Function.update_self]; exact ht
      case inr hj => exact hd j hj
    · intro j hj
      obtain ⟨hji, hj⟩ := not_or.mp (mt List.mem_cons.mpr hj)
      rw [hn j hj, Function.update_of_ne hji]
  thrown {k} hk := by
    cases Nat.lt_or_ge k (c i)
    case inl hc =>
      cases h.thrown hc
      case inl h =>
        obtain ⟨t, hs, ht⟩ := h
        refine .inl ⟨_, by simp only [Attempt.guarded, hs, Except.ok_bind]; rfl, [], i, is, rfl, ?_⟩
        exact ⟨by rwa [Function.update_self], by simp, fun j _ hj => Function.update_of_ne hj _ _⟩
      case inr h =>
        obtain ⟨⟨e, he⟩, hF⟩ := h
        exact .inr ⟨⟨e, by simp only [Attempt.guarded, he, Except.error_bind]⟩, hF⟩
    case inr hc =>
      obtain ⟨t, hs, ht⟩ := h.done hc
      cases (ho t ht).thrown (k := k - c i) (by omega)
      case inr h =>
        obtain ⟨⟨e, he⟩, hF⟩ := h
        exact .inr ⟨⟨e, by simp only [Attempt.guarded, hs, Except.ok_bind, he, Except.error_bind]⟩, hF⟩
      case inl h =>
        obtain ⟨s', hf, before, failed, after, heq, hr⟩ := h
        have hb : i ∉ before ∧ i ≠ failed := by simp [heq] at hi; tauto
        have hsi : s' i = t := by rw [hr.untouched i hb.left hb.right, Function.update_self]
        cases hu t ht
        case inr h =>
          obtain ⟨⟨e, he⟩, hF⟩ := h
          refine .inr ⟨⟨e, ?_⟩, hF⟩
          simp only [Attempt.guarded, hs, Except.ok_bind, hf, hsi, he, Except.error_bind]
        case inl h =>
          obtain ⟨u, hu, hU⟩ := h
          refine .inl ⟨Function.update s' i u, ?_, i :: before, failed, after, by rw [heq]; rfl, ?_⟩
          · simp only [Attempt.guarded, hs, Except.ok_bind, hf, hsi, hu]
            rfl
          · refine ⟨?_, fun j hj => ?_, fun j hj hjf => ?_⟩
            · rw [Function.update_of_ne hb.right.symm]
              exact hr.stuck
            · cases Decidable.em (j = i)
              case inl h => rw [h, Function.update_self]; exact hU
              case inr h =>
                rw [Function.update_of_ne h]
                exact hr.undone j ((List.mem_cons.mp hj).resolve_left h)
            · obtain ⟨hji, hj⟩ := not_or.mp (mt List.mem_cons.mpr hj)
              rw [Function.update_of_ne hji, hr.untouched j hj hjf, Function.update_of_ne hji]

-- If a component fails to start, it is the only one that is neither undone nor untouched.
theorem startAll (start : ι → σ → Nat → Except ε (Attempt σ)) (undo : ι → σ → Except ε σ) (ho : is.Nodup) (h : ∀ i ∈ is, Sends (start i (s i)) (c i) (D i) (T i) F)
    (hu : ∀ i t, D i t → (∃ u, undo i t = .ok u ∧ U i u) ∨ (∃ e, undo i t = .error e) ∧ F) :
    Sends (Attempt.startAll start undo is s) (is.map c).sum
      (fun s' => (∀ i ∈ is, D i (s' i)) ∧ ∀ i ∉ is, s' i = s i)
      (fun s' => ∃ before failed after, is = before ++ failed :: after ∧
        RolledBack U T s s' before failed) F := by
  induction is generalizing s
  case nil => exact pure ⟨by simp, fun _ _ => rfl⟩
  case cons i is ih =>
    obtain ⟨hi, ho⟩ := List.nodup_cons.mp ho
    rw [List.map_cons, List.sum_cons]
    refine guarded (h i List.mem_cons_self) (hu i) hi fun t _ => ih ho fun j hj => ?_
    have hji : j ≠ i := fun hji => hi (hji ▸ hj)
    rw [Function.update_of_ne hji]
    exact h j (List.mem_cons_of_mem _ hj)

end Sends
