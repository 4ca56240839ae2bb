import Mathlib
import YogiModel.Base.Ptree

-- Paths whose components are resolved without looking at the file system.
namespace LexicalPath

def isSkipped (name : Text) : Bool :=
  name = [] ∨ name = ['.']

def isParent (name : Text) : Bool :=
  name = ['.', '.']

def step (dir : List Text) (name : Text) : List Text :=
  if isSkipped name then dir
  else if isParent name then dir.dropLast
  else dir ++ [name]

-- The names from the root to what a path stands for; above the root is the root.
def resolve (cwd : List Text) (path : Text) : List Text :=
  (path.splitOn '/').foldl step (if path.head? = some '/' then [] else cwd)

-- What some components stand for in a directory that is not known.
structure Relative where
  ups : Nat
  names : List Text

namespace Relative

def step (r : Relative) (name : Text) : Relative :=
  if isSkipped name then r
  else if isParent name then
    if r.names = [] then { r with ups := r.ups + 1 } else { r with names := r.names.dropLast }
  else { r with names := r.names ++ [name] }

def of (components : List Text) : Relative :=
  components.foldl step ⟨0, []⟩

def within (r : Relative) (dir : List Text) : List Text :=
  dir.take (dir.length - r.ups) ++ r.names

variable {r : Relative} {dir : List Text} {name : Text} {components : List Text}

theorem within_step : (r.step name).within dir = LexicalPath.step (r.within dir) name := by
  simp only [step, LexicalPath.step]
  split
  case isTrue => rfl
  case isFalse =>
    split
    case isFalse => simp [within]
    case isTrue =>
      split
      case isTrue h =>
        simp only [within, h, List.append_nil, List.dropLast_eq_take, List.take_take, List.length_take]
        refine congrArg (dir.take ·) ?_
        omega
      case isFalse h => simp [within, List.dropLast_append_of_ne_nil h]

theorem foldl_step : components.foldl LexicalPath.step (r.within dir) = (components.foldl step r).within dir := by
  induction components generalizing r
  case nil            => rfl
  case cons name _ ih => rw [List.foldl_cons, List.foldl_cons, ← within_step, ih]

theorem foldl_of : components.foldl LexicalPath.step dir = (of components).within dir := by
  have hw : (⟨0, []⟩ : Relative).within dir = dir := by simp [within]
  rw [of, ← foldl_step, hw]

-- The directory is not left, or it is entered again by its own names.
def StaysIn (r : Relative) (dir : List Text) : Prop :=
  dir.drop (dir.length - r.ups) <+: r.names

instance : Decidable (r.StaysIn dir) :=
  inferInstanceAs (Decidable (_ <+: _))

theorem prefix_within_iff : dir <+: r.within dir ↔ r.StaysIn dir := by
  have hd : dir.take (dir.length - r.ups) ++ dir.drop (dir.length - r.ups) = dir := List.take_append_drop _ _
  calc dir <+: r.within dir
    _ ↔ dir.take (dir.length - r.ups) ++ dir.drop (dir.length - r.ups) <+: r.within dir := by rw [hd]
    _ ↔ r.StaysIn dir := List.prefix_append_right_inj _

-- Without a component that leads upwards the directory is not left.
theorem ups_of (h : ∀ name ∈ components, isParent name = false) : (of components).ups = 0 := by
  have hfold : ∀ r : Relative, (components.foldl step r).ups = r.ups := by
    induction components
    case nil                => exact fun _ => rfl
    case cons name names ih =>
      intro r
      rw [List.foldl_cons, ih fun n hn => h n (List.mem_cons_of_mem _ hn)]
      simp only [step, h name List.mem_cons_self]
      split <;> rfl
  exact hfold _

theorem staysIn_of_ups (h : r.ups = 0) : r.StaysIn dir := by
  simp [StaysIn, h]

end Relative

section

variable {cwd : List Text} {a b : Text}

theorem mem_of_mem_splitOn {name s : Text} {c x : Char} (h : name ∈ s.splitOn c) (hx : x ∈ name) : x ∈ s := by
  induction s generalizing name
  case nil         =>
    simp only [List.splitOn_nil, List.mem_singleton] at h
    exact absurd hx (by simp [h])
  case cons d s ih =>
    rw [List.splitOn_cons_eq_if_modifyHead] at h
    split at h
    case isTrue =>
      cases List.mem_cons.mp h
      case inl h => exact absurd hx (by simp [h])
      case inr h => exact List.mem_cons_of_mem _ (ih h hx)
    case isFalse =>
      obtain ⟨part, parts, hs⟩ := List.exists_cons_of_ne_nil (List.splitOn_ne_nil c s)
      rw [hs, List.modifyHead_cons] at h
      cases List.mem_cons.mp h
      case inl h =>
        subst h
        cases List.mem_cons.mp hx
        case inl hx => exact hx ▸ List.mem_cons_self
        case inr hx => exact List.mem_cons_of_mem _ (ih (hs ▸ List.mem_cons_self) hx)
      case inr h => exact List.mem_cons_of_mem _ (ih (hs ▸ List.mem_cons_of_mem _ h) hx)

-- Without a point there is no component that leads upwards.
theorem isParent_of_splitOn {s name : Text} (h : '.' ∉ s) (hn : name ∈ s.splitOn '/') : isParent name = false := by
  by_contra hp
  simp only [isParent, Bool.not_eq_false, decide_eq_true_eq] at hp
  exact h (mem_of_mem_splitOn hn (by simp [hp]))

theorem head_append_slash : (a ++ '/' :: b).head? = (a ++ ['/']).head? := by
  cases a <;> rfl

-- A path that continues with a slash is resolved in the directory that stands before the slash.
theorem resolve_append :
    resolve cwd (a ++ '/' :: b) = (b.splitOn '/').foldl step (resolve cwd (a ++ ['/'])) := by
  have hnil : ∀ dir, step dir [] = dir := fun _ => rfl
  simp only [resolve, head_append_slash]
  rw [List.splitOn_append_cons_self, List.splitOn_append_cons_self, List.foldl_append, List.foldl_append]
  simp [hnil]

theorem prefix_resolve_append_iff : resolve cwd (a ++ ['/']) <+: resolve cwd (a ++ '/' :: b) ↔
    (Relative.of (b.splitOn '/')).StaysIn (resolve cwd (a ++ ['/'])) := by
  rw [resolve_append (b := b), Relative.foldl_of, Relative.prefix_within_iff]

theorem prefix_of_no_parent (h : ∀ name ∈ b.splitOn '/', isParent name = false) :
    resolve cwd (a ++ ['/']) <+: resolve cwd (a ++ '/' :: b) :=
  prefix_resolve_append_iff.mpr (Relative.staysIn_of_ups (Relative.ups_of h))

end

end LexicalPath
