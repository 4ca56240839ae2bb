import Mathlib

abbrev Text := List Char

-- A property tree: every node has a text and children with keys.
inductive Ptree where
  | node (data : Text) (children : List (Text × Ptree))

namespace Ptree

def data : Ptree → Text
  | node d _ => d

def children : Ptree → List (Text × Ptree)
  | node _ cs => cs

def leaf (d : Text) : Ptree :=
  node d []

@[simp] theorem data_node {d cs} : (node d cs).data = d :=
  rfl

@[simp] theorem children_node {d cs} : (node d cs).children = cs :=
  rfl

-- The first child with the key.
def child (t : Ptree) (key : Text) : Option Ptree :=
  (t.children.find? fun c => c.fst == key).map Prod.snd

-- The text occurs as the text or as a key of a node.
inductive Has (s : Text) : Ptree → Prop
  | data {cs} : Has s (node s cs)
  | key {d cs t} (h : (s, t) ∈ cs) : Has s (node d cs)
  | child {d cs k t} (h : (k, t) ∈ cs) (ht : Has s t) : Has s (node d cs)

theorem Has.eq_of_leaf {s d : Text} (h : (leaf d).Has s) : s = d := by
  cases h
  case data     => rfl
  case key hm   => cases hm
  case child hm => cases hm

theorem mem_of_child {t c : Ptree} {key} (h : t.child key = some c) : ∃ k, (k, c) ∈ t.children := by
  simp only [child, Option.map_eq_some_iff] at h
  obtain ⟨e, he, hc⟩ := h
  exact ⟨e.fst, hc ▸ List.mem_of_find?_eq_some he⟩

theorem has_of_child {t c : Ptree} {key s} (h : t.child key = some c) (hs : c.Has s) : t.Has s := by
  obtain ⟨_, hm⟩ := mem_of_child h
  cases t
  exact .child hm hs

theorem has_data {t : Ptree} : t.Has t.data := by
  cases t
  exact .data

end Ptree
