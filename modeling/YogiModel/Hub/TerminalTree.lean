import Mathlib
import YogiModel.Base.Machine
import YogiModel.Base.Except
import YogiModel.Base.Ptree
import YogiModel.Core.ConnectionStart

namespace Yogi.Hub.KnownTerminalsService

structure TerminalInfo where
  type      : TerminalType
  signature : UInt32
  deriving DecidableEq

-- The place of a node are the keys of the maps on the way to it from the root.
abbrev Place := List Text

-- A node is stored in the map of its parent, of which `children` are the keys.
structure TreeNode where
  parent    : Option Place      := none
  name      : Text              := []
  children  : List Text         := []
  terminals : List TerminalInfo := []
  deriving DecidableEq

inductive TreeFault
  | assertion
  | danglingPointer
  | outOfFuel
  deriving DecidableEq

abbrev Tree := Place → Option TreeNode

namespace Tree

variable {tree tree' : Tree} {node p q : Place} {n c : TreeNode} {k : Text} {parts : List Text}

-- A root without children and terminals.
def empty : Tree :=
  fun p => if p = [] then some {} else none

def deref (tree : Tree) (node : Place) : Except TreeFault TreeNode :=
  match tree node with
  | some n => .ok n
  | none   => .error .danglingPointer

def modify (tree : Tree) (node : Place) (f : TreeNode → TreeNode) : Tree :=
  fun p => if p = node then (tree p).map f else tree p

def insertChild (tree : Tree) (node : Place) (key : Text) (child : TreeNode) : Tree :=
  fun p =>
    if p = node ++ [key] then some child
    else if p = node then (tree p).map fun n => { n with children := n.children ++ [key] }
    else tree p

-- What is below the child is destroyed with it.
def removeChild (tree : Tree) (node : Place) (key : Text) : Tree :=
  fun p =>
    if node ++ [key] <+: p then none
    else if p = node then (tree p).map fun n => { n with children := n.children.erase key }
    else tree p

-- The loop of `create_subtree`.
def createLoop (tree : Tree) (node : Place) : List Text → Except TreeFault (Tree × Place)
  | []            => .ok (tree, node)
  | part :: parts => do
    let n ← tree.deref node
    if part ∈ n.children then
      createLoop tree (node ++ [part]) parts
    else
      let newChild : TreeNode := { parent := some node, name := part }
      createLoop (tree.insertChild node part newChild) (node ++ [part]) parts

-- The loop of `find_subtree`.
def findLoop (tree : Tree) (node : Place) : List Text → Except TreeFault (Option Place)
  | []            => .ok (some node)
  | part :: parts => do
    let n ← tree.deref node
    if part ∈ n.children then
      findLoop tree (node ++ [part]) parts
    else
      return none

-- The loop of `remove_terminal`.
def pruneLoop : Nat → Tree → Place → Except TreeFault Tree
  | 0, _, _              => .error .outOfFuel
  | fuel + 1, tree, node => do
    let n ← tree.deref node
    match n.parent with
    | none        => return tree
    | some parent =>
      if n.terminals = [] ∧ n.children = [] then
        let p ← tree.deref parent
        if n.name ∈ p.children then
          pruneLoop fuel (tree.removeChild parent n.name) parent
        else
          .error .assertion
      else
        return tree

def Has (tree : Tree) (p : Place) : Prop :=
  ∃ n, tree p = some n

def terminalsAt (tree : Tree) (p : Place) : List TerminalInfo :=
  match tree p with
  | some n => n.terminals
  | none   => []

def parentOf (p : Place) : Option Place :=
  if p = [] then none else some p.dropLast

-- The pointers to the parents and the names agree with the maps.
structure Linked (tree : Tree) : Prop where
  root     : tree.Has []
  parent   : ∀ {p n}, tree p = some n → n.parent = parentOf p
  name     : ∀ {p n}, tree p = some n → n.name = p.getLast?.getD []
  children : ∀ {p n k}, tree p = some n → (k ∈ n.children ↔ tree.Has (p ++ [k]))
  nodup    : ∀ {p n}, tree p = some n → n.children.Nodup
  inner    : ∀ {p k}, tree.Has (p ++ [k]) → tree.Has p

-- There is a terminal at the node or below it.
def Live (tree : Tree) (p : Place) : Prop :=
  p = [] ∨ ∃ q, p <+: q ∧ tree.terminalsAt q ≠ []

theorem deref_of_has (h : tree p = some n) : tree.deref p = .ok n := by
  simp [deref, h]

theorem terminalsAt_of_some (h : tree p = some n) : tree.terminalsAt p = n.terminals := by
  simp [terminalsAt, h]

theorem has_of_terminalsAt (h : tree.terminalsAt p ≠ []) : tree.Has p := by
  simp only [terminalsAt] at h
  split at h
  case h_1 n hn => exact ⟨n, hn⟩
  case h_2      => exact absurd rfl h

theorem has_modify {f} : (tree.modify node f).Has p ↔ tree.Has p := by
  simp only [Has, modify]
  split
  case isTrue  => simp
  case isFalse => rfl

theorem has_insertChild {child} :
    (tree.insertChild node k child).Has p ↔ tree.Has p ∨ p = node ++ [k] := by
  simp only [Has, insertChild]
  split
  case isTrue h  => simp [h]
  case isFalse h =>
    split
    case isTrue  => simp [h]
    case isFalse => simp [h]

theorem has_removeChild :
    (tree.removeChild node k).Has p ↔ tree.Has p ∧ ¬node ++ [k] <+: p := by
  simp only [Has, removeChild]
  split
  case isTrue h  => simp [h]
  case isFalse h =>
    split
    case isTrue  => simp [h]
    case isFalse => simp [h]

theorem terminalsAt_insertChild {child : TreeNode} (hc : child.terminals = []) (h : ¬tree.Has (node ++ [k])) :
    (tree.insertChild node k child).terminalsAt p = tree.terminalsAt p := by
  simp only [terminalsAt, insertChild]
  by_cases hp : p = node ++ [k]
  case pos =>
    subst hp
    cases hn : tree (node ++ [k])
    case none   => simp [hc]
    case some n => exact absurd ⟨n, hn⟩ h
  case neg =>
    by_cases hq : p = node
    case pos =>
      subst hq
      cases tree p
      case none => simp
      case some => simp
    case neg => simp [hp, hq]

theorem terminalsAt_removeChild (h : node ++ [k] <+: p → tree.terminalsAt p = []) :
    (tree.removeChild node k).terminalsAt p = tree.terminalsAt p := by
  by_cases hp : node ++ [k] <+: p
  case pos =>
    rw [h hp]
    simp [terminalsAt, removeChild, hp]
  case neg =>
    by_cases hq : p = node
    case pos =>
      subst hq
      cases hn : tree p
      case none => simp [terminalsAt, removeChild, hn]
      case some => simp [terminalsAt, removeChild, hn, hp]
    case neg => simp [terminalsAt, removeChild, hp, hq]

theorem parentOf_append : parentOf (node ++ [k]) = some node := by
  simp [parentOf]

namespace Linked

theorem empty : Linked empty where
  root     := ⟨{}, rfl⟩
  parent   := by
    intro p n h
    simp only [Tree.empty] at h
    split at h
    case isTrue hp => cases h; simp [parentOf, hp]
    case isFalse   => cases h
  name     := by
    intro p n h
    simp only [Tree.empty] at h
    split at h
    case isTrue hp => cases h; simp [hp]
    case isFalse   => cases h
  children := by
    intro p n k h
    simp only [Tree.empty] at h
    split at h
    case isTrue hp => cases h; simp [Has, Tree.empty]
    case isFalse   => cases h
  nodup    := by
    intro p n h
    simp only [Tree.empty] at h
    split at h
    case isTrue hp => cases h; simp
    case isFalse   => cases h
  inner    := by
    intro p k h
    simp [Has, Tree.empty] at h

theorem has_of_prefix (h : tree.Linked) (hp : p <+: q) (hq : tree.Has q) : tree.Has p := by
  obtain ⟨r, rfl⟩ := hp
  induction r using List.reverseRecOn
  case nil              => simpa using hq
  case append_singleton r k ih => exact ih (h.inner (by simpa using hq))

theorem eq_of_children_nil (h : tree.Linked) (hn : tree node = some n) (hc : n.children = [])
    (hp : node <+: p) (hhas : tree.Has p) : p = node := by
  obtain ⟨r, rfl⟩ := hp
  cases r
  case nil       => exact List.append_nil _
  case cons j js =>
    have hj : node ++ [j] <+: node ++ j :: js := by simp
    have := (h.children hn).mpr (h.has_of_prefix hj hhas)
    simp [hc] at this

theorem modify {f : TreeNode → TreeNode} (h : tree.Linked)
    (hf : ∀ n, (f n).parent = n.parent ∧ (f n).name = n.name ∧ (f n).children = n.children) :
    (tree.modify node f).Linked := by
  have hsome : ∀ {p n}, tree.modify node f p = some n →
      ∃ m, tree p = some m ∧ n.parent = m.parent ∧ n.name = m.name ∧ n.children = m.children := by
    intro p n hn
    simp only [Tree.modify] at hn
    split at hn
    case isTrue =>
      obtain ⟨m, hm, rfl⟩ := Option.map_eq_some_iff.mp hn
      exact ⟨m, hm, hf m⟩
    case isFalse => exact ⟨n, hn, rfl, rfl, rfl⟩
  constructor
  case root     => exact has_modify.mpr h.root
  case parent   =>
    intro p n hn
    obtain ⟨m, hm, hp, _⟩ := hsome hn
    exact hp.trans (h.parent hm)
  case name     =>
    intro p n hn
    obtain ⟨m, hm, _, hp, _⟩ := hsome hn
    exact hp.trans (h.name hm)
  case children =>
    intro p n k hn
    obtain ⟨m, hm, _, _, hp⟩ := hsome hn
    rw [hp, has_modify, h.children hm]
  case nodup    =>
    intro p n hn
    obtain ⟨m, hm, _, _, hp⟩ := hsome hn
    exact hp ▸ h.nodup hm
  case inner    =>
    intro p k hk
    exact has_modify.mpr (h.inner (has_modify.mp hk))

theorem insertChild (h : tree.Linked) (hn : tree.Has node) (hk : ¬tree.Has (node ++ [k])) :
    (tree.insertChild node k { parent := some node, name := k }).Linked := by
  have hsome : ∀ {p n}, tree.insertChild node k { parent := some node, name := k } p = some n →
      p = node ++ [k] ∧ n = { parent := some node, name := k } ∨
      ∃ m, tree p = some m ∧ n.parent = m.parent ∧ n.name = m.name ∧
        n.children = if p = node then m.children ++ [k] else m.children := by
    intro p n hn
    simp only [Tree.insertChild] at hn
    split at hn
    case isTrue hp => cases hn; exact .inl ⟨hp, rfl⟩
    case isFalse   =>
      split at hn
      case isTrue hp =>
        obtain ⟨m, hm, rfl⟩ := Option.map_eq_some_iff.mp hn
        exact .inr ⟨m, hm, rfl, rfl, by simp [hp]⟩
      case isFalse hp => exact .inr ⟨n, hn, rfl, rfl, by simp [hp]⟩
  constructor
  case root     => exact has_insertChild.mpr (.inl h.root)
  case parent   =>
    intro p n hn
    cases hsome hn
    case inl hp =>
      obtain ⟨rfl, rfl⟩ := hp
      exact parentOf_append.symm
    case inr hp =>
      obtain ⟨m, hm, hp, _⟩ := hp
      exact hp.trans (h.parent hm)
  case name     =>
    intro p n hn
    cases hsome hn
    case inl hp =>
      obtain ⟨rfl, rfl⟩ := hp
      simp
    case inr hp =>
      obtain ⟨m, hm, _, hp, _⟩ := hp
      exact hp.trans (h.name hm)
  case children =>
    intro p n j hn
    rw [has_insertChild]
    cases hsome hn
    case inl hp =>
      obtain ⟨rfl, rfl⟩ := hp
      have : ¬tree.Has (node ++ [k] ++ [j]) := fun hj => hk (h.inner hj)
      simpa using this
    case inr hp =>
      obtain ⟨m, hm, _, _, hp⟩ := hp
      rw [hp, ← h.children hm]
      by_cases hpn : p = node
      case pos => simp [hpn]
      case neg => simp [hpn]
  case nodup    =>
    intro p n hn
    cases hsome hn
    case inl hp =>
      obtain ⟨rfl, rfl⟩ := hp
      exact List.nodup_nil
    case inr hp =>
      obtain ⟨m, hm, _, _, hp⟩ := hp
      rw [hp]
      split
      case isTrue hpn =>
        subst hpn
        have : k ∉ m.children := fun hj => hk ((h.children hm).mp hj)
        simpa [List.nodup_append, h.nodup hm] using fun j hj => ne_of_mem_of_not_mem hj this
      case isFalse => exact h.nodup hm
  case inner    =>
    intro p j hj
    cases has_insertChild.mp hj
    case inl hj => exact has_insertChild.mpr (.inl (h.inner hj))
    case inr hj =>
      obtain ⟨rfl, _⟩ := List.append_inj' hj rfl
      exact has_insertChild.mpr (.inl hn)

theorem removeChild (h : tree.Linked) : (tree.removeChild node k).Linked := by
  have hsome : ∀ {p n}, tree.removeChild node k p = some n → ¬node ++ [k] <+: p ∧
      ∃ m, tree p = some m ∧ n.parent = m.parent ∧ n.name = m.name ∧
        n.children = if p = node then m.children.erase k else m.children := by
    intro p n hn
    simp only [Tree.removeChild] at hn
    split at hn
    case isTrue     => cases hn
    case isFalse hp =>
      refine ⟨hp, ?_⟩
      split at hn
      case isTrue hp =>
        obtain ⟨m, hm, rfl⟩ := Option.map_eq_some_iff.mp hn
        exact ⟨m, hm, rfl, rfl, by simp [hp]⟩
      case isFalse hp => exact ⟨n, hn, rfl, rfl, by simp [hp]⟩
  constructor
  case root     => exact has_removeChild.mpr ⟨h.root, by simp⟩
  case parent   =>
    intro p n hn
    obtain ⟨_, m, hm, hp, _⟩ := hsome hn
    exact hp.trans (h.parent hm)
  case name     =>
    intro p n hn
    obtain ⟨_, m, hm, _, hp, _⟩ := hsome hn
    exact hp.trans (h.name hm)
  case children =>
    intro p n j hn
    obtain ⟨hnp, m, hm, _, _, hp⟩ := hsome hn
    rw [hp, has_removeChild, ← h.children hm, List.prefix_concat_iff]
    by_cases hpn : p = node
    case pos =>
      subst hpn
      simp [(h.nodup hm).mem_erase_iff, hnp, eq_comm, and_comm]
    case neg =>
      have : ¬(node ++ [k] = p ++ [j]) := fun he => hpn (List.append_inj' he rfl).left.symm
      simp [hpn, hnp, this]
  case nodup    =>
    intro p n hn
    obtain ⟨_, m, hm, _, _, hp⟩ := hsome hn
    rw [hp]
    split
    case isTrue  => exact (h.nodup hm).erase k
    case isFalse => exact h.nodup hm
  case inner    =>
    intro p j hj
    obtain ⟨hj, hn⟩ := has_removeChild.mp hj
    exact has_removeChild.mpr ⟨h.inner hj, fun hp => hn (hp.trans (List.prefix_append _ _))⟩

theorem createLoop_eq (h : tree.Linked) (hn : tree.Has node) : ∃ tree',
    tree.createLoop node parts = .ok (tree', node ++ parts) ∧ tree'.Linked ∧
    (∀ p, tree'.Has p ↔ tree.Has p ∨ p <+: node ++ parts) ∧
    ∀ p, tree'.terminalsAt p = tree.terminalsAt p := by
  induction parts generalizing tree node
  case nil =>
    refine ⟨tree, by simp [createLoop], h, fun p => ?_, fun _ => rfl⟩
    simpa using fun hp => has_of_prefix h hp hn
  case cons k parts ih =>
    obtain ⟨n, hn'⟩ := hn
    simp only [createLoop, deref_of_has hn', Except.ok_bind]
    have happ : node ++ k :: parts = node ++ [k] ++ parts := by simp
    split
    case isTrue hk =>
      rw [happ]
      exact ih h ((h.children hn').mp hk)
    case isFalse hk =>
      have hk : ¬tree.Has (node ++ [k]) := fun hj => hk ((h.children hn').mpr hj)
      obtain ⟨tree', hc, hl, hhas, hts⟩ :=
        ih (h.insertChild ⟨n, hn'⟩ hk) (has_insertChild.mpr (.inr rfl))
      rw [happ]
      refine ⟨tree', hc, hl, fun p => ?_, fun p => (hts p).trans (terminalsAt_insertChild rfl hk)⟩
      rw [hhas, has_insertChild, or_assoc]
      refine or_congr_right ⟨?_, .inr⟩
      rintro (rfl | hp)
      case inl => exact List.prefix_append _ _
      case inr => exact hp

-- Nothing is created if the place is there already.
theorem createLoop_of_has (h : tree.Linked) (hn : tree.Has (node ++ parts)) :
    tree.createLoop node parts = .ok (tree, node ++ parts) := by
  induction parts generalizing node
  case nil => simp [createLoop]
  case cons k parts ih =>
    have happ : node ++ k :: parts = node ++ [k] ++ parts := by simp
    rw [happ] at hn ⊢
    have hk := has_of_prefix h (List.prefix_append (node ++ [k]) parts) hn
    obtain ⟨n, hn'⟩ := h.inner hk
    simp only [createLoop, deref_of_has hn', Except.ok_bind, (h.children hn').mpr hk, if_true]
    exact ih hn

theorem findLoop_of_has (h : tree.Linked) (hn : tree.Has (node ++ parts)) :
    tree.findLoop node parts = .ok (some (node ++ parts)) := by
  induction parts generalizing node
  case nil => simp [findLoop]
  case cons k parts ih =>
    have happ : node ++ k :: parts = node ++ [k] ++ parts := by simp
    rw [happ] at hn ⊢
    have hk := has_of_prefix h (List.prefix_append (node ++ [k]) parts) hn
    obtain ⟨n, hn'⟩ := h.inner hk
    simp only [findLoop, deref_of_has hn', Except.ok_bind, (h.children hn').mpr hk, if_true]
    exact ih hn

end Linked

theorem Live.of_prefix (h : tree.Live q) (hp : p <+: q) : tree.Live p := by
  cases h
  case inl hq =>
    subst hq
    exact .inl (List.prefix_nil.mp hp)
  case inr hq =>
    obtain ⟨r, hr, ht⟩ := hq
    exact .inr ⟨r, hp.trans hr, ht⟩

theorem Live.has (h : tree.Live p) (hl : tree.Linked) : tree.Has p := by
  cases h
  case inl hp =>
    subst hp
    exact hl.root
  case inr hp =>
    obtain ⟨q, hp, ht⟩ := hp
    exact hl.has_of_prefix hp (has_of_terminalsAt ht)

theorem live_congr (h : ∀ p, tree'.terminalsAt p = tree.terminalsAt p) : tree'.Live p ↔ tree.Live p := by
  simp only [Live, h]

-- The loop removes what is not needed on the way to the node where it begins.
theorem Linked.pruneLoop_eq {fuel} (h : tree.Linked) (hn : tree.Has node) (hf : node.length < fuel)
    (hl : ∀ p, tree.Has p → tree.Live p ∨ p <+: node) : ∃ tree',
    pruneLoop fuel tree node = .ok tree' ∧ tree'.Linked ∧ (∀ p, tree'.Has p ↔ tree'.Live p) ∧
    ∀ p, tree'.terminalsAt p = tree.terminalsAt p := by
  induction fuel generalizing tree node
  case zero => omega
  case succ fuel ih =>
    have done : tree.Live node → ∃ tree', (.ok tree : Except TreeFault Tree) = .ok tree' ∧ tree'.Linked ∧
        (∀ p, tree'.Has p ↔ tree'.Live p) ∧ ∀ p, tree'.terminalsAt p = tree.terminalsAt p := by
      intro hlive
      refine ⟨tree, rfl, h, fun p => ⟨fun hp => ?_, fun hp => hp.has h⟩, fun _ => rfl⟩
      exact (hl p hp).elim id hlive.of_prefix
    obtain ⟨n, hn'⟩ := hn
    simp only [pruneLoop, deref_of_has hn', Except.ok_bind, h.parent hn', h.name hn']
    induction node using List.reverseRecOn
    case nil                         => exact done (.inl rfl)
    case append_singleton parent k _ =>
      simp only [parentOf_append, List.getLast?_concat, Option.getD_some]
      have hk : tree.Has (parent ++ [k]) := ⟨n, hn'⟩
      split
      case isFalse hne =>
        refine done ?_
        by_cases ht : n.terminals = []
        case neg => exact .inr ⟨_, List.prefix_rfl, by rwa [terminalsAt_of_some hn']⟩
        case pos =>
          obtain ⟨j, hj⟩ := List.exists_mem_of_ne_nil _ fun hc => hne ⟨ht, hc⟩
          cases hl _ ((h.children hn').mp hj)
          case inl hj => exact hj.of_prefix (List.prefix_append _ _)
          case inr hj => simpa using hj.length_le
      case isTrue hempty =>
        obtain ⟨m, hm⟩ := h.inner hk
        simp only [deref_of_has hm, Except.ok_bind, (h.children hm).mpr hk, if_true]
        have hts : ∀ p, (tree.removeChild parent k).terminalsAt p = tree.terminalsAt p := by
          intro p
          refine terminalsAt_removeChild fun hpre => ?_
          by_contra ht
          obtain rfl := h.eq_of_children_nil hn' hempty.right hpre (has_of_terminalsAt ht)
          exact ht ((terminalsAt_of_some hn').trans hempty.left)
        have hparent : (tree.removeChild parent k).Has parent :=
          has_removeChild.mpr ⟨⟨m, hm⟩, fun hp => by simpa using hp.length_le⟩
        have hl : ∀ p, (tree.removeChild parent k).Has p →
            (tree.removeChild parent k).Live p ∨ p <+: parent := by
          intro p hp
          obtain ⟨hp, hnp⟩ := has_removeChild.mp hp
          rw [live_congr hts]
          refine (hl p hp).imp_right fun hpre => ?_
          cases List.prefix_concat_iff.mp hpre
          case inl he  => exact absurd (he ▸ List.prefix_rfl) hnp
          case inr hpp => exact hpp
        obtain ⟨tree', ht, hl', hlive, hts'⟩ := ih h.removeChild hparent (by simp at hf; omega) hl
        exact ⟨tree', ht, hl', hlive, fun p => (hts' p).trans (hts p)⟩

end Tree

-- The `terminal_info` of a terminal.
structure Terminal where
  type      : TerminalType
  signature : UInt32
  name      : Text
  deriving DecidableEq

def Terminal.info (t : Terminal) : TerminalInfo :=
  { type := t.type, signature := t.signature }

structure State where
  terminals             : List Terminal := []
  absoluteTerminalsTree : Tree          := .empty
  relativeTerminalsTree : Tree          := .empty

-- `name.startsWith('/')`
def isAbsolute (name : Text) : Bool :=
  name.head? = some '/'

namespace State

def tree (s : State) (absolute : Bool) : Tree :=
  if absolute then s.absoluteTerminalsTree else s.relativeTerminalsTree

def setTree (s : State) (absolute : Bool) (tree : Tree) : State :=
  if absolute then { s with absoluteTerminalsTree := tree } else { s with relativeTerminalsTree := tree }

end State

def findParts (path : Text) : List Text :=
  if isAbsolute path then path.tail.splitOn '/' else path.splitOn '/'

def findSubtree (root : Tree) (path : Text) : Except TreeFault (Option Place) :=
  if path = [] ∨ path = ['/'] then .ok (some []) else root.findLoop [] (findParts path)

def createParts (path : Text) : List Text :=
  let parts := path.splitOn '/'
  if parts.head? = some [] then parts.tail else parts

def createSubtree (s : State) (path : Text) : Except TreeFault (State × Place) := do
  let (tree, node) ← (s.tree (isAbsolute path)).createLoop [] (createParts path)
  return (s.setTree (isAbsolute path) tree, node)

def addTerminal (s : State) (t : Terminal) : Except TreeFault State := do
  if t ∈ s.terminals then
    .error .assertion
  else
    let s := { s with terminals := s.terminals ++ [t] }
    let (s, node) ← createSubtree s t.name
    let append := fun n : TreeNode => { n with terminals := n.terminals ++ [t.info] }
    return s.setTree (isAbsolute t.name) ((s.tree (isAbsolute t.name)).modify node append)

def removeTerminal (s : State) (t : Terminal) : Except TreeFault State := do
  if t ∉ s.terminals then
    .error .assertion
  else
    let s := { s with terminals := s.terminals.erase t }
    let root := s.tree (isAbsolute t.name)
    match ← findSubtree root t.name with
    | none      => .error .assertion
    | some node =>
      let n ← root.deref node
      if t.info ∉ n.terminals then
        .error .assertion
      else
        let remove := fun n : TreeNode => { n with terminals := n.terminals.erase t.info }
        let tree ← Tree.pruneLoop (node.length + 1) (root.modify node remove) node
        return s.setTree (isAbsolute t.name) tree

inductive ChangeType
  | added
  | removed
  deriving DecidableEq

structure Notification where
  terminal : Terminal
  change   : ChangeType

def updateKnownTerminalsState (s : State) (n : Notification) : Except TreeFault State :=
  match n.change with
  | .added   => addTerminal s n.terminal
  | .removed => removeTerminal s n.terminal

-- A terminal is added only when absent and removed only when present.
def notifications : Machine State Notification TreeFault where
  init s      := s = {}
  enabled s n := n.change = .added ↔ n.terminal ∉ s.terminals
  step        := updateKnownTerminalsState

-- The components of a name.
def components (name : Text) : Place :=
  if name = [] then [] else if isAbsolute name then name.tail.splitOn '/' else name.splitOn '/'

-- What is to be found at a place of a tree.
def placed (ts : List Terminal) (absolute : Bool) (p : Place) : List TerminalInfo :=
  (ts.filter fun t => isAbsolute t.name = absolute ∧ components t.name = p).map Terminal.info

structure Correct (s : State) : Prop where
  linked    : ∀ a, (s.tree a).Linked
  trie      : ∀ a p, (s.tree a).Has p ↔
    p = [] ∨ ∃ t ∈ s.terminals, isAbsolute t.name = a ∧ p <+: components t.name
  terminals : ∀ {a p n}, s.tree a p = some n → n.terminals.Perm (placed s.terminals a p)
  found     : ∀ {t}, t ∈ s.terminals → ∃ node n,
    findSubtree (s.tree (isAbsolute t.name)) t.name = .ok (some node) ∧
    createSubtree s t.name = .ok (s, node) ∧
    s.tree (isAbsolute t.name) node = some n ∧
    n.terminals.Perm ((s.terminals.filter fun t' => t'.name = t.name).map Terminal.info)
  leaves    : ∀ {a p n}, s.tree a p = some n → n.children = [] → p ≠ [] → n.terminals ≠ []

structure TreeNode.Alike (n n' : TreeNode) : Prop where
  parent    : n.parent = n'.parent
  name      : n.name = n'.name
  children  : n.children.Perm n'.children
  terminals : n.terminals.Perm n'.terminals

-- The trees differ in nothing but the order of the terminals of a node.
def Alike (s s' : State) : Prop :=
  ∀ a p, Option.Rel TreeNode.Alike (s.tree a p) (s'.tree a p)

section

variable {s s' : State} {t : Terminal} {name name' : Text} {a : Bool} {p : Place} {ts ts' : List Terminal}

@[simp] theorem State.tree_setTree {tree : Tree} :
    (s.setTree a tree).tree = Function.update s.tree a tree := by
  funext b
  cases a <;> cases b <;> rfl

@[simp] theorem State.terminals_setTree {tree : Tree} : (s.setTree a tree).terminals = s.terminals := by
  cases a <;> rfl

@[simp] theorem State.tree_terminals : State.tree { s with terminals := ts } = s.tree :=
  rfl

@[simp] theorem State.setTree_setTree {tree tree' : Tree} :
    (s.setTree a tree).setTree a tree' = s.setTree a tree' := by
  cases a <;> rfl

@[simp] theorem State.setTree_tree : s.setTree a (s.tree a) = s := by
  cases a <;> rfl

theorem createParts_eq : createParts name = components name := by
  cases name
  case nil       => rfl
  case cons c cs =>
    by_cases hc : c = '/'
    case pos => simp [createParts, components, isAbsolute, hc, List.splitOn_cons_eq_if_modifyHead]
    case neg =>
      obtain ⟨part, parts, h⟩ := List.exists_cons_of_ne_nil (List.splitOn_ne_nil '/' cs)
      simp [createParts, components, isAbsolute, hc, List.splitOn_cons_eq_if_modifyHead, h]

-- The two ways to split a name agree on all names but one.
theorem findSubtree_eq {root : Tree} (h : name ≠ ['/']) :
    findSubtree root name = root.findLoop [] (components name) := by
  by_cases hn : name = []
  case pos => simp [findSubtree, components, hn, Tree.findLoop]
  case neg => simp [findSubtree, findParts, components, hn, h]

theorem components_inj (ha : isAbsolute name = isAbsolute name') (h : components name = components name') :
    name = name' := by
  have hi : ∀ {cs cs' : Text}, cs.splitOn '/' = cs'.splitOn '/' → cs = cs' := by
    intro cs cs' h
    calc cs
      _ = ['/'].intercalate (cs.splitOn '/')  := (List.intercalate_splitOn '/').symm
      _ = ['/'].intercalate (cs'.splitOn '/') := by rw [h]
      _ = cs'                                 := List.intercalate_splitOn '/'
  cases name
  case nil =>
    cases name'
    case nil  => rfl
    case cons c cs =>
      simp only [components, if_true, reduceCtorEq, if_false] at h
      split at h
      case isTrue  => exact absurd h.symm (List.splitOn_ne_nil _ _)
      case isFalse => exact absurd h.symm (List.splitOn_ne_nil _ _)
  case cons c cs =>
    cases name'
    case nil =>
      simp only [components, if_true, reduceCtorEq, if_false] at h
      split at h
      case isTrue  => exact absurd h (List.splitOn_ne_nil _ _)
      case isFalse => exact absurd h (List.splitOn_ne_nil _ _)
    case cons c' cs' =>
      simp only [components, reduceCtorEq, if_false, ← ha] at h
      split at h
      case isTrue hs =>
        have hs' := ha ▸ hs
        simp only [isAbsolute, List.head?_cons, Option.some.injEq, decide_eq_true_eq] at hs hs'
        rw [hs, hs', show cs = cs' from hi h]
      case isFalse => exact hi h

theorem placed_perm (h : ts.Perm ts') : (placed ts a p).Perm (placed ts' a p) :=
  (h.filter _).map _

theorem placed_cons : placed (t :: ts) a p =
    if isAbsolute t.name = a ∧ components t.name = p then t.info :: placed ts a p else placed ts a p := by
  simp only [placed, List.filter_cons, decide_eq_true_eq]
  split
  case isTrue  => rfl
  case isFalse => rfl

theorem placed_eq_name (ts : List Terminal) (name : Text) : placed ts (isAbsolute name) (components name) =
    (ts.filter fun t => t.name = name).map Terminal.info := by
  have : ∀ t : Terminal, (isAbsolute t.name = isAbsolute name ∧ components t.name = components name) ↔
      t.name = name :=
    fun t => ⟨fun h => components_inj h.left h.right, fun h => by simp [h]⟩
  simp only [placed, this]

theorem placed_ne_nil : placed ts a p ≠ [] ↔ ∃ t ∈ ts, isAbsolute t.name = a ∧ components t.name = p := by
  simp [placed]

-- What holds between two notifications.
structure Inv (s : State) : Prop where
  nodup  : s.terminals.Nodup
  slash  : ∀ {t}, t ∈ s.terminals → t.name ≠ ['/']
  linked : ∀ a, (s.tree a).Linked
  live   : ∀ a p, (s.tree a).Has p ↔ (s.tree a).Live p
  perm   : ∀ a p, ((s.tree a).terminalsAt p).Perm (placed s.terminals a p)

namespace Tree

theorem terminalsAt_modify {tree : Tree} {node p : Place} {f : TreeNode → TreeNode} (h : tree.Has node) :
    ∃ n, tree node = some n ∧
      (tree.modify node f).terminalsAt p = if p = node then (f n).terminals else tree.terminalsAt p := by
  obtain ⟨n, hn⟩ := h
  refine ⟨n, hn, ?_⟩
  by_cases hp : p = node
  case pos => simp [terminalsAt, modify, hp, hn]
  case neg => simp [terminalsAt, modify, hp]

end Tree

namespace Inv

theorem init : Inv {} where
  nodup  := List.nodup_nil
  slash  := by simp
  linked := by
    intro a
    cases a
    case false => exact Tree.Linked.empty
    case true  => exact Tree.Linked.empty
  live   := by
    intro a p
    have hts : ∀ q, Tree.empty.terminalsAt q = [] := by
      intro q
      simp only [Tree.terminalsAt, Tree.empty]
      split
      case h_1 n hn =>
        split at hn
        case isTrue  => cases hn; rfl
        case isFalse => cases hn
      case h_2 => rfl
    have : Tree.empty.Has p ↔ Tree.empty.Live p := by
      simp [Tree.Live, hts, Tree.Has, Tree.empty]
    cases a
    case false => exact this
    case true  => exact this
  perm   := by
    intro a p
    have : Tree.empty.terminalsAt p = [] := by
      simp only [Tree.terminalsAt, Tree.empty]
      split
      case h_1 n hn =>
        split at hn
        case isTrue  => cases hn; rfl
        case isFalse => cases hn
      case h_2 => rfl
    cases a
    case false => simp [placed, State.tree, this]
    case true  => simp [placed, State.tree, this]

-- Everything is as it should be for a terminal that is present.
theorem has (h : Inv s) (ht : t ∈ s.terminals) : (s.tree (isAbsolute t.name)).Has (components t.name) := by
  have : placed s.terminals (isAbsolute t.name) (components t.name) ≠ [] :=
    placed_ne_nil.mpr ⟨t, ht, rfl, rfl⟩
  exact Tree.has_of_terminalsAt fun hn => this ((h.perm _ _).symm.trans (.of_eq hn)).eq_nil

theorem find_eq (h : Inv s) (ht : t ∈ s.terminals) :
    findSubtree (s.tree (isAbsolute t.name)) t.name = .ok (some (components t.name)) := by
  have hf : (s.tree (isAbsolute t.name)).findLoop [] (components t.name) =
      .ok (some ([] ++ components t.name)) := (h.linked _).findLoop_of_has (h.has ht)
  rw [findSubtree_eq (h.slash ht), hf, List.nil_append]

theorem create_eq (h : Inv s) (ht : t ∈ s.terminals) :
    createSubtree s t.name = .ok (s, components t.name) := by
  have hc : (s.tree (isAbsolute t.name)).createLoop [] (components t.name) =
      .ok (s.tree (isAbsolute t.name), [] ++ components t.name) :=
    (h.linked _).createLoop_of_has (h.has ht)
  simp [createSubtree, createParts_eq, hc, pure, Except.pure]

theorem correct (h : Inv s) : Correct s where
  linked    := h.linked
  trie      := by
    intro a p
    have hne : ∀ q, (s.tree a).terminalsAt q ≠ [] ↔ placed s.terminals a q ≠ [] := by
      intro q
      exact not_congr ⟨fun hn => ((h.perm a q).symm.trans (.of_eq hn)).eq_nil,
        fun hn => ((h.perm a q).trans (.of_eq hn)).eq_nil⟩
    simp only [h.live, Tree.Live, hne, placed_ne_nil]
    refine or_congr_right (Iff.intro ?_ ?_)
    case refine_1 =>
      rintro ⟨q, hp, t, ht, ha, rfl⟩
      exact ⟨t, ht, ha, hp⟩
    case refine_2 =>
      rintro ⟨t, ht, ha, hp⟩
      exact ⟨_, hp, t, ht, ha, rfl⟩
  terminals := by
    intro a p n hn
    rw [← Tree.terminalsAt_of_some hn]
    exact h.perm a p
  found     := by
    intro t ht
    obtain ⟨n, hn⟩ := h.has ht
    refine ⟨_, n, h.find_eq ht, h.create_eq ht, hn, ?_⟩
    rw [← placed_eq_name, ← Tree.terminalsAt_of_some hn]
    exact h.perm _ _
  leaves    := by
    intro a p n hn hc hp
    have hlive := (h.live a p).mp ⟨n, hn⟩
    obtain ⟨q, hpq, hq⟩ := hlive.resolve_left hp
    obtain rfl := (h.linked a).eq_of_children_nil hn hc hpq (Tree.has_of_terminalsAt hq)
    rwa [← Tree.terminalsAt_of_some hn]

theorem setTree {tree : Tree} (h : Inv s) (hn : ts.Nodup) (hs : ∀ t ∈ ts, t.name ≠ ['/']) (hl : tree.Linked)
    (hv : ∀ p, tree.Has p ↔ tree.Live p) (hp : ∀ p, (tree.terminalsAt p).Perm (placed ts a p))
    (ho : ∀ b p, b ≠ a → (placed s.terminals b p).Perm (placed ts b p)) :
    Inv ({ s with terminals := ts }.setTree a tree) where
  nodup  := by simpa using hn
  slash  := by
    intro t ht
    exact hs t (by simpa using ht)
  linked := by
    intro b
    by_cases hb : b = a
    case pos => simpa [hb] using hl
    case neg => simpa [hb] using h.linked b
  live   := by
    intro b p
    by_cases hb : b = a
    case pos => simpa [hb] using hv p
    case neg => simpa [hb] using h.live b p
  perm   := by
    intro b p
    by_cases hb : b = a
    case pos => simpa [hb] using hp p
    case neg => simpa [hb] using (h.perm b p).trans (ho b p hb)

theorem addTerminal (h : Inv s) (ht : t ∉ s.terminals) (hs : t.name ≠ ['/']) : ∃ s',
    addTerminal s t = .ok s' ∧ Inv s' := by
  obtain ⟨tree, hc, hl, hhas, hts⟩ : ∃ tree, _ :=
    Tree.Linked.createLoop_eq (h.linked (isAbsolute t.name)) (h.linked _).root
  rw [List.nil_append] at hc hhas
  have hnode : tree.Has (components t.name) := (hhas _).mpr (.inr List.prefix_rfl)
  let append := fun n : TreeNode => { n with terminals := n.terminals ++ [t.info] }
  have hts : ∀ p, (tree.modify (components t.name) append).terminalsAt p =
      (s.tree (isAbsolute t.name)).terminalsAt p ++ if p = components t.name then [t.info] else [] := by
    intro p
    obtain ⟨n, hn, hm⟩ := Tree.terminalsAt_modify (f := append) (p := p) hnode
    rw [hm, ← hts]
    split
    case isTrue hp => rw [hp, Tree.terminalsAt_of_some hn]
    case isFalse   => simp
  have hlink : (tree.modify (components t.name) append).Linked := hl.modify fun _ => ⟨rfl, rfl, rfl⟩
  have hperm : (s.terminals ++ [t]).Perm (t :: s.terminals) := List.perm_append_singleton _ _
  refine ⟨{ s with terminals := s.terminals ++ [t] }.setTree (isAbsolute t.name)
    (tree.modify (components t.name) append), ?_,
    h.setTree ?_ ?_ hlink ?_ ?_ ?_⟩
  case refine_1 =>
    simp [KnownTerminalsService.addTerminal, ht, createSubtree, createParts_eq, hc, pure, Except.pure, append]
  case refine_2 => exact hperm.nodup_iff.mpr (List.nodup_cons.mpr ⟨ht, h.nodup⟩)
  case refine_3 =>
    intro u hu
    cases List.mem_append.mp hu
    case inl hu => exact h.slash hu
    case inr hu => exact List.mem_singleton.mp hu ▸ hs
  case refine_4 =>
    intro p
    simp only [Tree.has_modify, hhas, h.live, Tree.Live, hts, ne_eq, List.append_eq_nil_iff, not_and_or]
    constructor
    case mp =>
      rintro ((hp | ⟨q, hp, hq⟩) | hp)
      case inl.inl => exact .inl hp
      case inl.inr => exact .inr ⟨q, hp, .inl hq⟩
      case inr     => exact .inr ⟨_, hp, .inr (by simp)⟩
    case mpr =>
      rintro (hp | ⟨q, hp, hq | hq⟩)
      case inl     => exact .inl (.inl hp)
      case inr.inl => exact .inl (.inr ⟨q, hp, hq⟩)
      case inr.inr =>
        obtain rfl : q = components t.name := by simpa using hq
        exact .inr hp
  case refine_5 =>
    intro p
    rw [hts]
    refine .trans ?_ (placed_perm hperm).symm
    rw [placed_cons]
    by_cases hp : components t.name = p
    case pos => simpa [hp] using (List.perm_append_singleton _ _).trans ((h.perm _ p).cons t.info)
    case neg => simpa [hp, Ne.symm hp] using h.perm _ p
  case refine_6 =>
    intro b p hb
    refine .trans ?_ (placed_perm hperm).symm
    simp [placed_cons, Ne.symm hb]

theorem removeTerminal (h : Inv s) (ht : t ∈ s.terminals) : ∃ s',
    removeTerminal s t = .ok s' ∧ Inv s' := by
  have hhas := h.has ht
  obtain ⟨n, hn⟩ := hhas
  have hperm : s.terminals.Perm (t :: s.terminals.erase t) := List.perm_cons_erase ht
  have hinfo : ∀ p, ((s.tree (isAbsolute t.name)).terminalsAt p).Perm
      ((if p = components t.name then [t.info] else []) ++
        placed (s.terminals.erase t) (isAbsolute t.name) p) := by
    intro p
    refine ((h.perm _ p).trans (placed_perm hperm)).trans (.of_eq ?_)
    rw [placed_cons]
    by_cases hp : components t.name = p
    case pos => simp [hp]
    case neg => simp [hp, Ne.symm hp]
  let remove := fun n : TreeNode => { n with terminals := n.terminals.erase t.info }
  let root := (s.tree (isAbsolute t.name)).modify (components t.name) remove
  have hts : ∀ p, root.terminalsAt p = if p = components t.name then n.terminals.erase t.info else
      (s.tree (isAbsolute t.name)).terminalsAt p := by
    intro p
    obtain ⟨m, hm, hp⟩ := Tree.terminalsAt_modify (f := remove) (p := p) (h.has ht)
    cases hm.symm.trans hn
    exact hp
  have hmem : t.info ∈ n.terminals := by
    have := hinfo (components t.name)
    rw [Tree.terminalsAt_of_some hn] at this
    exact this.mem_iff.mpr (by simp)
  have hlink : root.Linked := (h.linked _).modify fun _ => ⟨rfl, rfl, rfl⟩
  have hl : ∀ p, root.Has p → root.Live p ∨ p <+: components t.name := by
    intro p hp
    cases (h.live _ p).mp (Tree.has_modify.mp hp)
    case inl hp => exact .inl (.inl hp)
    case inr hp =>
      obtain ⟨q, hpq, hq⟩ := hp
      by_cases hqc : q = components t.name
      case pos => exact .inr (hqc ▸ hpq)
      case neg => exact .inl (.inr ⟨q, hpq, by rwa [hts, if_neg hqc]⟩)
  obtain ⟨tree, hprune, hlinked, hlive, hts'⟩ :=
    Tree.Linked.pruneLoop_eq hlink (Tree.has_modify.mpr (h.has ht)) (Nat.lt_succ_self _) hl
  refine ⟨{ s with terminals := s.terminals.erase t }.setTree (isAbsolute t.name) tree, ?_,
    h.setTree (h.nodup.erase t) (fun u hu => h.slash (List.mem_of_mem_erase hu)) hlinked hlive ?_ ?_⟩
  case refine_1 =>
    have hprune : Tree.pruneLoop ((components t.name).length + 1) ((s.tree (isAbsolute t.name)).modify
        (components t.name) remove) (components t.name) = .ok tree := hprune
    simp [KnownTerminalsService.removeTerminal, ht, h.find_eq ht, Tree.deref_of_has hn, hmem, hprune, pure,
      Except.pure, remove]
  case refine_2 =>
    intro p
    rw [hts', hts]
    split
    case isTrue hp =>
      have := hinfo (components t.name)
      rw [Tree.terminalsAt_of_some hn, if_pos rfl] at this
      simpa [hp] using this.erase t.info
    case isFalse hp => simpa [hp] using hinfo p
  case refine_3 =>
    intro b p hb
    refine (placed_perm hperm).trans (.of_eq ?_)
    simp [placed_cons, Ne.symm hb]

end Inv

theorem Tree.Linked.alike {tree tree' : Tree} (h : tree.Linked) (h' : tree'.Linked)
    (hhas : ∀ p, tree.Has p ↔ tree'.Has p) (hts : ∀ p, (tree.terminalsAt p).Perm (tree'.terminalsAt p)) :
    Option.Rel TreeNode.Alike (tree p) (tree' p) := by
  cases hp : tree p
  case none =>
    cases hp' : tree' p
    case none    => exact .none
    case some n' =>
      obtain ⟨n, hn⟩ := (hhas p).mpr ⟨n', hp'⟩
      simp [hp] at hn
  case some n =>
    obtain ⟨n', hp'⟩ := (hhas p).mp ⟨n, hp⟩
    rw [hp']
    refine .some ?_
    constructor
    case parent    => rw [h.parent hp, h'.parent hp']
    case name      => rw [h.name hp, h'.name hp']
    case children  =>
      refine (List.perm_ext_iff_of_nodup (h.nodup hp) (h'.nodup hp')).mpr fun k => ?_
      rw [h.children hp, h'.children hp', hhas]
    case terminals =>
      have := hts p
      rwa [Tree.terminalsAt_of_some hp, Tree.terminalsAt_of_some hp'] at this

theorem Inv.alike (h : Inv s) (h' : Inv s') (hmem : ∀ t, t ∈ s.terminals ↔ t ∈ s'.terminals) :
    Alike s s' := by
  intro a p
  have hp := (List.perm_ext_iff_of_nodup h.nodup h'.nodup).mpr hmem
  have hts : ∀ p, ((s.tree a).terminalsAt p).Perm ((s'.tree a).terminalsAt p) :=
    fun p => ((h.perm a p).trans (placed_perm hp)).trans (h'.perm a p).symm
  have hne : ∀ p, (s.tree a).terminalsAt p ≠ [] ↔ (s'.tree a).terminalsAt p ≠ [] :=
    fun p => not_congr ⟨fun hn => ((hts p).symm.trans (.of_eq hn)).eq_nil,
      fun hn => ((hts p).trans (.of_eq hn)).eq_nil⟩
  refine (h.linked a).alike (h'.linked a) (fun p => ?_) hts
  simp only [h.live, h'.live, Tree.Live, hne]

theorem Inv.step {n} (h : Inv s) (he : notifications.enabled s n) (hn : n.terminal.name ≠ ['/']) :
    ∃ s', notifications.step s n = .ok s' ∧ Inv s' := by
  obtain ⟨t, change⟩ := n
  cases change
  case added   => exact h.addTerminal (he.mp rfl) hn
  case removed =>
    have ht : t ∈ s.terminals := by
      by_contra ht
      exact ChangeType.noConfusion (he.mpr ht)
    exact h.removeTerminal ht

theorem inv_of_reachable
    (h : (notifications.restrict fun _ n => n.terminal.name ≠ ['/']).Reachable s) : Inv s := by
  refine h.preserves ?_ ?_
  case refine_1 =>
    rintro _ rfl
    exact .init
  case refine_2 =>
    intro s n s' hi he hs
    obtain ⟨s'', hs', hi'⟩ := hi.step he.left he.right
    cases hs.symm.trans hs'
    exact hi'

theorem Tree.createLoop_node {tree : Tree} {node : Place} {parts} :
    (tree.createLoop node parts).Returns fun r => r.2 = node ++ parts := by
  induction parts generalizing tree node
  case nil => exact .ok (by simp)
  case cons k parts ih =>
    refine .bind' fun n => .ite (fun _ => ?_) (fun _ => ?_)
    case refine_1 => exact ih.imp fun r hr => by simpa using hr
    case refine_2 => exact ih.imp fun r hr => by simpa using hr

-- The node that is found for "/" is the root, the one that is made for it a child without a name.
theorem not_correct_of_slash (h : t ∈ s.terminals) (hn : t.name = ['/']) : ¬Correct s := by
  intro hc
  obtain ⟨node, n, hf, hcr, _⟩ := hc.found h
  rw [hn] at hf hcr
  cases (show findSubtree (s.tree (isAbsolute ['/'])) ['/'] = .ok (some []) from rfl).symm.trans hf
  obtain ⟨r, hr, he⟩ := Except.bind_eq_ok.mp hcr
  have hr := Tree.createLoop_node r hr
  have he : r.2 = [] := congrArg Prod.snd (Except.ok.inj he)
  exact absurd (he.symm.trans hr) (by decide)

theorem mem_of_addTerminal : (addTerminal s t).Returns fun s' => t ∈ s'.terminals := by
  refine .ite (fun _ => .error) fun _ => .bind ?_ fun r hr => .pure (by simpa using hr)
  exact .bind' fun tree => .pure (by simp)

-- The next notification does what is expected of it if and only if the name of the terminal is not "/".
theorem trees_are_tries (s : State)
    (h : (notifications.restrict fun _ n => n.terminal.name ≠ ['/']).Reachable s) :
    Correct s ∧
    (∀ n, notifications.enabled s n →
      ((∃ s', notifications.step s n = .ok s' ∧ Correct s') ↔ n.terminal.name ≠ ['/'])) ∧
    ∀ s', (notifications.restrict fun _ n => n.terminal.name ≠ ['/']).Reachable s' →
      (∀ t, t ∈ s.terminals ↔ t ∈ s'.terminals) → Alike s s' := by
  have hi := inv_of_reachable h
  refine ⟨hi.correct, fun n he => ⟨?_, fun hn => ?_⟩, fun s' h' hmem => hi.alike (inv_of_reachable h') hmem⟩
  case refine_1 =>
    rintro ⟨s', hs, hc⟩ hn
    obtain ⟨t, change⟩ := n
    cases change
    case added   => exact not_correct_of_slash (mem_of_addTerminal s' hs) hn hc
    case removed =>
      have ht : t ∈ s.terminals := by
        by_contra ht
        exact ChangeType.noConfusion (he.mpr ht)
      exact hi.slash ht hn
  case refine_2 =>
    obtain ⟨s', hs, hi'⟩ := hi.step he hn
    exact ⟨s', hs, hi'.correct⟩

end

instance {s n} : Decidable (notifications.enabled s n) :=
  inferInstanceAs (Decidable (_ ↔ _))

instance {s n} : Decidable ((notifications.restrict fun _ n => n.terminal.name ≠ ['/']).enabled s n) :=
  inferInstanceAs (Decidable (_ ∧ _))

def slashAdded : Notification :=
  { terminal := { type := .publishSubscribe, signature := 1, name := ['/'] }, change := .added }

theorem slash_removed_fails : ¬∀ s n, notifications.Reachable s → notifications.enabled s n →
    ∃ s', notifications.step s n = .ok s' := by
  intro h
  obtain ⟨s, hs⟩ : ∃ s, notifications.run {} [slashAdded] = some s := ⟨_, rfl⟩
  have hr : notifications.Reachable s := .of_run (.init rfl) hs
  cases hs
  obtain ⟨s', hs'⟩ := h _ { slashAdded with change := .removed } hr (by decide)
  cases hs'

theorem trees_are_tries_shared : ∃ s, Correct s ∧ s.terminals.length = 2 := by
  let t : Terminal := { type := .deafMute, signature := 1, name := "/a/".toList }
  let u : Terminal := { type := .publishSubscribe, signature := 2, name := "/a".toList }
  obtain ⟨s, hs⟩ : ∃ s, (notifications.restrict fun _ n => n.terminal.name ≠ ['/']).run {}
    [⟨t, .added⟩, ⟨u, .added⟩] = some s := ⟨_, rfl⟩
  have hc : Correct s := (trees_are_tries s (.of_run (.init rfl) hs)).left
  cases hs
  exact ⟨_, hc, rfl⟩

end Yogi.Hub.KnownTerminalsService
