import YogiModel.Base.PtreePath

namespace Yogi.Configuration

open Ptree

-- The function that is called for a node gets the tree that is changed.
abbrev Fn := Ptree → Text → Text → Ptree → Except PathError (Bool × Ptree)

mutual

def traversePropertyTree (fn : Fn) :
    Ptree → (parentPath path : Text) → (dest : Ptree) → Except PathError Ptree
  | .node d cs, parentPath, path, dest => do
    let (iterateChildren, dest) ← fn (.node d cs) parentPath path dest
    if !iterateChildren then
      pure dest
    else
      traverseChildren fn cs path dest

def traverseChildren (fn : Fn) :
    List (Text × Ptree) → (path : Text) → (dest : Ptree) → Except PathError Ptree
  | [], _, dest           => pure dest
  | (k, t) :: cs, path, dest => do
    let dest ← traversePropertyTree fn t path (join path k) dest
    traverseChildren fn cs path dest

end

def null : Text :=
  "null".toList

def childName (childPath : Text) : Text :=
  match lastDot childPath with
  | none           => childPath
  | some (_, name) => name

def mergeNode (child : Ptree) (parentPath childPath : Text) (dest : Ptree) :
    Except PathError (Bool × Ptree) := do
  if child.data = null then
    match lastDot childPath with
    -- `parentPath.erase(npos)`
    | none => throw .outOfRange
    | some (parentPath, childName) =>
      let dest ← dest.atChild parentPath (eraseKey childName)
      pure (true, dest)
  else
    let isRoot := childPath.isEmpty
    let isArray := child.count [] != 0
    if isRoot || !isArray then
      pure (true, dest.put childPath child.data)
    else
      let dest ← dest.atChild parentPath fun t => t.addChild (childName childPath) child
      pure (false, dest)

def mergePropertyTrees (dest src : Ptree) : Except PathError Ptree :=
  traversePropertyTree mergeNode src [] [] dest

-- `parse_json_files` for the trees that have been read from the files.
def mergeFiles (trees : List Ptree) : Except PathError Ptree :=
  trees.foldlM mergePropertyTrees .empty

end Yogi.Configuration
