import GuardedConfig.Tree.Basic

/-!
# Listing the nodes of a tree

All nodes reached from the root by paths, each before what is below it. The listing goes on by the
text of the paths: a key with a colon is looked up as the path that it spells, so it may lead to
another node than the one that has it, or to none. A key that leads back to its own node, as the
empty key at the root does, is not followed. Any other step makes the path longer by a key at least,
which ends the listing below the lowest level.
-/

namespace GuardedConfig.Tree

/-- A node in a listing. -/
structure Entry where
  path : String
  value : Option String
  childKeys : List String
  deriving DecidableEq

/-- The nodes from a path on, `fuel` levels of them. -/
def listFrom (t : Tree) : (fuel : Nat) → (path : String) → List Entry
  | 0, _ => []
  | fuel + 1, path =>
    let keys := t.childKeys path
    let below := (keys.map (Path.combine path)).filter (· ≠ path)
    ⟨path, t.value path, keys⟩ :: below.flatMap (listFrom t fuel)

/-- All nodes from the root on. -/
def listing (t : Tree) : List Entry :=
  t.listFrom (t.height + 1) ""

end GuardedConfig.Tree
