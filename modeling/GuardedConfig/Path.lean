import GuardedConfig.Text.Pieces

/-!
# Paths of a configuration tree

A path is the keys from the root down to a node, with colons between them; the root has the empty
path. A key may hold colons itself, and then stands for the path that it spells.

Results:
* `segments_empty`, `segments_of_ne`: the keys of a path are its pieces, but the root has none.
-/

namespace GuardedConfig.Path

/-- The path of a key below a node. Below the root a key is its own path. -/
def combine (parent key : String) : String :=
  if parent = "" then key else parent ++ ":" ++ key

/-- The keys on the way to a path. -/
def segments (path : String) : List String :=
  if path = "" then [] else Pieces.cut ':' path

/-- The last key of a path. -/
def keyOf (path : String) : String :=
  (Pieces.cut ':' path).getLastD ""

theorem segments_empty : segments "" = [] := rfl

theorem segments_of_ne {path : String} (h : path ≠ "") : segments path = Pieces.cut ':' path := by
  simp [segments, h]

theorem combine_empty (key : String) : combine "" key = key := rfl

end GuardedConfig.Path
