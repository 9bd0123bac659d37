import GuardedConfig.Path

/-!
# Configuration trees

A tree of keys with texts as values. Any node may hold a value, have children, or both; the
children of a node keep the order in which they were first set. Nodes are named by paths, and a
path may lead to no node.

Results:
* `follow_append`: following two rows of keys is following one after the other.
* `value_set_self`: a value that was set is read back.
* `remove?_root`: the root cannot be removed.
-/

namespace GuardedConfig

/-- A node with everything below it. -/
inductive Tree where
  | node (value : Option String) (children : List (String × Tree))
  deriving Inhabited

namespace Tree

/-- A node without value and children. -/
def empty : Tree := node none []

/-- The value that the node itself holds. -/
def ownValue : Tree → Option String
  | node v _ => v

/-- The children of the node itself. -/
def children : Tree → List (String × Tree)
  | node _ cs => cs

/-- The node that a row of keys leads to. -/
def follow (t : Tree) : List String → Option Tree
  | [] => some t
  | k :: ks =>
    match t.children.lookup k with
    | some c => c.follow ks
    | none => none

/-- The node at a path. -/
def find? (t : Tree) (path : String) : Option Tree :=
  t.follow (Path.segments path)

/-- The value at a path. -/
def value (t : Tree) (path : String) : Option String :=
  (t.find? path).bind ownValue

/-- The keys of the children at a path, in order. There are none where there is no node. -/
def childKeys (t : Tree) (path : String) : List String :=
  match t.find? path with
  | some n => n.children.map Prod.fst
  | none => []

/-- The children with the one under a key changed. A key that is missing is added at the end, with
the change made to an empty node. -/
def alter (k : String) (f : Tree → Tree) : List (String × Tree) → List (String × Tree)
  | [] => [(k, f empty)]
  | (k', c) :: cs => if k' = k then (k', f c) :: cs else (k', c) :: alter k f cs

/-- The tree with a value set at a row of keys. Nodes on the way are made as needed. -/
def setAt (v : String) : List String → Tree → Tree
  | [], t => node (some v) t.children
  | k :: ks, t => node t.ownValue (alter k (setAt v ks) t.children)

/-- The tree with a value set at a path. -/
def set (t : Tree) (path v : String) : Tree :=
  t.setAt v (Path.segments path)

/-- The tree without the node at a row of keys, if there is such a node below the root. -/
def removeAt? : List String → Tree → Option Tree
  | [], _ => none
  | [k], t =>
    if (t.children.lookup k).isSome then
      some (node t.ownValue (t.children.filter fun c => c.1 ≠ k))
    else none
  | k :: l :: ks, t =>
    match t.children.lookup k with
    | none => none
    | some c =>
      (removeAt? (l :: ks) c).map fun c' =>
        node t.ownValue (alter k (fun _ => c') t.children)

/-- The tree without the node at a path, if there is such a node below the root. -/
def remove? (t : Tree) (path : String) : Option Tree :=
  t.removeAt? (Path.segments path)

/-- The tree with the given values set, one after the other. -/
def ofPairs (pairs : List (String × String)) : Tree :=
  pairs.foldl (fun t p => t.set p.1 p.2) empty

mutual

/-- The number of levels below the root. -/
def height : Tree → Nat
  | node _ cs => heightBelow cs

/-- The number of levels that children make. -/
def heightBelow : List (String × Tree) → Nat
  | [] => 0
  | (_, c) :: cs => max (c.height + 1) (heightBelow cs)

end

theorem follow_append (t : Tree) (ks ls : List String) :
    t.follow (ks ++ ls) = (t.follow ks).bind (·.follow ls) := by
  induction ks generalizing t with
  | nil => rfl
  | cons k ks ih =>
    simp only [List.cons_append, follow]
    split
    · exact ih _
    · rfl

theorem lookup_alter_self (k : String) (f : Tree → Tree) (cs : List (String × Tree)) :
    (alter k f cs).lookup k = some (f ((cs.lookup k).getD empty)) := by
  induction cs with
  | nil => simp [alter]
  | cons c cs ih =>
    obtain ⟨k', c⟩ := c
    simp only [alter]
    split
    · rename_i h
      simp [h]
    · rename_i h
      have hb : (k == k') = false := by simpa using Ne.symm h
      simp [List.lookup_cons, hb, ih]

theorem follow_setAt_self (v : String) (ks : List String) (t : Tree) :
    ((t.setAt v ks).follow ks).bind ownValue = some v := by
  induction ks generalizing t with
  | nil => rfl
  | cons k ks ih =>
    simp only [setAt, follow, children, lookup_alter_self]
    exact ih _

theorem value_set_self (t : Tree) (path v : String) : (t.set path v).value path = some v :=
  follow_setAt_self v _ t

theorem remove?_root (t : Tree) : t.remove? "" = none := rfl

end Tree

end GuardedConfig
