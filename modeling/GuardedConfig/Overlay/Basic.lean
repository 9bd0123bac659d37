import GuardedConfig.Overlay.Declared
import GuardedConfig.Overlay.Listing
import GuardedConfig.Rule.Resolve

/-!
# Trees read through their rules

An overlay reads a tree so that a rule-bearing node shows the value that its rules give in the
context of the moment, and any other node its own value. The context is asked for once for every
rule set that is read, after the set has been found well declared. The first error ends a reading
of several nodes.

Flattening lists all values below a node by their paths. It goes on by the text of the paths, which
follows the tree only as far as paths lead to the nodes that they name. A child of the root with the
empty key has the path of the root: there flattening starts again, and it ends only if a reading
fails at last. If it never ends, nothing is returned.

Results:
* `value_of_plain`: a node without rules is read straight from the tree, with no question asked.
* `value_of_malformed`: badly declared rules are refused before the context is asked for.
* `value_of_rules`: a node with well declared rules is read by resolving them.
-/

namespace GuardedConfig

/-- A tree with what is needed to read it through its rules, over a state of type `σ`. -/
structure Overlay (σ : Type) where
  tree : Tree
  keys : RuleKeys
  /-- Gives the context of the moment, if there is one. -/
  context : StateM σ (Option Context)
  ask : Evaluator σ

namespace Overlay

variable {σ : Type}

/-- The value of the rules at a path that bears rules. -/
def resolveAt (o : Overlay σ) (path : String) : Attempt σ (Option String) := do
  let rules ← ExceptT.mk (pure (o.tree.ruleSetAt o.keys (Path.combine path o.keys.marker)))
  let context ← ExceptT.lift o.context
  rules.resolve context o.ask

/-- The value at a path. -/
def value (o : Overlay σ) (path : String) : Attempt σ (Option String) :=
  if o.tree.bearsRules o.keys path then o.resolveAt path else pure (o.tree.value path)

/-- The paths of the children of a node, with their values. -/
def children (o : Overlay σ) (parent : String) : Attempt σ (List (String × Option String)) :=
  (o.tree.childKeys parent).mapM fun k => do
    let path := Path.combine parent k
    let v ← o.value path
    pure (path, v)

/-- Goes through children of a node with a listing to write to, and returns what became of it, if
this ends. The value of a child is read before what is below the child, and written after it.
Markers and what is below them are left out. -/
def flattenThrough (o : Overlay σ) (parent : String) (keys : List String) (l : Listing) (s : σ) :
    Option (Except RuleError Listing × σ) :=
  match keys with
  | [] => some (.ok l, s)
  | k :: keys =>
    if k = o.keys.marker then o |>.flattenThrough parent keys l s
    else
      let path := Path.combine parent k
      match o.value path s with
      | (.error e, s) => some (.error e, s)
      | (.ok v, s) => do
        match ← o |>.flattenThrough path (o.tree.childKeys path) l s with
        | (.error e, s) => some (.error e, s)
        | (.ok below, s) =>
          o |>.flattenThrough parent keys (v.elim below (Listing.put path · below)) s
partial_fixpoint

/-- The values below a node by their paths, if the recursion ends. -/
def flatten (o : Overlay σ) (parent : String) (s : σ) : Option (Except RuleError Listing × σ) :=
  o.flattenThrough parent (o.tree.childKeys parent) [] s

theorem value_of_plain {o : Overlay σ} {path : String}
    (h : o.tree.bearsRules o.keys path = false) (state : σ) :
    o.value path state = (.ok (o.tree.value path), state) := by
  simp only [value, h]
  rfl

theorem value_of_malformed {o : Overlay σ} {path : String} {e : RuleError}
    (hbears : o.tree.bearsRules o.keys path = true)
    (herror : o.tree.ruleSetAt o.keys (Path.combine path o.keys.marker) = .error e) (state : σ) :
    o.value path state = (.error e, state) := by
  simp only [value, hbears, resolveAt, herror]
  rfl

theorem value_of_rules {o : Overlay σ} {path : String} {rules : RuleSet}
    (hbears : o.tree.bearsRules o.keys path = true)
    (hrules : o.tree.ruleSetAt o.keys (Path.combine path o.keys.marker) = .ok rules) (state : σ) :
    o.value path state =
      rules.resolve (o.context state).1 o.ask (o.context state).2 := by
  simp only [value, hbears, resolveAt, hrules]
  rfl

end Overlay

end GuardedConfig
