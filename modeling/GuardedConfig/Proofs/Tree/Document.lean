import GuardedConfig.Proofs.Text.Numeral
import GuardedConfig.Proofs.Tree.Views
import GuardedConfig.Tree.Json

/-!
# Trees of documents

A tree that is made from a document shows the document: a row of keys leads to a node of the tree
where it leads, through objects by name and through arrays by index, to a value of the document. The
node holds the text of a scalar and has the parts of an object or an array as children.

Results:
* `Json.follow_toTree`: rows lead to the nodes of the values that they lead to in the document.
* `Json.valueAt_toTree`, `Json.keysAt_toTree`: what the tree shows at a row.
* `Json.keys_itemParts`, `Json.follow_array`: the items of an array stand under the numerals.
-/

namespace GuardedConfig

namespace Json

/-- Items with their indices as keys, counting on from `i`. -/
def itemParts (i : Nat) (items : List Json) : List (String × Json) :=
  (items.zipIdx i).map fun p => (toString p.2, p.1)

/-- The values directly inside a value, with their keys. -/
def parts : Json → List (String × Json)
  | .array items => itemParts 0 items
  | .object members => members
  | _ => []

/-- The text of a scalar. There is none for a null, an object or an array. -/
def text? : Json → Option String
  | .bool b => some (if b then "true" else "false")
  | .number n => some n.text
  | .string s => some s
  | _ => none

/-- The value that a row of names and indices leads to. -/
def follow (j : Json) : List String → Option Json
  | [] => some j
  | k :: ks =>
    match j.parts.lookup k with
    | some part => part.follow ks
    | none => none

theorem itemParts_cons (i : Nat) (j : Json) (items : List Json) :
    itemParts i (j :: items) = (toString i, j) :: itemParts (i + 1) items := by
  rw [itemParts, List.zipIdx_cons, List.map_cons]
  rfl

theorem itemNodes_eq (i : Nat) (items : List Json) :
    itemNodes i items = (itemParts i items).map fun p => (p.1, p.2.toTree) := by
  induction items generalizing i with
  | nil => rfl
  | cons j items ih => rw [itemNodes, itemParts_cons, List.map_cons, ih]

theorem memberNodes_eq (members : List (String × Json)) :
    memberNodes members = members.map fun p => (p.1, p.2.toTree) := by
  induction members with
  | nil => rfl
  | cons m members ih => rw [memberNodes, List.map_cons, ih]

theorem children_toTree (j : Json) :
    j.toTree.children = j.parts.map fun p => (p.1, p.2.toTree) := by
  cases j with
  | null | bool _ | number _ | string _ => rfl
  | array items => exact itemNodes_eq 0 items
  | object members => exact memberNodes_eq members

theorem ownValue_toTree (j : Json) : j.toTree.ownValue = j.text? := by
  cases j <;> rfl

theorem lookup_parts (parts : List (String × Json)) (k : String) :
    (parts.map fun p => (p.1, p.2.toTree)).lookup k = (parts.lookup k).map toTree := by
  induction parts with
  | nil => rfl
  | cons p parts ih =>
    rw [List.map_cons, List.lookup_cons, List.lookup_cons]
    cases k == p.1
    · exact ih
    · rfl

/-- **A row leads to the node of the value that it leads to in the document**, or to none. -/
theorem follow_toTree (j : Json) (row : List String) :
    j.toTree.follow row = (j.follow row).map toTree := by
  induction row generalizing j with
  | nil => rfl
  | cons k row ih =>
    rw [Tree.follow_cons, children_toTree, lookup_parts, follow]
    cases j.parts.lookup k with
    | none => rfl
    | some part => exact ih part

theorem valueAt_toTree (j : Json) (row : List String) :
    j.toTree.valueAt row = (j.follow row).bind text? := by
  rw [Tree.valueAt, follow_toTree]
  cases j.follow row with
  | none => rfl
  | some part => exact ownValue_toTree part

theorem keysAt_toTree (j : Json) (row : List String) :
    j.toTree.keysAt row = ((j.follow row).map fun part => part.parts.map Prod.fst).getD [] := by
  rw [Tree.keysAt, follow_toTree]
  cases j.follow row with
  | none => rfl
  | some part =>
    change part.toTree.children.map Prod.fst = _
    rw [children_toTree, List.map_map]
    rfl

theorem keys_itemParts (items : List Json) :
    (itemParts 0 items).map Prod.fst = numerals items.length := by
  rw [itemParts, List.map_map, numerals, List.range_eq_range', ← List.zipIdx_map_snd 0 items,
    List.map_map]
  rfl

/-- The item under a numeral is the one with that index. -/
theorem lookup_itemParts (i n : Nat) (items : List Json) :
    (itemParts i items).lookup (toString (i + n)) = items[n]? := by
  induction items generalizing i n with
  | nil => rfl
  | cons j items ih =>
    rw [itemParts_cons, List.lookup_cons]
    cases n with
    | zero => simp
    | succ n =>
      have hne : (toString (i + (n + 1)) == toString i) = false := by
        rw [beq_eq_false_iff_ne]
        intro h
        have := toString_inj h
        omega
      rw [hne, List.getElem?_cons_succ, ← ih (i + 1) n, Nat.add_right_comm i 1 n]
      rfl

theorem follow_array (items : List Json) (n : Nat) (row : List String) :
    (array items).follow (toString n :: row) = items[n]?.bind (·.follow row) := by
  have hitem := lookup_itemParts 0 n items
  rw [Nat.zero_add] at hitem
  rw [follow, parts, hitem]
  cases items[n]? <;> rfl

end Json

theorem Tree.toTree_of_ofJson {j : Json} {t : Tree} (h : ofJson j = .ok t) : j.toTree = t := by
  cases j with
  | object members => exact Except.ok.inj h
  | null | bool _ | number _ | string _ | array _ => cases h

end GuardedConfig
