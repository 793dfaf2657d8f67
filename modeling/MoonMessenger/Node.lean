import MoonMessenger.Json
import MoonMessenger.Lib.PathMap

/-!
# Nodes of the database

The immutable trees of the Firebase client (`FLeafNode.m`, `FChildrenNode.m`,
`FEmptyNode.m`) and the paths into them (`FPath.m`). The app sets no priorities, and they
are left out.

* `leaves_updateChild` — updating a child is writing to a path.
* `getChild_updateChild_of_not_comparable`, `getChild_updateChild_above` — what becomes of
  the other children.
-/

namespace MoonMessenger

/-- The pieces of a path, the first of them in front. -/
abbrev FPath : Type := List String

/-- `initWith:`: the path a string stands for. -/
def FPath.initWith (path : String) : FPath :=
  ((path.toList.splitOn '/').filter fun piece => !piece.isEmpty).map String.ofList

/-- A string that stands for a path of one piece. -/
def FPath.IsPiece (s : String) : Prop := s ≠ "" ∧ '/' ∉ s.toList

theorem FPath.initWith_append (a b : String) :
    initWith (a ++ "/" ++ b) = initWith a ++ initWith b := by
  rw [initWith, initWith, initWith, String.toList_append, String.toList_append, List.append_assoc]
  change ((a.toList ++ '/' :: b.toList).splitOn '/' |>.filter _).map _ = _
  rw [List.splitOn_append_cons_self, List.filter_append, List.map_append]

theorem FPath.initWith_of_isPiece {s : String} (h : IsPiece s) : initWith s = [s] := by
  have hne : s.toList ≠ [] := fun hnil => h.1 (String.toList_eq_nil_iff.mp hnil)
  rw [initWith, List.splitOn_eq_singleton h.2, List.filter_singleton]
  have hpos : (!s.toList.isEmpty) = true := by simpa using hne
  rw [hpos, cond_true, List.map_singleton, String.ofList_toList]

/-! ## Sorted dictionaries -/

/-- `FImmutableSortedDictionary`, by its entries. Nothing here depends on their order. -/
abbrev SortedDictionary (β : Type) : Type := List (String × β)

namespace SortedDictionary

variable {β : Type} {key key' : String} {value : β}

/-- `get:` -/
def get (d : SortedDictionary β) (key : String) : Option β := d.lookup key

/-- `removeKey:` -/
def removeKey (d : SortedDictionary β) (key : String) : SortedDictionary β :=
  d.filter fun p => p.1 != key

/-- `insertKey:withValue:` -/
def insertKey (d : SortedDictionary β) (key : String) (value : β) : SortedDictionary β :=
  d.removeKey key ++ [(key, value)]

@[simp] theorem get_nil : get ([] : SortedDictionary β) key = none := rfl

theorem get_cons (p : String × β) (d : SortedDictionary β) :
    get (p :: d) key = if key = p.1 then some p.2 else get d key := by
  rw [get, List.lookup_cons]
  by_cases h : key = p.1
  · rw [if_pos h, beq_iff_eq.mpr h]
  · rw [if_neg h, beq_eq_false_iff_ne.mpr h]
    rfl

theorem get_removeKey (d : SortedDictionary β) :
    (d.removeKey key).get key' = if key' = key then none else d.get key' := by
  induction d with
  | nil => simp [removeKey]
  | cons p d ih =>
    rw [removeKey, List.filter_cons]
    by_cases hp : p.1 = key
    · rw [if_neg (by simpa using hp), ← removeKey, ih, get_cons, hp]
      split <;> rfl
    · rw [if_pos (bne_iff_ne.mpr hp), ← removeKey, get_cons, get_cons, ih]
      by_cases hk : key' = p.1
      · rw [if_pos hk, if_pos hk, if_neg (hk ▸ hp)]
      · rw [if_neg hk, if_neg hk]

theorem get_insertKey (d : SortedDictionary β) :
    (d.insertKey key value).get key' = if key' = key then some value else d.get key' := by
  rw [insertKey, get, List.lookup_append, ← get, ← get, get_removeKey, get_cons]
  by_cases h : key' = key
  · rw [if_pos h, if_pos h, if_pos h, Option.none_or]
  · rw [if_neg h, if_neg h, if_neg h, get_nil, Option.or_none]

theorem mem_removeKey {d : SortedDictionary β} {p : String × β} (h : p ∈ d.removeKey key) : p ∈ d :=
  (List.mem_filter.mp h).1

theorem mem_insertKey {d : SortedDictionary β} {p : String × β} (h : p ∈ d.insertKey key value) :
    p ∈ d ∨ p = (key, value) := by
  rw [insertKey, List.mem_append, List.mem_singleton] at h
  exact h.imp_left mem_removeKey

theorem mem_of_get {d : SortedDictionary β} (h : d.get key = some value) : (key, value) ∈ d := by
  obtain ⟨before, after, rfl, -⟩ := List.lookup_eq_some_iff.mp h
  simp

theorem get_of_mem {d : SortedDictionary β} (hnd : (d.map Prod.fst).Nodup)
    (h : (key, value) ∈ d) : d.get key = some value := by
  induction d with
  | nil => exact absurd h List.not_mem_nil
  | cons p d ih =>
    rw [List.map_cons, List.nodup_cons] at hnd
    rw [get_cons]
    rcases List.mem_cons.mp h with rfl | h
    · exact if_pos rfl
    · rw [if_neg, ih hnd.2 h]
      rintro rfl
      exact hnd.1 (List.mem_map.mpr ⟨_, h, rfl⟩)

theorem nodup_removeKey {d : SortedDictionary β} (hnd : (d.map Prod.fst).Nodup) :
    ((d.removeKey key).map Prod.fst).Nodup := hnd.sublist (List.filter_sublist.map _)

theorem nodup_insertKey {d : SortedDictionary β} (hnd : (d.map Prod.fst).Nodup) :
    ((d.insertKey key value).map Prod.fst).Nodup := by
  rw [insertKey, List.map_append, List.map_singleton, ← List.concat_eq_append, List.nodup_concat]
  refine ⟨fun hmem => ?_, nodup_removeKey hnd⟩
  obtain ⟨p, hp, heq⟩ := List.mem_map.mp hmem
  exact bne_iff_ne.mp (List.mem_filter.mp hp).2 heq

theorem insertKey_ne_nil (d : SortedDictionary β) : d.insertKey key value ≠ [] := by
  simp [insertKey]

end SortedDictionary

/-! ## Nodes -/

/-- `FLeafNode.value` -/
inductive Leaf where
  | bool (b : Bool)
  | number (x : ℚ)
  | string (s : String)
  deriving DecidableEq

/-- The value that a leaf is handed over as. -/
def Leaf.val : Leaf → Json
  | bool b => .bool b
  | number x => .number x
  | string s => .string s

/-- A node: a leaf, or the children by their keys. The order of the children is no part of
the node. -/
inductive FNode where
  | leaf (value : Leaf)
  | children (children : List (String × FNode))

namespace FNode

open SortedDictionary

/-- `emptyNode`: the node without children. -/
def emptyNode : FNode := children []

/-- `isEmpty` -/
def isEmpty : FNode → Bool
  | leaf _ => false
  | children cs => cs.isEmpty

/-- `getImmediateChild` -/
def getImmediateChild (n : FNode) (childName : String) : FNode :=
  match n with
  | leaf _ => emptyNode
  | children cs => (get cs childName).getD emptyNode

/-- `getChild` -/
def getChild : FNode → FPath → FNode
  | n, [] => n
  | leaf _, _ :: _ => emptyNode
  | children cs, front :: path => ((children cs).getImmediateChild front).getChild path

/-- `updateImmediateChild`. A leaf stays what it is when told that a child is empty, and
gives way to a child that is not. -/
def updateImmediateChild (n : FNode) (childName : String) (newChildNode : FNode) : FNode :=
  match n with
  | leaf v =>
    if newChildNode.isEmpty then leaf v else children (insertKey [] childName newChildNode)
  | children cs =>
    let newChildren :=
      if newChildNode.isEmpty then removeKey cs childName else insertKey cs childName newChildNode
    if newChildren.isEmpty then emptyNode else children newChildren

/-- `updateChild` -/
def updateChild : FNode → FPath → FNode → FNode
  | _, [], newChildNode => newChildNode
  | leaf v, front :: path, newChildNode =>
    if newChildNode.isEmpty then leaf v
    else (leaf v).updateImmediateChild front (emptyNode.updateChild path newChildNode)
  | children cs, front :: path, newChildNode =>
    (children cs).updateImmediateChild front
      (((children cs).getImmediateChild front).updateChild path newChildNode)

/-- What stands at the end of each path. -/
def leaves (n : FNode) : PathMap String Leaf := fun path =>
  match n.getChild path with
  | leaf v => some v
  | children _ => none

section Leaves

variable {m n : FNode} {key key' : String} {path : FPath}

@[simp] theorem getChild_nil : n.getChild [] = n := by
  cases n <;> rfl

theorem getChild_emptyNode : emptyNode.getChild path = emptyNode := by
  induction path with
  | nil => rfl
  | cons key path ih => exact ih

theorem getChild_cons : n.getChild (key :: path) = (n.getImmediateChild key).getChild path := by
  cases n with
  | leaf v => exact getChild_emptyNode.symm
  | children cs => rfl

theorem getChild_append {path' : FPath} :
    n.getChild (path ++ path') = (n.getChild path).getChild path' := by
  induction path generalizing n with
  | nil => rw [getChild_nil, List.nil_append]
  | cons key path ih => rw [List.cons_append, getChild_cons, getChild_cons, ih]

theorem leaves_cons : n.leaves (key :: path) = (n.getImmediateChild key).leaves path := by
  rw [leaves, leaves, getChild_cons]

theorem below_leaves : PathMap.below path n.leaves = (n.getChild path).leaves := by
  funext path'
  rw [PathMap.below_apply, leaves, leaves, getChild_append]

@[simp] theorem leaves_emptyNode : emptyNode.leaves path = none := by
  rw [leaves, getChild_emptyNode]
  rfl

/-- A child that is not empty is there. -/
theorem updateImmediateChild_of_not_isEmpty (n : FNode) (key : String) (hm : m.isEmpty = false) :
    ∃ cs, n.updateImmediateChild key m = children cs ∧ cs ≠ [] := by
  cases n with
  | leaf v => exact ⟨_, by rw [updateImmediateChild, hm]; rfl, by simp [insertKey]⟩
  | children cs =>
    have hne : insertKey cs key m ≠ [] := insertKey_ne_nil cs
    refine ⟨insertKey cs key m, ?_, hne⟩
    simp only [updateImmediateChild, hm, Bool.false_eq_true, if_false]
    rw [if_neg (by simpa using hne)]

theorem isEmpty_updateImmediateChild (hm : m.isEmpty = false) :
    (n.updateImmediateChild key m).isEmpty = false := by
  obtain ⟨cs, hcs, hne⟩ := updateImmediateChild_of_not_isEmpty n key hm
  rw [hcs, isEmpty, List.isEmpty_eq_false_iff]
  exact hne

theorem getImmediateChild_updateImmediateChild (hm : m.isEmpty = false) :
    (n.updateImmediateChild key m).getImmediateChild key' =
      if key' = key then m else n.getImmediateChild key' := by
  cases n with
  | leaf v =>
    simp only [updateImmediateChild, hm, Bool.false_eq_true, if_false, getImmediateChild,
      get_insertKey, get_nil]
    split <;> rfl
  | children cs =>
    simp only [updateImmediateChild, hm, Bool.false_eq_true, if_false]
    rw [if_neg (by simp [insertKey]), getImmediateChild, get_insertKey, getImmediateChild]
    split <;> rfl

theorem leaves_updateImmediateChild_nil (hm : m.isEmpty = false) :
    (n.updateImmediateChild key m).leaves [] = none := by
  obtain ⟨cs, hcs, -⟩ := updateImmediateChild_of_not_isEmpty n key hm
  rw [hcs]
  rfl

theorem isEmpty_updateChild (hm : m.isEmpty = false) : (n.updateChild path m).isEmpty = false := by
  induction path generalizing n with
  | nil => cases n <;> exact hm
  | cons key path ih =>
    cases n with
    | leaf v =>
      rw [updateChild, hm, if_neg Bool.false_ne_true]
      exact isEmpty_updateImmediateChild ih
    | children cs => exact isEmpty_updateImmediateChild ih

/-- The two equations of `updateChild` agree for a child that is not empty. -/
theorem updateChild_cons (hm : m.isEmpty = false) : n.updateChild (key :: path) m =
    n.updateImmediateChild key ((n.getImmediateChild key).updateChild path m) := by
  cases n with
  | leaf v =>
    rw [updateChild, hm]
    rfl
  | children cs => rfl

/-- **Updating a child** is writing the tree that the child holds to the path. -/
theorem leaves_updateChild (hm : m.isEmpty = false) :
    (n.updateChild path m).leaves = PathMap.put path m.leaves n.leaves := by
  induction path generalizing n with
  | nil =>
    rw [PathMap.put_nil]
    cases n <;> rfl
  | cons key path ih =>
    rw [updateChild_cons hm]
    have hchild : ((n.getImmediateChild key).updateChild path m).isEmpty = false :=
      isEmpty_updateChild hm
    funext path'
    cases path' with
    | nil => rw [leaves_updateImmediateChild_nil hchild, PathMap.put_cons_nil]
    | cons key' path' =>
      rw [leaves_cons, getImmediateChild_updateImmediateChild hchild, PathMap.put_cons_cons]
      by_cases h : key' = key
      · subst h
        rw [if_pos rfl, if_pos rfl, ih]
        congr 1
        rw [below_leaves, getChild_cons, getChild_nil]
      · rw [if_neg h, if_neg (Ne.symm h), leaves_cons]

theorem getChild_updateChild_append (path' : FPath) (hm : m.isEmpty = false) :
    (n.updateChild path m).getChild (path ++ path') = m.getChild path' := by
  induction path generalizing n with
  | nil => cases n <;> rfl
  | cons key path ih =>
    rw [updateChild_cons hm, List.cons_append, getChild_cons,
      getImmediateChild_updateImmediateChild (isEmpty_updateChild hm), if_pos rfl, ih]

theorem getChild_updateChild_self (hm : m.isEmpty = false) :
    (n.updateChild path m).getChild path = m := by
  have happend : (n.updateChild path m).getChild (path ++ []) = m.getChild [] :=
    getChild_updateChild_append [] hm
  rwa [List.append_nil, getChild_nil] at happend

/-- An update leaves alone what its path is not comparable to. -/
theorem getChild_updateChild_of_not_comparable {path' : FPath} (hm : m.isEmpty = false)
    (h : ¬ PathMap.Comparable path path') :
    (n.updateChild path m).getChild path' = n.getChild path' := by
  induction path generalizing n path' with
  | nil => exact absurd (Or.inl <| List.nil_prefix) h
  | cons key path ih =>
    cases path' with
    | nil => exact absurd (Or.inr <| List.nil_prefix) h
    | cons key' path' =>
      rw [updateChild_cons hm, getChild_cons, getChild_cons,
        getImmediateChild_updateImmediateChild (isEmpty_updateChild hm)]
      by_cases hk : key' = key
      · subst hk
        rw [if_pos rfl, ih]
        simpa only [PathMap.Comparable, List.cons_prefix_cons, true_and] using h
      · rw [if_neg hk]

/-- Above its path it is an update of the child that holds it. -/
theorem getChild_updateChild_above {path' : FPath} (hm : m.isEmpty = false) :
    (n.updateChild (path ++ path') m).getChild path = (n.getChild path).updateChild path' m := by
  induction path generalizing n with
  | nil => rw [getChild_nil, getChild_nil, List.nil_append]
  | cons key path ih =>
    rw [List.cons_append, updateChild_cons hm, getChild_cons,
      getImmediateChild_updateImmediateChild (isEmpty_updateChild hm), if_pos rfl, ih,
      getChild_cons]

end Leaves

end FNode

end MoonMessenger
