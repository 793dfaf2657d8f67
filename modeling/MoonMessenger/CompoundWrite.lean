import MoonMessenger.Node
import MoonMessenger.Lib.Overlay

/-!
# Compound writes

`FImmutableTree.m` and `FCompoundWrite.m`: pending writes, by the paths they are made to.
A tree of writes has a value where something is written, and nothing below a value.

The tree of a compound write is an `Overlay` (`FCompoundWrite.overlay`), and its operations
are those of overlays: `addWrite_eq_some`, `overlay_removeWriteAtPath`,
`completeNodeAtPath_eq_some`, `leaves_applyToNode`. No operation throws.
-/

namespace MoonMessenger

/-- `contains:` -/
def FPath.contains (path other : FPath) : Bool := path.isPrefixOf other

/-- `relativePathFrom:to:`; it throws when `inner` is not within `outer`. -/
def FPath.relativePathFrom : FPath → FPath → Option FPath
  | [], inner => some inner
  | _ :: _, [] => none
  | outerFront :: outer, innerFront :: inner =>
    if outerFront = innerFront then relativePathFrom outer inner else none

theorem FPath.contains_iff {path other : FPath} : path.contains other = true ↔ path <+: other :=
  List.isPrefixOf_iff_prefix

theorem FPath.relativePathFrom_append (outer path : FPath) :
    relativePathFrom outer (outer ++ path) = some path := by
  induction outer with
  | nil => rfl
  | cons key outer ih => rw [List.cons_append, relativePathFrom, if_pos rfl, ih]

/-- `FImmutableTree` -/
inductive FImmutableTree (α : Type) where
  | node (value : Option α) (children : List (String × FImmutableTree α))

namespace FImmutableTree

open SortedDictionary

variable {α : Type}

/-- `empty` -/
def empty : FImmutableTree α := node none []

/-- `initWithValue:` -/
def initWithValue (value : α) : FImmutableTree α := node (some value) []

/-- `isEmpty` -/
def isEmpty : FImmutableTree α → Bool
  | node value children => value.isNone && children.isEmpty

/-- `findRootMostValueAndPath:`: the first value on the way. -/
def findRootMostValueAndPath : FImmutableTree α → FPath → Option (FPath × α)
  | node (some value) _, _ => some ([], value)
  | node none _, [] => none
  | node none children, front :: relativePath =>
    match get children front with
    | some child =>
      (child.findRootMostValueAndPath relativePath).map fun found => (front :: found.1, found.2)
    | none => none

/-- `subtreeAtPath:` -/
def subtreeAtPath : FImmutableTree α → FPath → FImmutableTree α
  | t, [] => t
  | node _ children, front :: relativePath =>
    match get children front with
    | some childTree => childTree.subtreeAtPath relativePath
    | none => empty

/-- `setValue:atPath:` -/
def setValue : FImmutableTree α → α → FPath → FImmutableTree α
  | node _ children, newValue, [] => node (some newValue) children
  | node value children, newValue, front :: relativePath =>
    let child := (get children front).getD empty
    node value (insertKey children front (child.setValue newValue relativePath))

/-- `setTree:atPath:` -/
def setTree : FImmutableTree α → FImmutableTree α → FPath → FImmutableTree α
  | _, newTree, [] => newTree
  | node value children, newTree, front :: relativePath =>
    let child := (get children front).getD empty
    let newChild := child.setTree newTree relativePath
    node value
      (if newChild.isEmpty then removeKey children front else insertKey children front newChild)

/-- `valueAtPath:` -/
def valueAtPath : FImmutableTree α → FPath → Option α
  | node value _, [] => value
  | node _ children, front :: relativePath =>
    match get children front with
    | some child => child.valueAtPath relativePath
    | none => none

section ValueAtPath

variable {t t' : FImmutableTree α} {value : α} {path path' : FPath}

@[simp] theorem valueAtPath_empty : (empty : FImmutableTree α).valueAtPath path = none := by
  cases path <;> rfl

theorem valueAtPath_initWithValue :
    (initWithValue value).valueAtPath path = if path = [] then some value else none := by
  cases path <;> rfl

theorem valueAtPath_of_isEmpty (h : t.isEmpty) : t.valueAtPath path = none := by
  obtain ⟨value, children⟩ := t
  rw [isEmpty, Bool.and_eq_true, Option.isNone_iff_eq_none, List.isEmpty_iff] at h
  obtain ⟨rfl, rfl⟩ := h
  exact valueAtPath_empty

/-- A child that is not there is as good as an empty one. -/
theorem valueAtPath_cons {v : Option α} {children : SortedDictionary (FImmutableTree α)}
    {key : String} : (node v children).valueAtPath (key :: path) =
      ((get children key).getD empty).valueAtPath path := by
  rw [valueAtPath]
  cases get children key with
  | none => exact valueAtPath_empty.symm
  | some child => rfl

theorem valueAtPath_subtreeAtPath :
    (t.subtreeAtPath path).valueAtPath path' = t.valueAtPath (path ++ path') := by
  induction path generalizing t with
  | nil =>
    obtain ⟨v, children⟩ := t
    rfl
  | cons key path ih =>
    obtain ⟨v, children⟩ := t
    rw [List.cons_append, subtreeAtPath, valueAtPath]
    cases get children key with
    | none => exact valueAtPath_empty
    | some child => exact ih

theorem valueAtPath_setValue : (t.setValue value path).valueAtPath path' =
    if path' = path then some value else t.valueAtPath path' := by
  induction path generalizing t path' with
  | nil =>
    obtain ⟨v, children⟩ := t
    cases path' <;> rfl
  | cons key path ih =>
    obtain ⟨v, children⟩ := t
    rw [setValue]
    cases path' with
    | nil => rfl
    | cons key' path' =>
      rw [valueAtPath_cons, valueAtPath_cons, get_insertKey]
      by_cases h : key' = key
      · subst h
        rw [if_pos rfl, Option.getD_some, ih]
        simp only [List.cons.injEq, true_and]
      · rw [if_neg h, if_neg fun heq => h (List.cons.inj heq).1]

theorem valueAtPath_setTree : (t.setTree t' path).valueAtPath path' =
    if path <+: path' then t'.valueAtPath (path'.drop path.length) else t.valueAtPath path' := by
  induction path generalizing t path' with
  | nil =>
    obtain ⟨v, children⟩ := t
    exact (if_pos List.nil_prefix).symm
  | cons key path ih =>
    obtain ⟨v, children⟩ := t
    rw [setTree]
    cases path' with
    | nil => simp [valueAtPath]
    | cons key' path' =>
      simp only [valueAtPath_cons, List.cons_prefix_cons]
      generalize hnew : ((get children key).getD empty).setTree t' path = newChild
      have hget : ((if newChild.isEmpty then removeKey children key
          else insertKey children key newChild).get key').getD empty =
          if key' = key then (if newChild.isEmpty then empty else newChild)
          else (get children key').getD empty := by
        by_cases hempty : newChild.isEmpty
        · rw [if_pos hempty, if_pos hempty, get_removeKey]
          split <;> rfl
        · rw [if_neg hempty, if_neg hempty, get_insertKey]
          split <;> rfl
      rw [hget]
      by_cases h : key' = key
      · subst h
        have hvalue : (if newChild.isEmpty then empty else newChild).valueAtPath path' =
            newChild.valueAtPath path' := by
          split
          · rename_i hempty
            rw [valueAtPath_empty, valueAtPath_of_isEmpty hempty]
          · rfl
        rw [if_pos rfl, hvalue, ← hnew, ih]
        simp only [true_and]
        rfl
      · rw [if_neg h, if_neg fun heq => h heq.1.symm]

/-- What is found is the value at a path on the way. -/
theorem of_findRootMostValueAndPath_eq_some {found : FPath × α}
    (h : t.findRootMostValueAndPath path = some found) :
    found.1 <+: path ∧ t.valueAtPath found.1 = some found.2 := by
  induction path generalizing t found with
  | nil =>
    obtain ⟨_ | v, children⟩ := t
    · cases h
    · obtain rfl := Option.some.inj h
      exact ⟨List.nil_prefix, rfl⟩
  | cons key path ih =>
    obtain ⟨_ | v, children⟩ := t
    · rw [findRootMostValueAndPath] at h
      cases hget : get children key with
      | none => simp [hget] at h
      | some child =>
        simp only [hget] at h
        obtain ⟨found', hfound, rfl⟩ := Option.map_eq_some_iff.mp h
        obtain ⟨hle, hvalue⟩ := ih hfound
        refine ⟨List.cons_prefix_cons.mpr ⟨rfl, hle⟩, ?_⟩
        rw [valueAtPath_cons, hget]
        exact hvalue
    · obtain rfl := Option.some.inj h
      exact ⟨List.nil_prefix, rfl⟩

/-- If nothing is found there is no value on the way. -/
theorem of_findRootMostValueAndPath_eq_none (h : t.findRootMostValueAndPath path = none)
    (hle : path' <+: path) : t.valueAtPath path' = none := by
  induction path generalizing t path' with
  | nil =>
    obtain rfl := List.prefix_nil.mp hle
    obtain ⟨_ | v, children⟩ := t
    · rfl
    · cases h
  | cons key path ih =>
    obtain ⟨_ | v, children⟩ := t
    · cases path' with
      | nil => rfl
      | cons key' path' =>
        obtain ⟨rfl, hle'⟩ := List.cons_prefix_cons.mp hle
        rw [findRootMostValueAndPath] at h
        rw [valueAtPath]
        cases hget : get children key' with
        | none => rfl
        | some child =>
          simp only [hget, Option.map_eq_none_iff] at h
          exact ih h hle'
    · cases h

end ValueAtPath

/-! ## Trees of writes -/

/-- A tree that something is written in: no node that is written is empty, and nothing is
written below another write. -/
inductive WellFormed : FImmutableTree FNode → Prop
  | value {n : FNode} (hn : n.isEmpty = false) : WellFormed (node (some n) [])
  | children {cs : List (String × FImmutableTree FNode)} (hne : cs ≠ [])
      (hnd : (cs.map Prod.fst).Nodup) (h : ∀ p ∈ cs, WellFormed p.2) : WellFormed (node none cs)

/-- A tree that something or nothing is written in. -/
def Proper (t : FImmutableTree FNode) : Prop := t = empty ∨ t.WellFormed

section WellFormed

variable {t : FImmutableTree FNode} {n : FNode} {path path' : FPath} {key : String}
  {cs : List (String × FImmutableTree FNode)}

theorem proper_empty : Proper empty := Or.inl rfl

theorem WellFormed.isEmpty (h : t.WellFormed) : t.isEmpty = false := by
  cases h with
  | value hn => rfl
  | children hne hnd h => simpa [FImmutableTree.isEmpty] using hne

theorem Proper.wellFormed (h : t.Proper) (hempty : t.isEmpty = false) : t.WellFormed := by
  refine h.resolve_left ?_
  rintro rfl
  cases hempty

/-- The child of a tree without a value. -/
theorem proper_child (h : ∀ p ∈ cs, WellFormed p.2) (key : String) :
    ((get cs key).getD empty).Proper := by
  cases hget : get cs key with
  | none => exact proper_empty
  | some child => exact Or.inr (h (key, child) (mem_of_get hget))

theorem WellFormed.insertKey (hnd : (cs.map Prod.fst).Nodup) (h : ∀ p ∈ cs, WellFormed p.2)
    (ht : t.WellFormed) : (node none (SortedDictionary.insertKey cs key t)).WellFormed := by
  refine .children (insertKey_ne_nil cs) (nodup_insertKey hnd) fun p hp => ?_
  rcases mem_insertKey hp with hp | rfl
  · exact h p hp
  · exact ht

/-- The children of a tree without a value. -/
theorem Proper.of_none (h : (node none cs).Proper) :
    (cs.map Prod.fst).Nodup ∧ ∀ p ∈ cs, WellFormed p.2 := by
  rcases h with h | h
  · obtain rfl : cs = [] := by injection h
    exact ⟨List.nodup_nil, fun p hp => absurd hp List.not_mem_nil⟩
  · cases h with
    | children hne hnd h => exact ⟨hnd, h⟩

theorem WellFormed.of_some {cs : List (String × FImmutableTree FNode)}
    (h : (node (some n) cs).WellFormed) : cs = [] ∧ n.isEmpty = false := by
  cases h with
  | value hn => exact ⟨rfl, hn⟩

theorem WellFormed.exists_valueAtPath (h : t.WellFormed) :
    ∃ path n, t.valueAtPath path = some n := by
  induction h with
  | value hn => exact ⟨[], _, rfl⟩
  | @children cs hne hnd h ih =>
    obtain ⟨p, hp⟩ := List.exists_mem_of_ne_nil cs hne
    obtain ⟨path, n, hn⟩ := ih p hp
    refine ⟨p.1 :: path, n, ?_⟩
    rw [valueAtPath_cons, get_of_mem hnd hp]
    exact hn

/-- Nothing is written below a write. -/
theorem WellFormed.antichain (h : t.WellFormed) (hp : (t.valueAtPath path).isSome)
    (hp' : (t.valueAtPath path').isSome) (hle : path <+: path') : path = path' := by
  induction path generalizing t path' with
  | nil =>
    cases h with
    | value hn =>
      cases path' with
      | nil => rfl
      | cons key path' => cases hp'
    | children hne hnd h => cases hp
  | cons key path ih =>
    obtain ⟨path', rfl⟩ := hle
    rw [List.cons_append] at hp' ⊢
    cases h with
    | value hn => cases hp
    | children hne hnd h =>
      rw [valueAtPath_cons] at hp hp'
      rcases proper_child h key with heq | hwf
      · rw [heq, valueAtPath_empty] at hp
        cases hp
      · rw [← ih hwf hp hp' (List.prefix_append _ _)]

/-- Writing where nothing is written yet. -/
theorem Proper.setTree_initWithValue (h : t.Proper) (hn : n.isEmpty = false)
    (hfind : t.findRootMostValueAndPath path = none) :
    (t.setTree (initWithValue n) path).WellFormed := by
  induction path generalizing t with
  | nil =>
    obtain ⟨v, cs⟩ := t
    exact .value hn
  | cons key path ih =>
    obtain ⟨_ | v, cs⟩ := t
    · obtain ⟨hnd, hcs⟩ := h.of_none
      have hchild : (((get cs key).getD empty).setTree (initWithValue n) path).WellFormed := by
        refine ih (proper_child hcs key) ?_
        rw [findRootMostValueAndPath] at hfind
        cases hget : get cs key with
        | none => cases path <;> rfl
        | some child =>
          simp only [hget, Option.map_eq_none_iff] at hfind
          exact hfind
      simp only [setTree, hchild.isEmpty, Bool.false_eq_true, if_false]
      exact WellFormed.insertKey hnd hcs hchild
    · cases hfind

/-- Taking out what is written at a path and below it. -/
theorem Proper.setTree_empty (h : t.Proper) : (t.setTree empty path).Proper := by
  induction path generalizing t with
  | nil =>
    obtain ⟨v, cs⟩ := t
    exact proper_empty
  | cons key path ih =>
    obtain ⟨_ | v, cs⟩ := t
    · obtain ⟨hnd, hcs⟩ := h.of_none
      have hchild := ih (proper_child hcs key)
      simp only [setTree]
      split
      · rename_i hempty
        rcases eq_or_ne (removeKey cs key) [] with heq | hne
        · rw [heq]
          exact proper_empty
        · exact Or.inr (.children hne (nodup_removeKey hnd) fun p hp => hcs p (mem_removeKey hp))
      · rename_i hempty
        refine Or.inr (WellFormed.insertKey hnd hcs (hchild.wellFormed ?_))
        simpa using hempty
    · obtain ⟨rfl, hn⟩ := (h.resolve_left (by rintro ⟨⟩)).of_some
      have hchild : ((empty : FImmutableTree FNode).setTree empty path).isEmpty := by
        have hproper := ih proper_empty
        by_contra hempty
        obtain ⟨path', n', hn'⟩ :=
          (hproper.wellFormed (by simpa using hempty)).exists_valueAtPath
        rw [valueAtPath_setTree, valueAtPath_empty, valueAtPath_empty, ite_self] at hn'
        cases hn'
      simp only [setTree, get_nil, Option.getD_none, hchild, if_true]
      exact Or.inr (.value hn)

/-- Writing anew where something is written. -/
theorem WellFormed.setValue (h : t.WellFormed) (hn : n.isEmpty = false)
    (hvalue : (t.valueAtPath path).isSome) : (t.setValue n path).WellFormed := by
  induction path generalizing t with
  | nil =>
    cases h with
    | value hn' => exact .value hn
    | children hne hnd h => cases hvalue
  | cons key path ih =>
    cases h with
    | value hn' => cases hvalue
    | children hne hnd h =>
      rw [valueAtPath_cons] at hvalue
      simp only [FImmutableTree.setValue]
      refine WellFormed.insertKey hnd h (ih ?_ hvalue)
      refine (proper_child h key).resolve_left fun heq => ?_
      rw [heq, valueAtPath_empty] at hvalue
      cases hvalue

theorem Proper.subtreeAtPath (h : t.Proper) : (t.subtreeAtPath path).Proper := by
  induction path generalizing t with
  | nil =>
    obtain ⟨v, cs⟩ := t
    exact h
  | cons key path ih =>
    obtain ⟨v, cs⟩ := t
    rw [FImmutableTree.subtreeAtPath]
    cases hget : get cs key with
    | none => exact proper_empty
    | some child =>
      refine ih ?_
      rcases h with h | h
      · obtain ⟨-, rfl⟩ : v = none ∧ cs = [] := by simpa [empty] using h
        cases hget
      · cases h with
        | value hn => cases hget
        | children hne hnd h => exact Or.inr (h (key, child) (mem_of_get hget))

end WellFormed

end FImmutableTree

/-- `FCompoundWrite` -/
structure FCompoundWrite where
  writeTree : FImmutableTree FNode

namespace FCompoundWrite

open FImmutableTree PathMap

/-- `emptyWrite` -/
def emptyWrite : FCompoundWrite := ⟨.empty⟩

/-- `addWrite:atPath:`. A write below another one goes into the node that is written
there. -/
def addWrite (w : FCompoundWrite) (node : FNode) (path : FPath) : Option FCompoundWrite :=
  if path.isEmpty then some ⟨initWithValue node⟩
  else
    match w.writeTree.findRootMostValueAndPath path with
    | some rootMost => do
      let relativePath ← FPath.relativePathFrom rootMost.1 path
      let value := rootMost.2.updateChild relativePath node
      return ⟨w.writeTree.setValue value rootMost.1⟩
    | none => some ⟨w.writeTree.setTree (initWithValue node) path⟩

/-- `removeWriteAtPath:` -/
def removeWriteAtPath (w : FCompoundWrite) (path : FPath) : FCompoundWrite :=
  if path.isEmpty then emptyWrite else ⟨w.writeTree.setTree .empty path⟩

/-- `completeNodeAtPath:` -/
def completeNodeAtPath (w : FCompoundWrite) (path : FPath) : Option (Option FNode) :=
  match w.writeTree.findRootMostValueAndPath path with
  | some rootMost => do
    let relativePath ← FPath.relativePathFrom rootMost.1 path
    return some (rootMost.2.getChild relativePath)
  | none => some none

/-- `hasCompleteWriteAtPath:` -/
def hasCompleteWriteAtPath (w : FCompoundWrite) (path : FPath) : Option Bool :=
  (w.completeNodeAtPath path).map Option.isSome

/-- `childCompoundWriteAtPath:` -/
def childCompoundWriteAtPath (w : FCompoundWrite) (path : FPath) : Option FCompoundWrite :=
  if path.isEmpty then some w
  else do
    match ← w.completeNodeAtPath path with
    | some shadowingNode => return ⟨initWithValue shadowingNode⟩
    | none => return ⟨w.writeTree.subtreeAtPath path⟩

mutual

/-- `applySubtreeWrite:atPath:toNode:` -/
def applySubtreeWrite : FImmutableTree FNode → FPath → FNode → FNode
  | .node (some value) _, relativePath, n => n.updateChild relativePath value
  | .node none children, relativePath, n => applySubtreeWrites children relativePath n

/-- Its loop over the children. -/
def applySubtreeWrites : List (String × FImmutableTree FNode) → FPath → FNode → FNode
  | [], _, n => n
  | (childKey, childTree) :: children, relativePath, n =>
    applySubtreeWrites children relativePath
      (applySubtreeWrite childTree (relativePath ++ [childKey]) n)

end

/-- `applyToNode:` -/
def applyToNode (w : FCompoundWrite) (n : FNode) : FNode := applySubtreeWrite w.writeTree [] n

/-- `isEmpty` -/
def isEmpty (w : FCompoundWrite) : Bool := w.writeTree.isEmpty

/-- The tree is one of writes that leave something, or a single write of any node. -/
def Sound (w : FCompoundWrite) : Prop :=
  w.writeTree.Proper ∨ ∃ n, w.writeTree = initWithValue n

/-- The writes, as an overlay. -/
def overlay (w : FCompoundWrite) (h : w.Sound) : Overlay String Leaf where
  value path := (w.writeTree.valueAtPath path).map FNode.leaves
  antichain {p q} hp hq hle := by
    rw [Option.isSome_map] at hp hq
    rcases h with (h | h) | ⟨n, h⟩
    · rw [h, valueAtPath_empty] at hp
      cases hp
    · exact h.antichain hp hq hle
    · rw [h, valueAtPath_initWithValue] at hp hq
      rw [apply_ite Option.isSome] at hp hq
      have hp' : p = [] := by simpa using hp
      have hq' : q = [] := by simpa using hq
      rw [hp', hq']

section Overlay

variable {w : FCompoundWrite} {n node : FNode} {path : FPath}

theorem sound_emptyWrite : emptyWrite.Sound := Or.inl proper_empty

theorem overlay_emptyWrite (h : emptyWrite.Sound) : emptyWrite.overlay h = .empty := by
  ext1
  funext path
  change ((empty : FImmutableTree FNode).valueAtPath path).map FNode.leaves = none
  rw [valueAtPath_empty]
  rfl

theorem covers_of_found (h : w.Sound) {found : FPath × FNode}
    (hfound : w.writeTree.findRootMostValueAndPath path = some found) :
    (w.overlay h).value found.1 = some found.2.leaves ∧ (w.overlay h).Covers path := by
  obtain ⟨hle, hvalue⟩ := of_findRootMostValueAndPath_eq_some hfound
  have hvalue' : (w.overlay h).value found.1 = some found.2.leaves :=
    congrArg (Option.map FNode.leaves) hvalue
  exact ⟨hvalue', found.1, hle, hvalue' ▸ rfl⟩

theorem not_covers_of_not_found (h : w.Sound)
    (hnone : w.writeTree.findRootMostValueAndPath path = none) : ¬ (w.overlay h).Covers path := by
  rintro ⟨p, hle, hp⟩
  have hvalue := of_findRootMostValueAndPath_eq_none hnone hle
  change ((w.writeTree.valueAtPath p).map FNode.leaves).isSome at hp
  rw [hvalue] at hp
  cases hp

/-- A write replaces all others when it is made at the root. -/
theorem overlay_addWrite_nil (h : w.Sound) (node : FNode) :
    ∃ w' h', w.addWrite node [] = some w' ∧ overlay w' h' = (w.overlay h).add [] node.leaves := by
  refine ⟨⟨initWithValue node⟩, Or.inr ⟨node, rfl⟩, rfl, ?_⟩
  ext1
  funext q
  change ((initWithValue node).valueAtPath q).map FNode.leaves = (w.overlay h).addValue [] _ q
  rw [valueAtPath_initWithValue, Overlay.addValue]
  cases q with
  | nil =>
    rw [if_pos rfl, if_pos List.nil_prefix, if_pos rfl]
    split
    · rename_i hcov
      obtain ⟨p, hp, hpv⟩ := hcov
      obtain rfl := List.prefix_nil.mp hp
      obtain ⟨m, hm⟩ := Option.isSome_iff_exists.mp hpv
      rw [hm]
      simp
    · rfl
  | cons key q =>
    rw [if_neg (List.cons_ne_nil key q), if_neg (List.cons_ne_nil key q), if_pos List.nil_prefix]
    split
    · rename_i hcov
      obtain ⟨p, hp, hpv⟩ := hcov
      obtain rfl := List.prefix_nil.mp hp
      rw [if_neg (by simp), Option.map_none, eq_comm, ← Option.not_isSome_iff_eq_none]
      intro hq
      cases (w.overlay h).antichain hpv hq List.nil_prefix
    · rfl

theorem Sound.setValue (h : w.Sound) {found : FPath × FNode} (hn : n.isEmpty = false)
    (hvalue : w.writeTree.valueAtPath found.1 = some found.2) :
    Sound ⟨w.writeTree.setValue n found.1⟩ := by
  rcases h with (h | h) | ⟨m, h⟩
  · rw [h, valueAtPath_empty] at hvalue
    cases hvalue
  · exact Or.inl (Or.inr (h.setValue hn (hvalue ▸ rfl)))
  · rw [h, valueAtPath_initWithValue] at hvalue
    split at hvalue
    · rename_i hnil
      rw [Sound, h, hnil]
      exact Or.inr ⟨n, rfl⟩
    · cases hvalue

/-- **Adding a write** adds it to the overlay, and does not throw. -/
theorem overlay_addWrite (h : w.Sound) (hnode : node.isEmpty = false) (path : FPath) :
    ∃ w' h', w.addWrite node path = some w' ∧
      overlay w' h' = (w.overlay h).add path node.leaves := by
  rcases eq_or_ne path [] with rfl | hne
  · exact overlay_addWrite_nil h node
  rw [addWrite, if_neg (by simpa using hne)]
  cases hfind : w.writeTree.findRootMostValueAndPath path with
  | some found =>
    obtain ⟨hvalue, hcov⟩ := covers_of_found h hfind
    obtain ⟨⟨relativePath, rfl⟩, hfound⟩ := of_findRootMostValueAndPath_eq_some hfind
    have hsome : (found.2.updateChild relativePath node).isEmpty = false :=
      FNode.isEmpty_updateChild hnode
    refine ⟨_, h.setValue hsome hfound, ?_, ?_⟩
    · simp only [FPath.relativePathFrom_append, Option.bind_eq_bind, Option.bind_some]
      rfl
    · ext1
      funext q
      change Option.map FNode.leaves (FImmutableTree.valueAtPath _ q) =
        (w.overlay h).addValue _ _ q
      rw [Overlay.addValue, if_pos hcov, valueAtPath_setValue]
      by_cases hq : q = found.1
      · rw [if_pos hq, if_pos (hq ▸ List.prefix_append _ _), hq, hvalue, Option.map_some,
          Option.map_some, List.drop_left, FNode.leaves_updateChild hnode]
      · -- the value found is the only one on the way
        rw [if_neg hq]
        split
        · rename_i hle
          have hnone : (w.overlay h).value q = none := by
            rw [← Option.not_isSome_iff_eq_none]
            intro hsome'
            rcases List.prefix_or_prefix_of_prefix hle (List.prefix_append _ _) with hle' | hle'
            · exact hq ((w.overlay h).antichain hsome' (hvalue ▸ rfl) hle')
            · exact hq ((w.overlay h).antichain (hvalue ▸ rfl) hsome' hle').symm
          rw [hnone]
          exact hnone
        · rfl
  | none =>
    have hcov := not_covers_of_not_found h hfind
    have hproper : w.writeTree.Proper := by
      refine h.resolve_right ?_
      rintro ⟨m, hm⟩
      refine hcov ⟨[], List.nil_prefix, ?_⟩
      change ((w.writeTree.valueAtPath []).map FNode.leaves).isSome
      rw [hm]
      rfl
    refine ⟨_, Or.inl (Or.inr (hproper.setTree_initWithValue hnode hfind)), rfl, ?_⟩
    ext1
    funext q
    change Option.map FNode.leaves (FImmutableTree.valueAtPath _ q) = (w.overlay h).addValue _ _ q
    rw [Overlay.addValue, if_neg hcov, valueAtPath_setTree]
    by_cases hle : path <+: q
    · rw [if_pos hle, if_pos hle, valueAtPath_initWithValue]
      obtain ⟨q, rfl⟩ := hle
      rw [List.drop_left]
      by_cases hq : q = []
      · rw [if_pos hq, if_pos (by simpa using hq), Option.map_some]
      · rw [if_neg hq, if_neg (by simpa using hq), Option.map_none]
    · rw [if_neg hle, if_neg hle, if_neg]
      · rfl
      · rintro rfl
        exact hle (List.prefix_refl _)

/-- The tree stays one of writes that leave something. -/
theorem proper_addWrite (h : w.writeTree.Proper) (hnode : node.isEmpty = false)
    {w' : FCompoundWrite} (hw' : w.addWrite node path = some w') : w'.writeTree.Proper := by
  rw [addWrite] at hw'
  split at hw'
  · obtain rfl := Option.some.inj hw'
    exact Or.inr (.value hnode)
  · cases hfind : w.writeTree.findRootMostValueAndPath path with
    | some found =>
      obtain ⟨⟨relativePath, rfl⟩, hfound⟩ := of_findRootMostValueAndPath_eq_some hfind
      simp only [hfind, FPath.relativePathFrom_append, Option.bind_eq_bind, Option.bind_some,
        Option.pure_def, Option.some.injEq] at hw'
      subst hw'
      refine Or.inr ?_
      rcases h with h | h
      · rw [h, valueAtPath_empty] at hfound
        cases hfound
      · exact h.setValue (FNode.isEmpty_updateChild hnode) (hfound ▸ rfl)
    | none =>
      simp only [hfind, Option.some.injEq] at hw'
      subst hw'
      exact Or.inr (h.setTree_initWithValue hnode hfind)

/-- **Removing a write** takes it out of the overlay. -/
theorem overlay_removeWriteAtPath (h : w.writeTree.Proper) (path : FPath) :
    ∃ h', overlay (w.removeWriteAtPath path) (Or.inl h') = (w.overlay (Or.inl h)).erase path := by
  rcases eq_or_ne path [] with rfl | hne
  · refine ⟨proper_empty, ?_⟩
    ext1
    funext q
    change Option.map FNode.leaves (FImmutableTree.valueAtPath .empty q) =
      if [] <+: q then none else (w.writeTree.valueAtPath q).map FNode.leaves
    rw [if_pos List.nil_prefix, valueAtPath_empty]
    rfl
  · have hremove : w.removeWriteAtPath path = ⟨w.writeTree.setTree .empty path⟩ :=
      if_neg (by simpa using hne)
    rw [hremove]
    refine ⟨h.setTree_empty, ?_⟩
    ext1
    funext q
    change Option.map FNode.leaves (FImmutableTree.valueAtPath _ q) =
      if path <+: q then none else (w.writeTree.valueAtPath q).map FNode.leaves
    rw [valueAtPath_setTree, valueAtPath_empty]
    split <;> rfl

/-- **The node written at a path**, whatever tree the writes are made to. -/
theorem completeNodeAtPath_eq (h : w.Sound) (path : FPath) :
    ∃ found, w.completeNodeAtPath path = some found ∧
    (∀ m, found = some m → ∀ s, m.leaves = below path ((w.overlay h).onto s)) ∧
    (found.isSome ↔ (w.overlay h).Covers path) := by
  rw [completeNodeAtPath]
  cases hfind : w.writeTree.findRootMostValueAndPath path with
  | some found =>
    obtain ⟨hvalue, hcov⟩ := covers_of_found h hfind
    obtain ⟨⟨relativePath, rfl⟩, -⟩ := of_findRootMostValueAndPath_eq_some hfind
    refine ⟨some (found.2.getChild relativePath), ?_, ?_, iff_of_true rfl hcov⟩
    · simp only [FPath.relativePathFrom_append, Option.bind_eq_bind, Option.bind_some]
      rfl
    · intro m hm s
      obtain rfl := Option.some.inj hm
      rw [below_append, Overlay.onto_eq_put hvalue, below_put_self, FNode.below_leaves]
  | none =>
    refine ⟨none, rfl, ?_, iff_of_false (by simp) (not_covers_of_not_found h hfind)⟩
    rintro _ ⟨⟩

/-- The writes below a path at which no node is written. -/
theorem childCompoundWriteAtPath_eq (h : w.Sound) (hcov : ¬ (w.overlay h).Covers path) :
    ∃ w' h', w.childCompoundWriteAtPath path = some w' ∧
      overlay w' h' = (w.overlay h).below path := by
  rw [childCompoundWriteAtPath]
  rcases eq_or_ne path [] with rfl | hne
  · exact ⟨w, h, rfl, rfl⟩
  · obtain ⟨found, hfound, -, hiff⟩ := completeNodeAtPath_eq h path
    obtain rfl : found = none := by
      rw [← Option.not_isSome_iff_eq_none, hiff]
      exact hcov
    have hsound : Sound ⟨w.writeTree.subtreeAtPath path⟩ := by
      rcases h with h | ⟨m, h⟩
      · exact Or.inl h.subtreeAtPath
      · left
        obtain ⟨key, path, rfl⟩ := List.exists_cons_of_ne_nil hne
        rw [h]
        exact proper_empty
    refine ⟨_, hsound, ?_, ?_⟩
    · rw [if_neg (by simpa using hne), hfound]
      rfl
    · ext1
      funext q
      exact congrArg (Option.map FNode.leaves) valueAtPath_subtreeAtPath

end Overlay

/-! ## Applying the writes -/

mutual

/-- The writes of a tree whose root is at `path`, as they are enumerated. -/
def writes : FImmutableTree FNode → FPath → List (FPath × PathMap String Leaf)
  | .node (some value) _, path => [(path, value.leaves)]
  | .node none children, path => writesOf children path

/-- Those of the children. -/
def writesOf : List (String × FImmutableTree FNode) → FPath → List (FPath × PathMap String Leaf)
  | [], _ => []
  | (key, t) :: children, path => writes t (path ++ [key]) ++ writesOf children path

end

section Apply

variable {w : FCompoundWrite} {n : FNode} {path : FPath} {t : FImmutableTree FNode}

theorem writesOf_eq_flatMap (cs : List (String × FImmutableTree FNode)) :
    writesOf cs path = cs.flatMap fun c => writes c.2 (path ++ [c.1]) := by
  induction cs with
  | nil => rfl
  | cons c cs ih => rw [writesOf, ih, List.flatMap_cons]

/-- Applying a tree of writes makes them one after the other. -/
theorem leaves_applySubtreeWrite (h : t.WellFormed) :
    (applySubtreeWrite t path n).leaves = replay (writes t path) n.leaves := by
  induction h generalizing path n with
  | value hn => exact FNode.leaves_updateChild hn
  | @children cs hne hnd h ih =>
    rw [applySubtreeWrite, writes]
    clear hne hnd
    induction cs generalizing n with
    | nil => rfl
    | cons c cs ihcs =>
      rw [List.forall_mem_cons] at h
      rw [applySubtreeWrites, writesOf, replay_append, ihcs h.2,
        ih c (List.mem_cons_self ..)]
      intro c' hc'
      exact ih c' (List.mem_cons_of_mem c hc')

theorem mem_writes (h : t.WellFormed) {write : FPath × PathMap String Leaf} :
    write ∈ writes t path ↔ ∃ relativePath m, t.valueAtPath relativePath = some m ∧
      write = (path ++ relativePath, m.leaves) := by
  induction h generalizing path with
  | @value m hm =>
    rw [writes, List.mem_singleton]
    constructor
    · rintro rfl
      exact ⟨[], m, rfl, by rw [List.append_nil]⟩
    · rintro ⟨relativePath, m', hm', rfl⟩
      cases relativePath with
      | nil =>
        obtain rfl := Option.some.inj hm'
        rw [List.append_nil]
      | cons key relativePath => cases hm'
  | @children cs hne hnd h ih =>
    rw [writes, writesOf_eq_flatMap, List.mem_flatMap]
    constructor
    · rintro ⟨⟨key, t⟩, hc, hwrite⟩
      obtain ⟨relativePath, m, hm, rfl⟩ := (ih _ hc).mp hwrite
      refine ⟨key :: relativePath, m, ?_, by rw [List.append_assoc]; rfl⟩
      rw [valueAtPath_cons, SortedDictionary.get_of_mem hnd hc]
      exact hm
    · rintro ⟨relativePath, m, hm, rfl⟩
      cases relativePath with
      | nil => cases hm
      | cons key relativePath =>
        rw [valueAtPath] at hm
        cases hget : SortedDictionary.get cs key with
        | none => simp [hget] at hm
        | some t =>
          simp only [hget] at hm
          have hc := SortedDictionary.mem_of_get hget
          exact ⟨_, hc, (ih _ hc).mpr ⟨relativePath, m, hm, by rw [List.append_assoc]; rfl⟩⟩

/-- Writes below different keys are not comparable. -/
theorem not_comparable_of_keys {key key' : String} (hne : key ≠ key') (p q : FPath) :
    ¬ Comparable (path ++ key :: p) (path ++ key' :: q) := by
  rintro (h | h)
  · rw [List.prefix_append_right_inj, List.cons_prefix_cons] at h
    exact hne h.1
  · rw [List.prefix_append_right_inj, List.cons_prefix_cons] at h
    exact hne h.1.symm

theorem pairwise_writes (h : t.WellFormed) :
    (writes t path).Pairwise fun w w' => ¬ Comparable w.1 w'.1 := by
  induction h generalizing path with
  | value hn => exact List.pairwise_singleton _ _
  | @children cs hne hnd h ih =>
    rw [writes]
    clear hne
    induction cs with
    | nil => exact List.Pairwise.nil
    | cons c cs ihcs =>
      rw [List.map_cons, List.nodup_cons] at hnd
      rw [List.forall_mem_cons] at h
      rw [writesOf, List.pairwise_append]
      refine ⟨ih c (List.mem_cons_self ..), ?_, fun w hw w' hw' => ?_⟩
      · exact ihcs hnd.2 h.2 fun c' hc' => ih c' (List.mem_cons_of_mem c hc')
      · rw [writesOf_eq_flatMap, List.mem_flatMap] at hw'
        obtain ⟨c', hc', hw'⟩ := hw'
        obtain ⟨p, m, -, rfl⟩ := (mem_writes h.1).mp hw
        obtain ⟨p', m', -, rfl⟩ := (mem_writes (h.2 c' hc')).mp hw'
        have hkeys : c.1 ≠ c'.1 := fun heq => hnd.1 (heq ▸ List.mem_map_of_mem hc')
        simp only [List.append_assoc, List.singleton_append]
        exact not_comparable_of_keys hkeys p p'

/-- **Applying the writes to a node** makes those of the overlay. -/
theorem leaves_applyToNode (h : w.Sound) :
    (w.applyToNode n).leaves = (w.overlay h).onto n.leaves := by
  rw [applyToNode]
  rcases h with (h | h) | ⟨m, h⟩
  · have hvalue (p : FPath) : ¬ ((w.overlay (Or.inl (Or.inl h))).value p).isSome := by
      change ¬ ((w.writeTree.valueAtPath p).map FNode.leaves).isSome
      rw [h, valueAtPath_empty]
      exact Bool.false_ne_true
    have hsame : applySubtreeWrite w.writeTree [] n = n := by
      rw [h]
      rfl
    rw [hsame]
    funext q
    exact (Overlay.onto_of_apart fun p hp => absurd hp (hvalue p)).symm
  · rw [leaves_applySubtreeWrite h]
    refine (Overlay.onto_eq_replay (pairwise_writes h) fun p s => ?_).symm
    rw [mem_writes h]
    change (w.writeTree.valueAtPath p).map FNode.leaves = some s ↔ _
    rw [Option.map_eq_some_iff]
    constructor
    · rintro ⟨m, hm, rfl⟩
      exact ⟨p, m, hm, rfl⟩
    · rintro ⟨q, m, hm, heq⟩
      obtain ⟨rfl, rfl⟩ := Prod.mk.inj heq
      exact ⟨m, hm, rfl⟩
  · have hvalue : (w.overlay (Or.inr ⟨m, h⟩)).value [] = some m.leaves := by
      change (w.writeTree.valueAtPath []).map FNode.leaves = _
      rw [h]
      rfl
    have hroot : applySubtreeWrite w.writeTree [] n = m := by
      rw [h]
      cases n <;> rfl
    rw [Overlay.onto_eq_put hvalue, put_nil, hroot]

/-- No write at all is left when the tree is empty. -/
theorem isEmpty_iff (h : w.Sound) : w.isEmpty ↔ ∀ p, ¬ ((w.overlay h).value p).isSome := by
  change w.writeTree.isEmpty ↔ ∀ p, ¬ ((w.writeTree.valueAtPath p).map FNode.leaves).isSome
  simp only [Option.isSome_map]
  constructor
  · intro hempty p
    rw [valueAtPath_of_isEmpty hempty]
    exact Bool.false_ne_true
  · intro hnone
    rcases h with (h | h) | ⟨m, h⟩
    · rw [h]
      rfl
    · obtain ⟨p, m, hm⟩ := h.exists_valueAtPath
      exact absurd (hm ▸ rfl) (hnone p)
    · rw [h] at hnone
      exact absurd rfl (hnone [])

end Apply

end FCompoundWrite

end MoonMessenger
