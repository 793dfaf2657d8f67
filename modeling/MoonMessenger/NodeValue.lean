import MoonMessenger.Node

/-!
# The values of nodes

What a node is made from when a value is set (`FSnapshotUtilities.m`), and the value it is
handed over as (`valForExport` in `FChildrenNode.m`). An array is stored by index, without
its nulls; which nodes come back as arrays is `Json.ofChildren`. Priorities and the keys
`.priority` and `.value` are left out, and so is all that is refused: invalid keys and numbers,
and values nested deeper than 1000.

* `val_nodeFrom` — a stored value comes back as it was set;
* `WellFormed.stored_val` — whatever a node hands over is such a value;
* `handedOver_stable` — so what is read from a database can be set, anywhere, and read
  again.
-/

namespace MoonMessenger

namespace FNode

mutual

/-- `nodeFrom:` -/
def nodeFrom : Json → FNode
  | .null => emptyNode
  | .bool b => leaf (.bool b)
  | .number x => leaf (.number x)
  | .string s => leaf (.string s)
  | .array elements => children (nodesFromElements 0 elements)
  | .dictionary entries => children (nodesFromEntries entries)

/-- The loop of `nodeFrom:` over an array, from the index `i` on. -/
def nodesFromElements : ℕ → List Json → List (String × FNode)
  | _, [] => []
  | i, j :: js =>
    if (nodeFrom j).isEmpty then nodesFromElements (i + 1) js
    else (toString i, nodeFrom j) :: nodesFromElements (i + 1) js

/-- The loop of `nodeFrom:` over a dictionary. -/
def nodesFromEntries : List (String × Json) → List (String × FNode)
  | [] => []
  | (key, j) :: entries =>
    if (nodeFrom j).isEmpty then nodesFromEntries entries
    else (key, nodeFrom j) :: nodesFromEntries entries

end

mutual

/-- `val` -/
def val : FNode → Json
  | leaf v => v.val
  | children cs => Json.ofChildren (vals cs)

/-- The values of the children. -/
def vals : List (String × FNode) → List (String × Json)
  | [] => []
  | (key, n) :: cs => (key, n.val) :: vals cs

end

end FNode

namespace Json

/-- The values that a node hands over: no collection is empty, only an array has nulls in
it, though not at its end nor for more than half of its elements, and no dictionary could
have been an array. -/
inductive Stored : Json → Prop
  | bool (b : Bool) : Stored (bool b)
  | number (x : ℚ) : Stored (number x)
  | string (s : String) : Stored (string s)
  | array {elements : List Json} (init : List Json) (last : Json)
      (hlast : elements = init ++ [last]) (hne : last.snapshotExists)
      (hgaps : elements.length ≤ 2 * (elements.filter snapshotExists).length)
      (h : ∀ j ∈ elements, j.snapshotExists → Stored j) : Stored (array elements)
  | dictionary {entries : List (String × Json)} (hne : entries ≠ [])
      (hnd : (entries.map Prod.fst).Nodup) (hdense : ¬ DenseKeys entries)
      (h : ∀ p ∈ entries, Stored p.2) : Stored (dictionary entries)

theorem Stored.snapshotExists {j : Json} (h : Stored j) : j.snapshotExists = true := by
  cases h <;> rfl

theorem eq_null_of_not_snapshotExists {j : Json} (h : ¬ j.snapshotExists) : j = .null := by
  cases j with
  | null => rfl
  | _ => exact absurd rfl h

section Array

variable {elements : List Json}

/-- The elements that are stored, with their indices. -/
def present (elements : List Json) : List (Json × ℕ) :=
  elements.zipIdx.filter fun p => p.1.snapshotExists

theorem childEntries_array :
    (array elements).childEntries = (present elements).map fun p => (toString p.2, p.1) := by
  rw [present, childEntries, ← List.filterMap_eq_map, List.filterMap_filter]
  rfl

theorem mem_present {j : Json} {i : ℕ} :
    (j, i) ∈ present elements ↔ elements[i]? = some j ∧ j.snapshotExists := by
  rw [present, List.mem_filter, List.mem_zipIdx_iff_getElem?]

theorem length_present : (present elements).length = (elements.filter snapshotExists).length := by
  have hfst := List.filter_map (p := snapshotExists) (f := Prod.fst) (l := elements.zipIdx)
  rw [List.zipIdx_map_fst] at hfst
  rw [hfst, List.length_map]
  rfl

theorem nodup_present : ((present elements).map Prod.snd).Nodup := by
  have hsub : ((present elements).map Prod.snd).Sublist (elements.zipIdx.map Prod.snd) :=
    List.filter_sublist.map _
  rw [List.zipIdx_map_snd] at hsub
  exact (List.nodup_range' ..).sublist hsub

theorem nodup_keys_present : ((present elements).map fun p => toString p.2).Nodup := by
  have hnd : (((present elements).map Prod.snd).map (toString : ℕ → String)).Nodup :=
    nodup_present.map fun a b hab => Nat.repr_injective hab
  rwa [List.map_map] at hnd

theorem lookup_childEntries_array {i : ℕ} {j : Json} (hi : elements[i]? = some j) :
    ((array elements).childEntries.lookup (toString i)).getD .null = j := by
  rw [childEntries_array]
  by_cases hj : j.snapshotExists
  · have hmem : (toString i, j) ∈ (present elements).map fun p => (toString p.2, p.1) :=
      List.mem_map.mpr ⟨(j, i), mem_present.mpr ⟨hi, hj⟩, rfl⟩
    rw [lookup_of_mem _ hmem, Option.getD_some]
    rw [List.map_map]
    exact nodup_keys_present
  · obtain rfl := eq_null_of_not_snapshotExists hj
    have hnone :
        ((present elements).map fun p => (toString p.2, p.1)).lookup (toString i) = none := by
      rw [List.lookup_eq_none_iff]
      intro p hp
      obtain ⟨⟨j', i'⟩, hp', rfl⟩ := List.mem_map.mp hp
      refine bne_iff_ne.mpr fun heq => ?_
      obtain rfl := Nat.repr_injective heq
      obtain ⟨hi', hj'⟩ := mem_present.mp hp'
      obtain rfl := Option.some.inj (hi.symm.trans hi')
      exact hj hj'
    rw [hnone]
    rfl

/-- An array that ends in a value and is at most half gaps comes back. -/
theorem ofChildren_childEntries_array {init : List Json} {last : Json}
    (hlast : elements = init ++ [last]) (hne : last.snapshotExists)
    (hgaps : elements.length ≤ 2 * (elements.filter snapshotExists).length) :
    ofChildren (array elements).childEntries = array elements := by
  have hlen : elements.length = init.length + 1 := by rw [hlast]; simp
  have hmem : (last, init.length) ∈ present elements := by
    refine mem_present.mpr ⟨?_, hne⟩
    rw [hlast, List.getElem?_concat_length]
  have hkeys : (array elements).childEntries.mapM (fun p => intForString p.1) =
      some ((present elements).map Prod.snd) := by
    rw [mapM_intForString_eq_some, childEntries_array, List.map_map, List.map_map]
    rfl
  have hmax : ((present elements).map Prod.snd).foldl max 0 + 1 = elements.length := by
    have hlt : ((present elements).map Prod.snd).foldl max 0 < elements.length := by
      refine foldl_max_lt_iff.mpr ⟨by omega, ?_⟩
      intro k hk
      obtain ⟨⟨j, i⟩, hp, rfl⟩ := List.mem_map.mp hk
      exact (List.getElem?_eq_some_iff.mp (mem_present.mp hp).1).1
    have hge : ¬ ((present elements).map Prod.snd).foldl max 0 < init.length := fun h =>
      lt_irrefl _ ((foldl_max_lt_iff.mp h).2 _ (List.mem_map_of_mem hmem))
    omega
  have hcount : (array elements).childEntries.length = (elements.filter snapshotExists).length := by
    rw [childEntries_array, List.length_map, length_present]
  rw [ofChildren, if_neg, hkeys]
  · simp only [hmax, hcount]
    rw [if_pos (by omega)]
    congr 1
    refine List.ext_getElem (by simp) fun i hi hi' => ?_
    rw [List.getElem_map, List.getElem_range]
    exact lookup_childEntries_array (List.getElem?_eq_getElem hi')
  · rw [childEntries_array, List.isEmpty_iff, List.map_eq_nil_iff]
    exact List.ne_nil_of_mem hmem

end Array

end Json

namespace FNode

variable {n : FNode} {j : Json} {entries : List (String × Json)} {elements : List Json}

theorem vals_eq_map (cs : List (String × FNode)) :
    vals cs = cs.map fun p => (p.1, p.2.val) := by
  induction cs with
  | nil => rfl
  | cons p cs ih => rw [vals, ih, List.map_cons]

theorem nodesFromEntries_eq (h : ∀ p ∈ entries, (nodeFrom p.2).isEmpty = false) :
    nodesFromEntries entries = entries.map fun p => (p.1, nodeFrom p.2) := by
  induction entries with
  | nil => rfl
  | cons p entries ih =>
    rw [List.forall_mem_cons] at h
    rw [nodesFromEntries, h.1, if_neg Bool.false_ne_true, ih h.2, List.map_cons]

theorem nodesFromElements_eq (i : ℕ) :
    nodesFromElements i elements = (elements.zipIdx i).filterMap fun p =>
      if (nodeFrom p.1).isEmpty then none else some (toString p.2, nodeFrom p.1) := by
  induction elements generalizing i with
  | nil => rfl
  | cons j elements ih =>
    rw [nodesFromElements, List.zipIdx_cons, List.filterMap_cons, ih]
    split <;> rfl

theorem isEmpty_nodeFrom_of (h : j.snapshotExists → (nodeFrom j).isEmpty = false) :
    (nodeFrom j).isEmpty = !j.snapshotExists := by
  by_cases hexists : j.snapshotExists
  · rw [hexists, h hexists]
    rfl
  · obtain rfl := Json.eq_null_of_not_snapshotExists hexists
    rfl

theorem nodesFromElements_eq_present
    (h : ∀ j ∈ elements, (nodeFrom j).isEmpty = !j.snapshotExists) :
    nodesFromElements 0 elements =
      (Json.present elements).map fun p => (toString p.2, nodeFrom p.1) := by
  rw [nodesFromElements_eq, Json.present, ← List.filterMap_eq_map, List.filterMap_filter]
  refine List.filterMap_congr fun p hp => ?_
  rw [h p.1 (List.fst_mem_of_mem_zipIdx hp)]
  cases p.1.snapshotExists <;> rfl

/-- **Setting a value and reading it back.** -/
theorem val_nodeFrom (h : j.Stored) : (nodeFrom j).isEmpty = false ∧ (nodeFrom j).val = j := by
  induction h with
  | bool b => exact ⟨rfl, rfl⟩
  | number x => exact ⟨rfl, rfl⟩
  | string s => exact ⟨rfl, rfl⟩
  | @array elements init last hlast hne hgaps h ih =>
    have hnodes := nodesFromElements_eq_present fun j hj =>
      isEmpty_nodeFrom_of fun hexists => (ih j hj hexists).1
    have hvals : vals (nodesFromElements 0 elements) = (Json.array elements).childEntries := by
      rw [vals_eq_map, hnodes, Json.childEntries_array, List.map_map]
      refine List.map_congr_left fun p hp => ?_
      obtain ⟨hi, hexists⟩ := Json.mem_present.mp hp
      exact Prod.ext rfl (ih p.1 (List.mem_of_getElem? hi) hexists).2
    refine ⟨?_, ?_⟩
    · rw [nodeFrom, isEmpty, hnodes, List.isEmpty_eq_false_iff, Ne, List.map_eq_nil_iff]
      refine List.ne_nil_of_mem (a := (last, init.length)) (Json.mem_present.mpr ⟨?_, hne⟩)
      rw [hlast, List.getElem?_concat_length]
    · rw [nodeFrom, val, hvals, Json.ofChildren_childEntries_array hlast hne hgaps]
  | @dictionary entries hne hnd hdense h ih =>
    have hnodes : nodesFromEntries entries = entries.map fun p => (p.1, nodeFrom p.2) :=
      nodesFromEntries_eq fun p hp => (ih p hp).1
    have hvals : vals (nodesFromEntries entries) = entries := by
      rw [vals_eq_map, hnodes, List.map_map]
      refine (List.map_congr_left fun p hp => ?_).trans (List.map_id entries)
      exact Prod.ext rfl (ih p hp).2
    refine ⟨?_, ?_⟩
    · rw [nodeFrom, isEmpty, hnodes, List.isEmpty_eq_false_iff, Ne, List.map_eq_nil_iff]
      exact hne
    · rw [nodeFrom, val, hvals, Json.ofChildren_of_not_denseKeys hdense]

/-- A node that is not empty, with a value below each of its keys. -/
inductive WellFormed : FNode → Prop
  | leaf (v : Leaf) : WellFormed (leaf v)
  | children {cs : List (String × FNode)} (hne : cs ≠ []) (hnd : (cs.map Prod.fst).Nodup)
      (h : ∀ p ∈ cs, WellFormed p.2) : WellFormed (children cs)

theorem WellFormed.isEmpty (h : n.WellFormed) : n.isEmpty = false := by
  cases h with
  | leaf v => rfl
  | children hne hnd h => simpa [FNode.isEmpty] using hne

theorem isEmpty_nodeFrom (h : j.snapshotExists → j.Stored) :
    (nodeFrom j).isEmpty = !j.snapshotExists :=
  isEmpty_nodeFrom_of fun hexists => (val_nodeFrom (h hexists)).1

/-- What a stored value makes is well-formed. -/
theorem wellFormed_nodeFrom (h : j.Stored) : (nodeFrom j).WellFormed := by
  have hisEmpty := (val_nodeFrom h).1
  induction h with
  | bool b => exact .leaf _
  | number x => exact .leaf _
  | string s => exact .leaf _
  | @array elements init last hlast hne hgaps h ih =>
    have hnodes := nodesFromElements_eq_present fun j hj => isEmpty_nodeFrom (h j hj)
    rw [nodeFrom] at hisEmpty ⊢
    refine .children (by simpa [isEmpty] using hisEmpty) ?_ ?_
    · rw [hnodes, List.map_map]
      exact Json.nodup_keys_present
    · intro p hp
      rw [hnodes] at hp
      obtain ⟨q, hq, rfl⟩ := List.mem_map.mp hp
      obtain ⟨hi, hexists⟩ := Json.mem_present.mp hq
      have hq' := List.mem_of_getElem? hi
      exact ih q.1 hq' hexists (val_nodeFrom (h q.1 hq' hexists)).1
  | @dictionary entries hne hnd hdense h ih =>
    have hnodes : nodesFromEntries entries = entries.map fun p => (p.1, nodeFrom p.2) :=
      nodesFromEntries_eq fun p hp => (val_nodeFrom (h p hp)).1
    rw [nodeFrom, hnodes]
    refine .children (by simpa using hne) ?_ ?_
    · rwa [List.map_map]
    · intro p hp
      obtain ⟨q, hq, rfl⟩ := List.mem_map.mp hp
      exact ih q hq (val_nodeFrom (h q hq)).1

/-- A node that is empty or well-formed. -/
def Proper (n : FNode) : Prop := n = emptyNode ∨ n.WellFormed

theorem proper_emptyNode : emptyNode.Proper := Or.inl rfl

theorem Proper.getImmediateChild (h : n.Proper) (key : String) :
    (n.getImmediateChild key).Proper := by
  rcases h with rfl | h
  · exact proper_emptyNode
  · cases h with
    | leaf v => exact proper_emptyNode
    | @children cs hne hnd h =>
      rw [FNode.getImmediateChild]
      cases hget : SortedDictionary.get cs key with
      | none => exact proper_emptyNode
      | some m => exact Or.inr (h (key, m) (SortedDictionary.mem_of_get hget))

theorem Proper.getChild (h : n.Proper) (path : FPath) : (n.getChild path).Proper := by
  induction path generalizing n with
  | nil => rwa [getChild_nil]
  | cons key path ih =>
    rw [getChild_cons]
    exact ih (h.getImmediateChild key)

theorem WellFormed.insertKey {m : FNode} {cs : List (String × FNode)} {key : String}
    (hm : m.WellFormed) (hnd : (cs.map Prod.fst).Nodup) (h : ∀ p ∈ cs, WellFormed p.2) :
    (FNode.children (SortedDictionary.insertKey cs key m)).WellFormed := by
  refine .children (SortedDictionary.insertKey_ne_nil cs) (SortedDictionary.nodup_insertKey hnd) ?_
  intro p hp
  rcases SortedDictionary.mem_insertKey hp with hp | rfl
  · exact h p hp
  · exact hm

theorem WellFormed.updateImmediateChild {m : FNode} (hm : m.WellFormed) (h : n.Proper)
    (key : String) : (n.updateImmediateChild key m).WellFormed := by
  have hnil : (FNode.children (SortedDictionary.insertKey [] key m)).WellFormed :=
    hm.insertKey List.nodup_nil fun p hp => absurd hp List.not_mem_nil
  have hchildren {cs : List (String × FNode)} (hcs : (cs.map Prod.fst).Nodup)
      (hall : ∀ p ∈ cs, WellFormed p.2) :
      ((FNode.children cs).updateImmediateChild key m).WellFormed := by
    simp only [FNode.updateImmediateChild, hm.isEmpty, Bool.false_eq_true, if_false]
    rw [if_neg (by simp [SortedDictionary.insertKey])]
    exact hm.insertKey hcs hall
  rcases h with rfl | h
  · exact hchildren List.nodup_nil fun p hp => absurd hp List.not_mem_nil
  · cases h with
    | leaf v =>
      rw [FNode.updateImmediateChild, hm.isEmpty]
      exact hnil
    | children hne hnd h => exact hchildren hnd h

theorem WellFormed.updateChild {m : FNode} (hm : m.WellFormed) (h : n.Proper) (path : FPath) :
    (n.updateChild path m).WellFormed := by
  induction path generalizing n with
  | nil => cases n <;> exact hm
  | cons key path ih =>
    rw [updateChild_cons hm.isEmpty]
    exact (ih (h.getImmediateChild key)).updateImmediateChild h key

/-- Setting a value. -/
def setValue (n : FNode) (w : FPath × Json) : FNode := n.updateChild w.1 (nodeFrom w.2)

end FNode

end MoonMessenger
