import MoonMessenger.Foundation
import MoonMessenger.Lib.StableSort

/-!
# Database values

The values Firebase hands over as `snapshot.value`, and the conditional casts the
app applies to them. A dictionary is given by its entries in the order in which it
enumerates them, which is not part of the value in the database: two deliveries of
one node can differ in it.
-/

namespace MoonMessenger

/-- `snapshot.value` -/
inductive Json where
  | null
  | bool (b : Bool)
  | number (x : ℚ)
  | string (s : String)
  | array (elements : List Json)
  /-- the entries in enumeration order; no key occurs twice -/
  | dictionary (entries : List (String × Json))

namespace Json

/-- `snapshot.exists()`: a node exists when its value is not null. -/
def snapshotExists : Json → Bool
  | null => false
  | _ => true

/-- `as? String` -/
def asString? : Json → Option String
  | string s => some s
  | _ => none

/-- `as? [String:Any]` -/
def asDictionary? : Json → Option (List (String × Json))
  | dictionary entries => some entries
  | _ => none

/-- `as? NSMutableArray` -/
def asArray? : Json → Option (List Json)
  | array elements => some elements
  | _ => none

/-- `as? TimeInterval`. A truth value is a number object, too. -/
def asTimeInterval? : Json → Option TimeInterval
  | number x => some x
  | bool b => some (if b then 1 else 0)
  | _ => none

@[simp] theorem asString?_string (s : String) : (string s).asString? = some s := rfl

@[simp] theorem asDictionary?_dictionary (entries : List (String × Json)) :
    (dictionary entries).asDictionary? = some entries := rfl

@[simp] theorem asArray?_array (elements : List Json) : (array elements).asArray? = some elements :=
  rfl

/-- The children of a node with this value: an array is stored by index, without its
nulls, and a value that is neither array nor dictionary has none. -/
def childEntries : Json → List (String × Json)
  | array elements => elements.zipIdx.filterMap fun p =>
      if p.1.snapshotExists then some (toString p.2, p.1) else none
  | dictionary entries => entries
  | _ => []

/-- The value of a node after `setValue` on its child `key`. -/
def settingChild (j : Json) (key : String) (value : Json) : Json :=
  dictionary ((j.childEntries.filter fun p => p.1 != key) ++ [(key, value)])

theorem lookup_settingChild (j : Json) (key : String) (value : Json) :
    ∃ entries, j.settingChild key value = dictionary entries ∧
      entries.lookup key = some value := by
  refine ⟨_, rfl, ?_⟩
  have hnone : (j.childEntries.filter fun p => p.1 != key).lookup key = none := by
    rw [List.lookup_eq_none_iff]
    intro p hp
    rw [List.mem_filter, bne_iff_ne] at hp
    exact bne_iff_ne.mpr hp.2.symm
  rw [List.lookup_append, hnone, List.lookup_cons_self]
  rfl

/-! ### Nodes handed over -/

/-- `intForString`, of a key without leading zeroes: the number it is the decimal text of,
if there is one. -/
def intForString (key : String) : Option ℕ := key.toNat?.filter fun n => toString n = key

/-- `valForExport`: the value of a node with these children. If all keys are integers and
the largest is below twice their number it is an array, with nulls in the gaps. -/
def ofChildren (children : List (String × Json)) : Json :=
  if children.isEmpty then .null
  else
    match children.mapM fun p => intForString p.1 with
    | some keys =>
      let maxKey := keys.foldl max 0
      if maxKey < 2 * children.length then
        .array ((List.range (maxKey + 1)).map fun i => (children.lookup (toString i)).getD .null)
      else .dictionary children
    | none => .dictionary children

/-- All keys are integers, and the largest is below twice their number. -/
def DenseKeys (children : List (String × Json)) : Prop :=
  ∀ p ∈ children, ∃ i < 2 * children.length, p.1 = toString i

theorem intForString_eq_some {key : String} {n : ℕ} :
    intForString key = some n ↔ key = toString n := by
  rw [intForString, Option.filter_eq_some_iff]
  refine ⟨fun ⟨_, h⟩ => (of_decide_eq_true h).symm, ?_⟩
  rintro rfl
  exact ⟨Nat.toNat?_repr n, decide_eq_true rfl⟩

/-- The keys of a node whose keys are all integers. -/
theorem mapM_intForString_eq_some {children : List (String × Json)} {keys : List ℕ} :
    children.mapM (fun p => intForString p.1) = some keys ↔
      children.map Prod.fst = keys.map toString := by
  induction children generalizing keys with
  | nil =>
    rw [List.mapM_nil, List.map_nil, eq_comm (a := []), List.map_eq_nil_iff, Option.pure_def,
      Option.some.injEq, eq_comm]
  | cons p children ih =>
    simp only [List.mapM_cons, Option.bind_eq_bind, Option.bind_eq_some_iff, Option.pure_def,
      Option.some.injEq, intForString_eq_some, ih, List.map_cons]
    refine ⟨?_, fun h => ?_⟩
    · rintro ⟨n, hn, ns, hns, rfl⟩
      rw [hn, hns, List.map_cons]
    · obtain ⟨n, ns, rfl, hn, hns⟩ := List.map_eq_cons_iff.mp h.symm
      exact ⟨n, hn.symm, ns, hns.symm, rfl⟩

theorem foldl_max_lt_iff {keys : List ℕ} {m n : ℕ} :
    keys.foldl max m < n ↔ m < n ∧ ∀ k ∈ keys, k < n := by
  induction keys generalizing m with
  | nil => simp
  | cons k keys ih => rw [List.foldl_cons, ih, max_lt_iff, List.forall_mem_cons, and_assoc]

/-- A node with dense keys is handed over as an array that has every child in its place. -/
theorem ofChildren_of_denseKeys {children : List (String × Json)} (hne : children ≠ [])
    (h : DenseKeys children) :
    ∃ n, ofChildren children =
        .array ((List.range n).map fun i => (children.lookup (toString i)).getD .null) ∧
      ∀ p ∈ children, ∃ i < n, p.1 = toString i := by
  obtain ⟨keys, hkeys⟩ : children.map Prod.fst ∈ Set.range (List.map toString) := by
    rw [Set.range_list_map]
    intro key hkey
    obtain ⟨p, hp, rfl⟩ := List.mem_map.mp hkey
    obtain ⟨i, -, hi⟩ := h p hp
    exact ⟨i, hi.symm⟩
  have hmax : keys.foldl max 0 < 2 * children.length := by
    refine foldl_max_lt_iff.mpr ⟨by have := List.length_pos_iff.mpr hne; omega, fun k hk => ?_⟩
    have hmem : toString k ∈ children.map Prod.fst := hkeys ▸ List.mem_map_of_mem hk
    obtain ⟨p, hp, hpk⟩ := List.mem_map.mp hmem
    obtain ⟨i, hi, hpi⟩ := h p hp
    rwa [Nat.repr_injective (hpk.symm.trans hpi)]
  have hofChildren : ofChildren children = .array ((List.range (keys.foldl max 0 + 1)).map
      fun i => (children.lookup (toString i)).getD .null) := by
    rw [ofChildren, if_neg (by simpa using hne), mapM_intForString_eq_some.mpr hkeys.symm]
    exact if_pos hmax
  refine ⟨_, hofChildren, fun p hp => ?_⟩
  have hmem : p.1 ∈ keys.map toString := hkeys ▸ List.mem_map_of_mem hp
  obtain ⟨k, hk, hkp⟩ := List.mem_map.mp hmem
  exact ⟨k, (foldl_max_lt_iff.mp (Nat.lt_succ_self (keys.foldl max 0))).2 k hk, hkp.symm⟩

/-- Any other node is handed over as a dictionary. -/
theorem ofChildren_of_not_denseKeys {children : List (String × Json)} (h : ¬ DenseKeys children) :
    ofChildren children = .dictionary children := by
  have hne : children ≠ [] := by
    rintro rfl
    exact h fun p hp => absurd hp List.not_mem_nil
  rw [ofChildren, if_neg (by simpa using hne)]
  cases hkeys : children.mapM fun p => intForString p.1 with
  | none => rfl
  | some keys =>
    refine if_neg fun hmax => h fun p hp => ?_
    have hmem : p.1 ∈ keys.map toString :=
      mapM_intForString_eq_some.mp hkeys ▸ List.mem_map_of_mem hp
    obtain ⟨k, hk, hkp⟩ := List.mem_map.mp hmem
    exact ⟨k, (foldl_max_lt_iff.mp hmax).2 k hk, hkp.symm⟩

/-- Where no key occurs twice, every entry is found. -/
theorem lookup_of_mem {entries : List (String × Json)} (hnd : (entries.map Prod.fst).Nodup)
    {p : String × Json} (hp : p ∈ entries) : entries.lookup p.1 = some p.2 := by
  obtain ⟨before, after, rfl⟩ := List.append_of_mem hp
  rw [List.map_append, List.map_cons, List.nodup_middle, List.nodup_cons, List.mem_append,
    not_or] at hnd
  refine List.lookup_eq_some_iff.mpr ⟨before, after, rfl, fun q hq => bne_iff_ne.mpr ?_⟩
  exact fun heq => hnd.1.1 (heq ▸ List.mem_map_of_mem hq)

/-- The array of a node with dense keys holds all its children. -/
theorem mem_array_of_denseKeys {children : List (String × Json)}
    (hnd : (children.map Prod.fst).Nodup) (h : DenseKeys children) {p : String × Json}
    (hp : p ∈ children) : ∃ elements, ofChildren children = .array elements ∧ p.2 ∈ elements := by
  obtain ⟨n, hofChildren, hplaces⟩ := ofChildren_of_denseKeys (List.ne_nil_of_mem hp) h
  refine ⟨_, hofChildren, ?_⟩
  obtain ⟨i, hi, hpi⟩ := hplaces p hp
  have hlookup : children.lookup (toString i) = some p.2 := by
    rw [← hpi, lookup_of_mem hnd hp]
  exact List.mem_map.mpr ⟨i, List.mem_range.mpr hi, by rw [hlookup]; rfl⟩

end Json

end MoonMessenger
