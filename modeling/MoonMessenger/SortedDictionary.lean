import MoonMessenger.KeyOrder
import MoonMessenger.LLRBRemove
import MoonMessenger.Node
import MoonMessenger.TreeBuilder

/-!
# Sorted dictionaries

What keeps the children of a node in the order of their keys: an array as long as there are
few of them (`FArraySortedDictionary.m`), and a tree from then on (`FTreeSortedDictionary.m`).

* `sortedDictionary_get` — over whole runs neither raises an exception, the keys stay in order,
  each key has what was last written under it, and a tree stays balanced.
* `sortedDictionary_refines` — with names for keys, the dictionary holds the entries that
  `SortedDictionary` has, if no two zeros are taken for one name.
-/

namespace MoonMessenger

universe u v

variable {α : Type u} {β : Type v}

/-- `FImmutableSortedDictionary`, with its two subclasses. -/
inductive FImmutableSortedDictionary (α : Type u) (β : Type v) where
  /-- `FArraySortedDictionary`, the keys and values side by side -/
  | array (entries : List (α × β))
  /-- `FTreeSortedDictionary` -/
  | tree (root : FLLRBNode α β)

/-- `SORTED_DICTIONARY_ARRAY_TO_RB_TREE_SIZE_THRESHOLD` -/
def arrayToTreeSizeThreshold : ℕ := 25

namespace FArraySortedDictionary

/-- `findKey` -/
def findKey (cmp : α → α → Ordering) (key : α) : List (α × β) → Option ℕ
  | [] => none
  | p :: entries =>
    match cmp key p.1 with
    | .eq => some 0
    | .lt => none
    | .gt => (findKey cmp key entries).map (· + 1)

/-- `findInsertPositionForKey` -/
def findInsertPositionForKey (cmp : α → α → Ordering) (key : α) : List (α × β) → ℕ
  | [] => 0
  | p :: entries => if cmp p.1 key = .lt then findInsertPositionForKey cmp key entries + 1 else 0

/-- `insertKey:withValue:`; `none` is the exception that `fromDictionary` raises. -/
def insertKey (cmp : α → α → Ordering) (key : α) (value : β) (entries : List (α × β)) :
    Option (FImmutableSortedDictionary α β) :=
  match findKey cmp key entries with
  | none =>
    if entries.length ≥ arrayToTreeSizeThreshold then
      (FTreeSortedDictionary.fromDictionary cmp (entries ++ [(key, value)])).map .tree
    else some (.array (entries.insertIdx (findInsertPositionForKey cmp key entries) (key, value)))
  | some pos => some (.array (entries.set pos (key, value)))

/-- `removeKey:` -/
def removeKey (cmp : α → α → Ordering) (key : α) (entries : List (α × β)) : List (α × β) :=
  match findKey cmp key entries with
  | none => entries
  | some pos => entries.eraseIdx pos

/-- `get:` -/
def get (cmp : α → α → Ordering) (key : α) (entries : List (α × β)) : Option β :=
  match findKey cmp key entries with
  | none => none
  | some pos => entries[pos]?.map Prod.snd

end FArraySortedDictionary

namespace FTreeSortedDictionary

/-- `get:` -/
def get (cmp : α → α → Ordering) (key : α) : FLLRBNode α β → Option β
  | .emptyNode => none
  | .valueNode key' value _ left right =>
    match cmp key key' with
    | .eq => some value
    | .lt => get cmp key left
    | .gt => get cmp key right

/-- `insertKey:withValue:` -/
def insertKey (cmp : α → α → Ordering) (key : α) (value : β) (root : FLLRBNode α β) :
    FLLRBNode α β := (root.insertKey cmp key value).withColor .black

/-- `removeKey:`, which asks first whether the tree contains the key. -/
def removeKey (cmp : α → α → Ordering) (key : α) (root : FLLRBNode α β) : FLLRBNode α β :=
  if (get cmp key root).isNone then root else (root.remove cmp key).withColor .black

end FTreeSortedDictionary

namespace FImmutableSortedDictionary

/-- `dictionaryWithComparator:` -/
def dictionaryWithComparator : FImmutableSortedDictionary α β := array []

/-- `insertKey:withValue:` -/
def insertKey (cmp : α → α → Ordering) (key : α) (value : β) :
    FImmutableSortedDictionary α β → Option (FImmutableSortedDictionary α β)
  | array entries => FArraySortedDictionary.insertKey cmp key value entries
  | tree root => some (tree (FTreeSortedDictionary.insertKey cmp key value root))

/-- `removeKey:` -/
def removeKey (cmp : α → α → Ordering) (key : α) :
    FImmutableSortedDictionary α β → FImmutableSortedDictionary α β
  | array entries => array (FArraySortedDictionary.removeKey cmp key entries)
  | tree root => tree (FTreeSortedDictionary.removeKey cmp key root)

/-- `get:` -/
def get (cmp : α → α → Ordering) (key : α) : FImmutableSortedDictionary α β → Option β
  | array entries => FArraySortedDictionary.get cmp key entries
  | tree root => FTreeSortedDictionary.get cmp key root

/-- The entries, as `enumerateKeysAndObjectsUsingBlock:` goes through them. -/
def entries : FImmutableSortedDictionary α β → List (α × β)
  | array entries => entries
  | tree root => root.toList

/-- What is done to a dictionary. -/
inductive Op (α : Type u) (β : Type v) where
  | insertKey (key : α) (value : β)
  | removeKey (key : α)

/-- One step. -/
def step (cmp : α → α → Ordering) (d : FImmutableSortedDictionary α β) :
    Op α β → Option (FImmutableSortedDictionary α β)
  | .insertKey key value => d.insertKey cmp key value
  | .removeKey key => some (d.removeKey cmp key)

/-- What is written under a key, after one more step. -/
def Op.written (cmp : α → α → Ordering) (key : α) (value : Option β) : Op α β → Option β
  | insertKey key' value' => if cmp key key' = .eq then some value' else value
  | removeKey key' => if cmp key key' = .eq then none else value

/-- What holds of a dictionary: its keys increase, an array is small, and a tree is balanced. -/
structure WellFormed (cmp : α → α → Ordering) (d : FImmutableSortedDictionary α β) : Prop where
  increasing : OrderedAssoc.Increasing cmp d.entries
  length_le : ∀ entries, d = array entries → entries.length ≤ arrayToTreeSizeThreshold
  valid : ∀ root, d = tree root → root.Valid ∧ root.isRed = false

end FImmutableSortedDictionary

/-! ## Arrays -/

namespace FArraySortedDictionary

variable {cmp : α → α → Ordering} [Std.TransCmp cmp] {key : α} {value : β}
  {entries : List (α × β)}

/-- The loop finds the key, or else it is not there. -/
theorem findKey_cases (key : α) (h : OrderedAssoc.Increasing cmp entries) :
    (findKey cmp key entries = none ∧ ∀ q ∈ entries, cmp key q.1 ≠ .eq) ∨
      ∃ xs p ys, entries = xs ++ p :: ys ∧ cmp key p.1 = .eq ∧
        findKey cmp key entries = some xs.length := by
  induction entries with
  | nil => exact Or.inl ⟨rfl, fun q hq => absurd hq List.not_mem_nil⟩
  | cons p entries ih =>
    obtain ⟨hp, hentries⟩ := List.pairwise_cons.mp h
    rw [findKey]
    cases hcmp : cmp key p.1 with
    | lt =>
      -- those that follow are greater
      refine Or.inl ⟨rfl, List.forall_mem_cons.mpr ⟨by rw [hcmp]; decide, fun q hq => ?_⟩⟩
      rw [Std.TransCmp.lt_trans hcmp (hp q hq)]
      decide
    | eq => exact Or.inr ⟨[], p, entries, rfl, hcmp, rfl⟩
    | gt =>
      rcases ih hentries with ⟨hnone, hne⟩ | ⟨xs, q, ys, rfl, hq, hsome⟩
      · refine Or.inl ⟨by rw [hnone]; rfl, List.forall_mem_cons.mpr ⟨?_, hne⟩⟩
        rw [hcmp]
        decide
      · exact Or.inr ⟨p :: xs, q, ys, rfl, hq, by rw [hsome]; rfl⟩

/-- A key that is not there is inserted at the position found for it. -/
theorem insertIdx_findInsertPositionForKey (keep : α → α) (value : β)
    (hne : ∀ q ∈ entries, cmp key q.1 ≠ .eq) :
    entries.insertIdx (findInsertPositionForKey cmp key entries) (key, value) =
      OrderedAssoc.insert cmp keep key value entries := by
  induction entries with
  | nil => rfl
  | cons p entries ih =>
    obtain ⟨hp, hentries⟩ := List.forall_mem_cons.mp hne
    rw [findInsertPositionForKey, OrderedAssoc.insert]
    cases hcmp : cmp key p.1 with
    | lt =>
      have hgt : cmp p.1 key = .gt := Std.OrientedCmp.gt_iff_lt.mpr hcmp
      rw [if_neg (by rw [hgt]; decide)]
      rfl
    | eq => exact absurd hcmp hp
    | gt =>
      have hlt : cmp p.1 key = .lt := Std.OrientedCmp.gt_iff_lt.mp hcmp
      rw [if_pos hlt, List.insertIdx_succ_cons, ih hentries]

theorem get_eq (h : OrderedAssoc.Increasing cmp entries) :
    get cmp key entries = OrderedAssoc.find cmp key entries := by
  rw [get]
  rcases findKey_cases key h with ⟨hnone, hne⟩ | ⟨xs, p, ys, rfl, hp, hsome⟩
  · rw [hnone, OrderedAssoc.find_eq_none hne]
  · rw [hsome, OrderedAssoc.find_append_cons h, hp]
    simp

theorem removeKey_eq (key : α) (h : OrderedAssoc.Increasing cmp entries) :
    removeKey cmp key entries = OrderedAssoc.erase cmp key entries := by
  rw [removeKey]
  rcases findKey_cases key h with ⟨hnone, hne⟩ | ⟨xs, p, ys, rfl, hp, hsome⟩
  · rw [hnone, OrderedAssoc.erase_eq_self hne]
  · rw [hsome, OrderedAssoc.erase_append_cons h, hp]
    simp [List.eraseIdx_append_of_length_le]

/-- A key that is there is replaced by the one inserted. -/
theorem set_findKey {xs ys : List (α × β)} {p : α × β} (value : β)
    (h : OrderedAssoc.Increasing cmp (xs ++ p :: ys)) (hp : cmp key p.1 = .eq) :
    (xs ++ p :: ys).set xs.length (key, value) =
      OrderedAssoc.insert cmp (fun _ => key) key value (xs ++ p :: ys) := by
  rw [OrderedAssoc.insert_append_of_not_lt h (by rw [hp]; decide), OrderedAssoc.insert, hp,
    List.set_append_right _ _ (Nat.le_refl _), Nat.sub_self, List.set_cons_zero]

/-- An array that gets too long becomes a tree. -/
theorem fromDictionary_concat (value : β) (h : OrderedAssoc.Increasing cmp entries)
    (hne : ∀ q ∈ entries, cmp key q.1 ≠ .eq) : ∃ root : FLLRBNode α β,
      FTreeSortedDictionary.fromDictionary cmp (entries ++ [(key, value)]) = some root ∧
      root.Valid ∧ root.isRed = false ∧
      root.toList = OrderedAssoc.insert cmp id key value entries := by
  have hapart : OrderedAssoc.Apart cmp (entries ++ [(key, value)]) :=
    OrderedAssoc.apart_concat (OrderedAssoc.apart_of_increasing h) (OrderedAssoc.find_eq_none hne)
  obtain ⟨hiff, hroots⟩ :=
    FTreeSortedDictionary.fromDictionary_iff cmp (entries ++ [(key, value)])
  obtain ⟨root, hroot⟩ := hiff.mpr hapart
  obtain ⟨hvalid, hblack, hlist⟩ := hroots root hroot
  refine ⟨root, hroot, hvalid, hblack, ?_⟩
  -- both lists hold the same entries, in the order of the keys
  have hperm : (OrderedAssoc.insert cmp id key value entries).Perm ((key, value) :: entries) := by
    conv_rhs => rw [← OrderedAssoc.erase_eq_self hne]
    exact OrderedAssoc.perm_insert h fun q hq hqkey => absurd hqkey (hne q hq)
  rw [hlist]
  refine OrderedAssoc.eq_of_perm ?_ (OrderedAssoc.increasing_sort hapart) ?_
  · exact (OrderedAssoc.perm_sort _).trans ((List.perm_append_singleton ..).trans hperm.symm)
  · exact OrderedAssoc.increasing_insert (fun c _ => Std.ReflCmp.compare_self) h

end FArraySortedDictionary

/-! ## Trees -/

namespace FTreeSortedDictionary

variable {cmp : α → α → Ordering} [Std.TransCmp cmp] {key : α} {value : β}
  {root : FLLRBNode α β}

theorem get_eq (h : OrderedAssoc.Increasing cmp root.toList) :
    get cmp key root = OrderedAssoc.find cmp key root.toList := by
  induction root with
  | emptyNode => rfl
  | valueNode key' value color left right ihl ihr =>
    obtain ⟨hleft, hright, -, -, -⟩ := OrderedAssoc.increasing_append_cons.mp h
    rw [get, FLLRBNode.toList, OrderedAssoc.find_append_cons h, ihl hleft, ihr hright]
    cases cmp key key' <;> rfl

theorem insertKey_spec (key : α) (value : β) (h : root.Valid)
    (hinc : OrderedAssoc.Increasing cmp root.toList) :
    (insertKey cmp key value root).Valid ∧ (insertKey cmp key value root).toList =
      OrderedAssoc.insert cmp id key value root.toList := by
  rw [insertKey, FLLRBNode.toList_withColor, FLLRBNode.toList_insertKey hinc]
  exact ⟨(FLLRBNode.inserted_insertKey h).nearlyValid.withColor_black, rfl⟩

theorem removeKey_spec (key : α) (h : root.Valid) (hblack : root.isRed = false)
    (hinc : OrderedAssoc.Increasing cmp root.toList) :
    (removeKey cmp key root).Valid ∧ (removeKey cmp key root).toList =
      OrderedAssoc.erase cmp key root.toList := by
  rw [removeKey]
  split
  · rename_i hnone
    rw [get_eq hinc, Option.isNone_iff_eq_none, OrderedAssoc.find_eq_none_iff] at hnone
    exact ⟨h, (OrderedAssoc.erase_eq_self hnone).symm⟩
  · exact FLLRBNode.remove_root h hblack hinc

omit [Std.TransCmp cmp] in
theorem isRed_insertKey : (insertKey cmp key value root).isRed = false := by
  rw [insertKey]
  cases root.insertKey cmp key value <;> rfl

omit [Std.TransCmp cmp] in
theorem isRed_removeKey (hblack : root.isRed = false) :
    (removeKey cmp key root).isRed = false := by
  rw [removeKey]
  split
  · exact hblack
  · cases root.remove cmp key <;> rfl

end FTreeSortedDictionary

/-! ## Either of them -/

namespace FImmutableSortedDictionary

variable {cmp : α → α → Ordering} [Std.TransCmp cmp] {key : α} {value : β}
  {d d' : FImmutableSortedDictionary α β}

omit [Std.TransCmp cmp] in
theorem WellFormed.array {entries : List (α × β)} (h : OrderedAssoc.Increasing cmp entries)
    (hlen : entries.length ≤ arrayToTreeSizeThreshold) : WellFormed cmp (array entries) := by
  refine ⟨h, fun entries' hsame => ?_, fun root hroot => ?_⟩
  · cases hsame
    exact hlen
  · cases hroot

omit [Std.TransCmp cmp] in
theorem WellFormed.tree {root : FLLRBNode α β} (h : OrderedAssoc.Increasing cmp root.toList)
    (hvalid : root.Valid) (hblack : root.isRed = false) : WellFormed cmp (tree root) := by
  refine ⟨h, fun entries hentries => ?_, fun root' hsame => ?_⟩
  · cases hentries
  · cases hsame
    exact ⟨hvalid, hblack⟩

theorem WellFormed.get_eq (h : d.WellFormed cmp) :
    d.get cmp key = OrderedAssoc.find cmp key d.entries := by
  cases d with
  | array entries => exact FArraySortedDictionary.get_eq h.increasing
  | tree root => exact FTreeSortedDictionary.get_eq h.increasing

/-- Whether a key that is there already is kept depends on how the entries are stored. -/
def Keeps (key : α) (keep : α → α) : Prop := ∀ c, keep c = c ∨ keep c = key

theorem Keeps.eq {keep : α → α} (h : Keeps key keep) (c : α) (hc : cmp key c = .eq) :
    cmp (keep c) c = .eq := by
  rcases h c with heq | heq
  · rw [heq]
    exact Std.ReflCmp.compare_self
  · rw [heq]
    exact hc

/-- **Inserting** raises no exception. -/
theorem WellFormed.insertKey (h : d.WellFormed cmp) (key : α) (value : β) :
    ∃ d' keep, d.insertKey cmp key value = some d' ∧ d'.WellFormed cmp ∧ Keeps key keep ∧
      d'.entries = OrderedAssoc.insert cmp keep key value d.entries := by
  cases d with
  | array entries =>
    have hinc : OrderedAssoc.Increasing cmp entries := h.increasing
    have hid : Keeps key (id : α → α) := fun c => Or.inl rfl
    rw [FImmutableSortedDictionary.insertKey, FArraySortedDictionary.insertKey]
    rcases FArraySortedDictionary.findKey_cases key hinc with
      ⟨hnone, hne⟩ | ⟨xs, p, ys, rfl, hp, hsome⟩
    · rw [hnone]
      by_cases hlen : entries.length ≥ arrayToTreeSizeThreshold
      · obtain ⟨root, hroot, hvalid, hblack, hlist⟩ :=
          FArraySortedDictionary.fromDictionary_concat value hinc hne
        refine ⟨.tree root, id, ?_, WellFormed.tree ?_ hvalid hblack, hid, hlist⟩
        · simp only [if_pos hlen, hroot, Option.map_some]
        · rw [hlist]
          exact OrderedAssoc.increasing_insert hid.eq hinc
      · have hidx := FArraySortedDictionary.insertIdx_findInsertPositionForKey id value hne
        refine ⟨_, id, if_neg hlen, WellFormed.array ?_ ?_, hid, hidx⟩
        · rw [hidx]
          exact OrderedAssoc.increasing_insert hid.eq hinc
        · exact List.length_insertIdx_le_succ.trans (Nat.lt_of_not_ge hlen)
    · have hkey : Keeps key fun _ => key := fun c => Or.inr rfl
      have hset := FArraySortedDictionary.set_findKey value hinc hp
      rw [hsome]
      refine ⟨_, fun _ => key, rfl, WellFormed.array ?_ ?_, hkey, hset⟩
      · rw [hset]
        exact OrderedAssoc.increasing_insert hkey.eq hinc
      · rw [List.length_set]
        exact h.length_le _ rfl
  | tree root =>
    have hid : Keeps key (id : α → α) := fun c => Or.inl rfl
    obtain ⟨hvalid, hlist⟩ :=
      FTreeSortedDictionary.insertKey_spec key value (h.valid root rfl).1 h.increasing
    refine ⟨_, id, rfl, WellFormed.tree ?_ hvalid FTreeSortedDictionary.isRed_insertKey, hid,
      hlist⟩
    rw [hlist]
    exact OrderedAssoc.increasing_insert hid.eq h.increasing

/-- **Removing.** -/
theorem WellFormed.removeKey (h : d.WellFormed cmp) (key : α) :
    (d.removeKey cmp key).WellFormed cmp ∧
      (d.removeKey cmp key).entries = OrderedAssoc.erase cmp key d.entries := by
  cases d with
  | array entries =>
    have hinc : OrderedAssoc.Increasing cmp entries := h.increasing
    have hlist := FArraySortedDictionary.removeKey_eq key hinc
    refine ⟨WellFormed.array ?_ ?_, hlist⟩
    · rw [hlist]
      exact OrderedAssoc.increasing_erase hinc
    · rw [hlist]
      exact (List.length_filter_le ..).trans (h.length_le entries rfl)
  | tree root =>
    obtain ⟨hroot, hblack⟩ := h.valid root rfl
    obtain ⟨hvalid, hlist⟩ :=
      FTreeSortedDictionary.removeKey_spec key hroot hblack h.increasing
    refine ⟨WellFormed.tree ?_ hvalid (FTreeSortedDictionary.isRed_removeKey hblack), hlist⟩
    rw [hlist]
    exact OrderedAssoc.increasing_erase h.increasing

omit [Std.TransCmp cmp] in
theorem wellFormed_dictionaryWithComparator :
    (dictionaryWithComparator : FImmutableSortedDictionary α β).WellFormed cmp :=
  WellFormed.array List.Pairwise.nil (Nat.zero_le _)

/-- **One step**, and what it writes. -/
theorem WellFormed.step (h : d.WellFormed cmp) (op : Op α β) :
    ∃ d', d.step cmp op = some d' ∧ d'.WellFormed cmp ∧
      ∀ key, d'.get cmp key = op.written cmp key (d.get cmp key) := by
  cases op with
  | insertKey key value =>
    obtain ⟨d', keep, hd', h', hkeep, hentries⟩ := h.insertKey key value
    refine ⟨d', hd', h', fun key' => ?_⟩
    rw [h'.get_eq, h.get_eq, hentries, OrderedAssoc.find_insert hkeep.eq]
    rfl
  | removeKey key =>
    obtain ⟨h', hentries⟩ := h.removeKey key
    refine ⟨_, rfl, h', fun key' => ?_⟩
    rw [h'.get_eq, h.get_eq, hentries, OrderedAssoc.find_erase]
    rfl

omit [Std.TransCmp cmp] in
/-- A tree passes its own checks, and it is at most twice as deep as it has to be. -/
theorem WellFormed.balanced (h : d.WellFormed cmp) {root : FLLRBNode α β} (hd : d = .tree root) :
    root.check.isSome ∧ root.checkMaxDepth = some true ∧
      root.depth ≤ 2 * Nat.log2 (root.count + 1) := by
  obtain ⟨hvalid, hblack⟩ := h.valid root hd
  refine ⟨?_, FLLRBNode.checkMaxDepth_eq hvalid, ?_⟩
  · rw [FLLRBNode.check_eq_some_iff.mpr ⟨hvalid, rfl⟩]
    rfl
  · have hdepth := FLLRBNode.depth_le hvalid
    have hheight : root.blackHeight ≤ Nat.log2 (root.count + 1) :=
      (Nat.le_log2 (Nat.succ_ne_zero _)).mpr (FLLRBNode.two_pow_blackHeight_le hvalid)
    rw [hblack, if_neg Bool.false_ne_true] at hdepth
    omega

end FImmutableSortedDictionary

open FImmutableSortedDictionary in
/-- **Whatever is done to a dictionary.** In every run from the empty dictionary no exception
is raised, the keys increase, and each key has what was last written under it or under one
that the comparator takes for the same; and a tree is balanced. -/
theorem sortedDictionary_get {cmp : α → α → Ordering} [Std.TransCmp cmp] (ops : List (Op α β)) :
    ∃ d, Runs.run (step cmp) dictionaryWithComparator ops = some d ∧
      OrderedAssoc.Increasing cmp d.entries ∧
      (∀ key, d.get cmp key = ops.foldl (Op.written cmp key) none) ∧
      ∀ root, d = .tree root → root.check.isSome ∧ root.checkMaxDepth = some true ∧
        root.depth ≤ 2 * Nat.log2 (root.count + 1) := by
  obtain ⟨d, hd, h, hget⟩ := Runs.run_induction
    (fun (hist : List (Op α β)) (d : FImmutableSortedDictionary α β) => d.WellFormed cmp ∧
      ∀ key, d.get cmp key = hist.foldl (Op.written cmp key) none)
    (fun _ => True) (fun _ _ _ => trivial)
    ⟨wellFormed_dictionaryWithComparator, fun _ => rfl⟩
    (fun hist d op ⟨h, hget⟩ _ => by
      obtain ⟨d', hd', h', hget'⟩ := h.step op
      refine ⟨d', hd', h', fun key => ?_⟩
      rw [hget', hget, List.foldl_append]
      rfl) ops trivial
  exact ⟨d, hd, h.increasing, hget, fun root hroot => h.balanced hroot⟩

/-- Entries come and go, and one is written anew. -/
theorem sortedDictionary_get_nat : ∃ d : FImmutableSortedDictionary ℕ String,
    Runs.run (FImmutableSortedDictionary.step compare)
        FImmutableSortedDictionary.dictionaryWithComparator
        [.insertKey 2 "b", .insertKey 1 "a", .removeKey 2, .insertKey 1 "c"] = some d ∧
      OrderedAssoc.Increasing compare d.entries ∧
      (∀ key, d.get compare key = [.insertKey 2 "b", .insertKey 1 "a", .removeKey 2,
        .insertKey 1 "c"].foldl (FImmutableSortedDictionary.Op.written compare key) none) ∧
      ∀ root, d = .tree root → root.check.isSome ∧ root.checkMaxDepth = some true ∧
        root.depth ≤ 2 * Nat.log2 (root.count + 1) :=
  sortedDictionary_get _

/-! ## Names for keys -/

namespace FImmutableSortedDictionary

open FUtilities

/-- The key that is written or removed. -/
def Op.key : Op α β → α
  | insertKey key _ => key
  | removeKey key => key

/-- The entries, after one more step. -/
def Op.after {γ : Type} (entries : SortedDictionary γ) : Op String γ → SortedDictionary γ
  | insertKey key value => entries.insertKey key value
  | removeKey key => entries.removeKey key

section Names

variable {γ : Type} {d : FImmutableSortedDictionary String γ} {entries : SortedDictionary γ}
  {ops : List (Op String γ)} {key : String}

/-- Of names that are told apart the right one is removed. -/
theorem erase_eq_removeKey {l : List (String × γ)} (hkey : ∀ p ∈ l, SameZero key p.1 → key = p.1) :
    OrderedAssoc.erase keyComparator key l = SortedDictionary.removeKey l key := by
  refine List.filter_congr fun p hp => ?_
  rw [Bool.eq_iff_iff, decide_eq_true_eq, bne_iff_ne, ne_eq, keyComparator_eq_iff]
  refine not_congr ⟨fun h => ?_, fun h => Or.inl h.symm⟩
  exact h.elim Eq.symm fun hzero => (hkey p hp hzero).symm

/-- **One step** on either. -/
theorem WellFormed.step_perm (h : d.WellFormed keyComparator) (hperm : d.entries.Perm entries)
    {op : Op String γ} (hop : ∀ p ∈ entries, SameZero op.key p.1 → op.key = p.1) :
    ∃ d', d.step keyComparator op = some d' ∧ d'.WellFormed keyComparator ∧
      d'.entries.Perm (op.after entries) := by
  have herase : (OrderedAssoc.erase keyComparator op.key d.entries).Perm
      (SortedDictionary.removeKey entries op.key) := by
    rw [erase_eq_removeKey fun p hp => hop p (hperm.mem_iff.mp hp)]
    exact hperm.filter _
  cases op with
  | insertKey key value =>
    obtain ⟨d', keep, hd', h', hkeep, hentries⟩ := h.insertKey key value
    refine ⟨d', hd', h', ?_⟩
    rw [hentries]
    refine (OrderedAssoc.perm_insert h.increasing fun q hq hqkey => ?_).trans
      ((herase.cons _).trans (List.perm_append_singleton ..).symm)
    -- the key that is there is the one inserted
    have hsame : key = q.1 := (keyComparator_eq_iff.mp hqkey).elim id
      (hop q (hperm.mem_iff.mp hq))
    exact (hkeep q.1).elim (fun hq' => hq'.trans hsame.symm) id
  | removeKey key =>
    obtain ⟨h', hentries⟩ := h.removeKey key
    refine ⟨_, rfl, h', ?_⟩
    rw [hentries]
    exact herase

/-- Only what was inserted is there. -/
theorem exists_key_of_mem {p : String × γ} (hp : p ∈ ops.foldl Op.after []) :
    ∃ op ∈ ops, op.key = p.1 := by
  induction ops using List.reverseRecOn with
  | nil => exact absurd hp List.not_mem_nil
  | append_singleton ops op ih =>
    have hold (hp : p ∈ ops.foldl Op.after []) : ∃ op' ∈ ops ++ [op], op'.key = p.1 := by
      obtain ⟨op', hop', hkey⟩ := ih hp
      exact ⟨op', List.mem_append_left _ hop', hkey⟩
    rw [List.foldl_append] at hp
    cases op with
    | insertKey key value =>
      rcases SortedDictionary.mem_insertKey hp with hp | rfl
      · exact hold hp
      · exact ⟨_, List.mem_append_right _ (List.mem_singleton_self _), rfl⟩
    | removeKey key => exact hold (SortedDictionary.mem_removeKey hp)

/-- The same is found. -/
theorem WellFormed.get_eq_of_perm (h : d.WellFormed keyComparator)
    (hperm : d.entries.Perm entries) (hkey : ∀ p ∈ entries, SameZero key p.1 → key = p.1) :
    d.get keyComparator key = entries.get key := by
  rw [h.get_eq]
  cases hget : entries.get key with
  | some value =>
    have hmem := hperm.mem_iff.mpr (SortedDictionary.mem_of_get hget)
    exact OrderedAssoc.find_of_mem h.increasing hmem
  | none =>
    rw [OrderedAssoc.find_eq_none_iff]
    intro p hp heq
    have hp' := hperm.mem_iff.mp hp
    have hsame : key = p.1 := (keyComparator_eq_iff.mp heq).elim id (hkey p hp')
    exact bne_iff_ne.mp (List.lookup_eq_none_iff.mp hget p hp') hsame

end Names

end FImmutableSortedDictionary

open FImmutableSortedDictionary in
/-- **The children of a node.** In every run on names of which no two different ones are
zeros of one length, the dictionary holds just the entries that are held without any order,
and under each such name it finds the same. -/
theorem sortedDictionary_refines {γ : Type} {ops : List (Op String γ)}
    (hops : ∀ op ∈ ops, ∀ op' ∈ ops, FUtilities.SameZero op.key op'.key → op.key = op'.key) :
    ∃ d, Runs.run (step FUtilities.keyComparator) dictionaryWithComparator ops = some d ∧
      d.entries.Perm (ops.foldl Op.after []) ∧
      ∀ key, (∀ op ∈ ops, FUtilities.SameZero key op.key → key = op.key) →
        d.get FUtilities.keyComparator key = SortedDictionary.get (ops.foldl Op.after []) key := by
  obtain ⟨d, hd, h, hperm⟩ := Runs.run_induction
    (fun (hist : List (Op String γ)) (d : FImmutableSortedDictionary String γ) =>
      d.WellFormed FUtilities.keyComparator ∧ d.entries.Perm (hist.foldl Op.after []))
    (fun hist => ∀ op ∈ hist, ∀ op' ∈ hist, FUtilities.SameZero op.key op'.key → op.key = op'.key)
    (fun hist op hok op₁ h₁ op₂ h₂ =>
      hok op₁ (List.mem_append_left _ h₁) op₂ (List.mem_append_left _ h₂))
    ⟨wellFormed_dictionaryWithComparator, List.Perm.refl _⟩
    (fun hist d op ⟨h, hperm⟩ hok => by
      rw [List.foldl_append]
      refine h.step_perm hperm fun p hp hzero => ?_
      obtain ⟨op', hop', hkey⟩ := exists_key_of_mem hp
      rw [← hkey] at hzero ⊢
      exact hok op (by simp) op' (List.mem_append_left _ hop') hzero) ops hops
  refine ⟨d, hd, hperm, fun key hkey => h.get_eq_of_perm hperm fun p hp hzero => ?_⟩
  obtain ⟨op, hop, hopkey⟩ := exists_key_of_mem hp
  rw [← hopkey] at hzero ⊢
  exact hkey op hop hzero

/-- Two names and a zero. -/
def sampleNames : List (FImmutableSortedDictionary.Op String ℕ) :=
  [.insertKey "username" 1, .insertKey "00" 2, .insertKey "conversations" 3, .removeKey "username"]

theorem sortedDictionary_refines_sampleNames : ∃ d,
    Runs.run (FImmutableSortedDictionary.step FUtilities.keyComparator)
        FImmutableSortedDictionary.dictionaryWithComparator sampleNames = some d ∧
      d.entries.Perm (sampleNames.foldl FImmutableSortedDictionary.Op.after []) ∧
      ∀ key, (∀ op ∈ sampleNames, FUtilities.SameZero key op.key → key = op.key) →
        d.get FUtilities.keyComparator key =
          SortedDictionary.get (sampleNames.foldl FImmutableSortedDictionary.Op.after []) key :=
  sortedDictionary_refines (by decide +kernel)

/-- Another zero of that length is written in its place. -/
example : (Runs.run (FImmutableSortedDictionary.step FUtilities.keyComparator)
    FImmutableSortedDictionary.dictionaryWithComparator
    [.insertKey "00" 2, .insertKey "-0" 3]).map FImmutableSortedDictionary.entries =
      some [("-0", 3)] := by
  decide +kernel

end MoonMessenger
