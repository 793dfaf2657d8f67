import MoonMessenger.Registers

/-!
# Values but for the order of their entries

Two nodes that hold the same can have their children in another order. They are handed over
as values that differ in the order of the entries, and in nothing else.

* `FNode.Proper.same_val` — nodes that hold the same have such values.
* `Json.Same.getMessages_eq` — the app reads the same messages from them, in the order in
  which one of them is enumerated.
-/

namespace MoonMessenger

namespace Json

/-- The same value, but for the order of the entries of its dictionaries. -/
inductive Same : Json → Json → Prop
  | refl (j : Json) : Same j j
  | array {elements elements' : List Json} (hlength : elements.length = elements'.length)
      (h : ∀ (i : ℕ) (j j' : Json), elements[i]? = some j → elements'[i]? = some j' → Same j j') :
      Same (array elements) (array elements')
  | dictionary {entries entries' : List (String × Json)} (hnd : (entries.map Prod.fst).Nodup)
      (hkeys : (entries.map Prod.fst).Perm (entries'.map Prod.fst))
      (h : ∀ key j j', (key, j) ∈ entries → (key, j') ∈ entries' → Same j j') :
      Same (dictionary entries) (dictionary entries')

section Children

variable {cs cs' : List (String × Json)} {keys : List ℕ}

theorem exists_mem_of_perm {key : String} {j : Json}
    (hkeys : (cs.map Prod.fst).Perm (cs'.map Prod.fst)) (hj : (key, j) ∈ cs) :
    ∃ j', (key, j') ∈ cs' := by
  have hkey : key ∈ cs'.map Prod.fst := hkeys.mem_iff.mp (List.mem_map_of_mem hj)
  obtain ⟨⟨key', j'⟩, hj', rfl⟩ := List.mem_map.mp hkey
  exact ⟨j', hj'⟩

/-- What two children of one name have in common, the values found have. -/
theorem lookup_rel {R : Json → Json → Prop} (hnd : (cs.map Prod.fst).Nodup)
    (hkeys : (cs.map Prod.fst).Perm (cs'.map Prod.fst))
    (h : ∀ key j j', (key, j) ∈ cs → (key, j') ∈ cs' → R j j') (key : String) :
    Option.Rel R (cs.lookup key) (cs'.lookup key) := by
  have hnd' : (cs'.map Prod.fst).Nodup := hkeys.nodup_iff.mp hnd
  by_cases hkey : key ∈ cs.map Prod.fst
  · obtain ⟨⟨key, j⟩, hj, rfl⟩ := List.mem_map.mp hkey
    obtain ⟨j', hj'⟩ := exists_mem_of_perm hkeys hj
    rw [lookup_of_mem hnd hj, lookup_of_mem hnd' hj']
    exact .some (h key j j' hj hj')
  · have hnone {ds : List (String × Json)} (hds : key ∉ ds.map Prod.fst) :
        ds.lookup key = none := by
      rw [List.lookup_eq_none_iff]
      intro p hp
      refine bne_iff_ne.mpr ?_
      rintro rfl
      exact hds (List.mem_map_of_mem hp)
    rw [hnone hkey, hnone (mt hkeys.mem_iff.mpr hkey)]
    exact .none

/-- Keys that are numbers stay so in another order. -/
theorem exists_keys_of_perm (hkeys : (cs.map Prod.fst).Perm (cs'.map Prod.fst))
    (h : cs.map Prod.fst = keys.map toString) :
    ∃ keys' : List ℕ, keys'.Perm keys ∧ cs'.map Prod.fst = keys'.map toString := by
  obtain ⟨keys', hkeys'⟩ : cs'.map Prod.fst ∈ Set.range (List.map (toString : ℕ → String)) := by
    rw [Set.range_list_map]
    intro key hkey
    rw [Set.mem_range]
    rw [← hkeys.mem_iff, h, List.mem_map] at hkey
    obtain ⟨i, -, hi⟩ := hkey
    exact ⟨i, hi⟩
  rw [h, ← hkeys'] at hkeys
  have hinjective : Function.Injective (toString : ℕ → String) := fun _ _ => Nat.repr_injective
  exact ⟨keys', ((List.map_perm_map_iff hinjective).mp hkeys).symm, hkeys'.symm⟩

/-- A node with the same children in another order is handed over as the same value. -/
theorem same_ofChildren (hnd : (cs.map Prod.fst).Nodup)
    (hkeys : (cs.map Prod.fst).Perm (cs'.map Prod.fst))
    (h : ∀ key j j', (key, j) ∈ cs → (key, j') ∈ cs' → Same j j') :
    Same (ofChildren cs) (ofChildren cs') := by
  have hlength : cs.length = cs'.length := by simpa using hkeys.length_eq
  have hdict : Same (dictionary cs) (dictionary cs') := .dictionary hnd hkeys h
  by_cases hne : cs = []
  · have hne' : cs' = [] := by simpa [hne, eq_comm] using hlength
    rw [hne, hne']
    exact .refl _
  have hempty : ¬ cs.isEmpty := by simpa using hne
  have hempty' : ¬ cs'.isEmpty := by
    intro hnil
    simp [List.isEmpty_iff.mp hnil, hne] at hlength
  rw [ofChildren, ofChildren, if_neg hempty, if_neg hempty']
  cases hmap : cs.mapM fun p => intForString p.1 with
  | none =>
    cases hmap' : cs'.mapM fun p => intForString p.1 with
    | none => exact hdict
    | some keys' =>
      obtain ⟨keys, -, hfst⟩ := exists_keys_of_perm hkeys.symm (mapM_intForString_eq_some.mp hmap')
      rw [mapM_intForString_eq_some.mpr hfst] at hmap
      cases hmap
  | some keys =>
    obtain ⟨keys', hperm, hfst⟩ := exists_keys_of_perm hkeys (mapM_intForString_eq_some.mp hmap)
    have hmax : keys'.foldl max 0 = keys.foldl max 0 := hperm.foldl_eq 0
    simp only [mapM_intForString_eq_some.mpr hfst, hmax, ← hlength]
    by_cases hdense : keys.foldl max 0 < 2 * cs.length
    · rw [if_pos hdense, if_pos hdense]
      refine .array (by simp) ?_
      intro i j j' hj hj'
      rw [List.getElem?_map, Option.map_eq_some_iff] at hj hj'
      obtain ⟨k, hk, rfl⟩ := hj
      obtain ⟨k', hk', rfl⟩ := hj'
      obtain rfl := Option.some.inj (hk.symm.trans hk')
      have hfound := lookup_rel hnd hkeys h (toString k)
      generalize cs.lookup (toString k) = a at *
      generalize cs'.lookup (toString k) = a' at *
      cases hfound with
      | some hsame => exact hsame
      | none => exact .refl _
    · rw [if_neg hdense, if_neg hdense]
      exact hdict

end Children

end Json

namespace FNode

open SortedDictionary

variable {m n : FNode} {cs cs' : List (String × FNode)} {key : String}

/-- Something stands in a node that is not empty. -/
theorem WellFormed.exists_leaf (h : n.WellFormed) : ∃ path v, n.leaves path = some v := by
  induction h with
  | leaf v => exact ⟨[], v, rfl⟩
  | @children cs hne hnd h ih =>
    obtain ⟨p, hp⟩ := List.exists_mem_of_ne_nil cs hne
    obtain ⟨path, v, hv⟩ := ih p hp
    refine ⟨p.1 :: path, v, ?_⟩
    rw [leaves_cons, FNode.getImmediateChild, get_of_mem hnd hp]
    exact hv

theorem eq_leaf_of_leaves {v : Leaf} (h : n.leaves [] = some v) : n = leaf v := by
  cases n with
  | leaf v' => exact congrArg leaf (Option.some.inj h)
  | children cs => cases h

theorem Proper.wellFormed_of_get (h : (children cs).Proper) {c : FNode} (hc : get cs key = some c) :
    c.WellFormed := by
  rcases h with hnil | h
  · obtain rfl : cs = [] := by injection hnil
    cases hc
  · cases h with
    | children hne hnd hall => exact hall (key, c) (mem_of_get hc)

theorem Proper.nodup_keys (h : (children cs).Proper) : (cs.map Prod.fst).Nodup := by
  rcases h with hnil | h
  · obtain rfl : cs = [] := by injection hnil
    exact List.nodup_nil
  · cases h with
    | children hne hnd hall => exact hnd

/-- The children of nodes that hold the same: they have the same keys, and hold the same. -/
theorem Proper.get_rel (hn : (children cs).Proper) (hm : (children cs').Proper)
    (h : (children cs).leaves = (children cs').leaves) (key : String) :
    Option.Rel (fun c c' => c.leaves = c'.leaves) (get cs key) (get cs' key) := by
  have hchild : ((get cs key).getD emptyNode).leaves = ((get cs' key).getD emptyNode).leaves := by
    funext path
    have hpath := congrFun h (key :: path)
    simpa [leaves_cons, FNode.getImmediateChild] using hpath
  cases hc : get cs key with
  | none =>
    cases hc' : get cs' key with
    | none => exact .none
    | some c' =>
      obtain ⟨path, v, hv⟩ := (hm.wellFormed_of_get hc').exists_leaf
      have hpath := congrFun hchild path
      simp [hc, hc', hv] at hpath
  | some c =>
    cases hc' : get cs' key with
    | none =>
      obtain ⟨path, v, hv⟩ := (hn.wellFormed_of_get hc).exists_leaf
      have hpath := congrFun hchild path
      simp [hc, hc', hv] at hpath
    | some c' =>
      rw [hc, hc'] at hchild
      exact .some hchild

theorem exists_get_iff (key : String) : (∃ c, get cs key = some c) ↔ key ∈ cs.map Prod.fst := by
  constructor
  · rintro ⟨c, hc⟩
    exact List.mem_map_of_mem (f := Prod.fst) (mem_of_get hc)
  · intro hkey
    obtain ⟨p, hp, rfl⟩ := List.mem_map.mp hkey
    cases hget : get cs p.1 with
    | some c => exact ⟨c, rfl⟩
    | none =>
      rw [SortedDictionary.get, List.lookup_eq_none_iff] at hget
      simpa using hget p hp

/-- Nodes that hold the same have children of the same names. -/
theorem Proper.keys_perm (hn : (children cs).Proper) (hm : (children cs').Proper)
    (h : (children cs).leaves = (children cs').leaves) :
    (cs.map Prod.fst).Perm (cs'.map Prod.fst) := by
  rw [List.perm_ext_iff_of_nodup hn.nodup_keys hm.nodup_keys]
  intro key
  have hrel := hn.get_rel hm h key
  rw [← exists_get_iff, ← exists_get_iff]
  generalize get cs key = a at *
  generalize get cs' key = a' at *
  cases hrel <;> simp

/-- **Nodes that hold the same** are handed over as the same value, but for the order of
its entries. -/
theorem Proper.same_val (hn : n.Proper) (hm : m.Proper) (h : n.leaves = m.leaves) :
    n.val.Same m.val := by
  have hempty {n m : FNode} (hm : m.Proper) (hn : n = emptyNode) (h : n.leaves = m.leaves) :
      m = emptyNode := by
    refine hm.resolve_right fun hwf => ?_
    obtain ⟨path, v, hv⟩ := hwf.exists_leaf
    rw [← h, hn, leaves_emptyNode] at hv
    cases hv
  rcases hn with hn | hn
  · rw [hempty hm hn h, hn]
    exact .refl _
  · induction hn generalizing m with
    | leaf v =>
      rw [eq_leaf_of_leaves (v := v) (n := m) (by rw [← h]; rfl)]
      exact .refl _
    | @children cs hne hnd hall ih =>
      cases m with
      | leaf v =>
        have hv := congrFun h []
        cases hv
      | children cs' =>
        have hn : (children cs).Proper := Or.inr (.children hne hnd hall)
        rw [val, val, vals_eq_map, vals_eq_map]
        refine Json.same_ofChildren ?_ ?_ ?_
        · rwa [List.map_map]
        · rw [List.map_map, List.map_map]
          exact hn.keys_perm hm h
        · intro key j j' hj hj'
          obtain ⟨⟨k, c⟩, hc, heq⟩ := List.mem_map.mp hj
          obtain ⟨⟨k', c'⟩, hc', heq'⟩ := List.mem_map.mp hj'
          obtain ⟨rfl, rfl⟩ := Prod.mk.inj heq
          obtain ⟨rfl, rfl⟩ := Prod.mk.inj heq'
          have hget' : get cs' k' = some c' := get_of_mem hm.nodup_keys hc'
          have hrel := hn.get_rel hm h k'
          rw [get_of_mem hnd hc, hget'] at hrel
          cases hrel with
          | some hleaves => exact ih _ hc (Or.inr (hm.wellFormed_of_get hget')) hleaves

end FNode

/-! ## What the app reads -/

namespace Json

variable {j j' : Json}

theorem Same.asString?_eq (h : Same j j') : j.asString? = j'.asString? := by
  cases h <;> rfl

theorem Same.asTimeInterval?_eq (h : Same j j') : j.asTimeInterval? = j'.asTimeInterval? := by
  cases h <;> rfl

/-- A field that is read from either dictionary. -/
theorem Same.lookup_bind_eq {α : Type} {entries entries' : List (String × Json)}
    (hnd : (entries.map Prod.fst).Nodup)
    (hkeys : (entries.map Prod.fst).Perm (entries'.map Prod.fst))
    (h : ∀ key j j', (key, j) ∈ entries → (key, j') ∈ entries' → Same j j')
    {cast : Json → Option α} (hcast : ∀ j j', Same j j' → cast j = cast j') (key : String) :
    (entries.lookup key).bind cast = (entries'.lookup key).bind cast := by
  have hfound := lookup_rel hnd hkeys h key
  generalize entries.lookup key = a at *
  generalize entries'.lookup key = a' at *
  cases hfound with
  | some hsame => exact hcast _ _ hsame
  | none => rfl

/-- A message is decoded by the names of its fields. -/
theorem Same.decodeMessage_eq (h : Same j j') (uid : String) (calls : Backend.Calls) :
    Backend.decodeMessage uid calls j = Backend.decodeMessage uid calls j' := by
  cases h with
  | refl => rfl
  | array => rfl
  | dictionary hnd hkeys h =>
    have hstring (key : String) := lookup_bind_eq hnd hkeys h (fun _ _ => Same.asString?_eq) key
    have htime := lookup_bind_eq hnd hkeys h (fun _ _ => Same.asTimeInterval?_eq) "date"
    simp only [Backend.decodeMessage, asDictionary?_dictionary, hstring, htime]

theorem decodeMessages_eq {uid : String} {data data' : List (String × Json)}
    (calls : ℕ → Backend.Calls) (h : List.Forall₂ (fun p q => Same p.2 q.2) data data') :
    Backend.decodeMessages uid calls data = Backend.decodeMessages uid calls data' := by
  induction h generalizing calls with
  | nil => rfl
  | cons hp _ ih =>
    simp only [Backend.decodeMessages, List.map_cons, List.mapIdx_cons] at ih ⊢
    rw [hp.decodeMessage_eq, ih fun i => calls (i + 1)]

/-- **The same messages** are read from both values, for each order in which one of them is
enumerated and one for the other. -/
theorem Same.getMessages_eq (h : Same j j') (e : Enumeration) :
    ∃ e' : Enumeration, ∀ uid calls,
      Backend.getMessages uid (e.apply j) calls = Backend.getMessages uid (e'.apply j') calls := by
  cases h with
  | refl => exact ⟨e, fun uid calls => rfl⟩
  | array hlength h => exact ⟨e, fun uid calls => rfl⟩
  | @dictionary entries entries' hnd hkeys h =>
    classical
    have hnd' : (entries'.map Prod.fst).Nodup := hkeys.nodup_iff.mp hnd
    have hfst : ((e.order entries).map Prod.fst).Perm (entries'.map Prod.fst) :=
      ((e.perm entries).map _).trans hkeys
    -- the entries of the one by the keys of the other
    let ordered := (e.order entries).map fun p => (p.1, (entries'.lookup p.1).getD .null)
    have hlookup {p : String × Json} (hp : p ∈ e.order entries) :
        ∃ j', (p.1, j') ∈ entries' ∧ entries'.lookup p.1 = some j' := by
      obtain ⟨j', hj'⟩ := exists_mem_of_perm hfst (j := p.2) hp
      exact ⟨j', hj', lookup_of_mem hnd' hj'⟩
    have hordered : ordered.Perm entries' := by
      have hkeys' : ordered.map Prod.fst = (e.order entries).map Prod.fst := by
        rw [List.map_map]
        rfl
      have hndo : (ordered.map Prod.fst).Nodup := by
        rw [hkeys']
        exact hfst.nodup_iff.mpr hnd'
      refine (List.subperm_of_subset hndo.of_map fun p hp => ?_).perm_of_length_le ?_
      · obtain ⟨q, hq, rfl⟩ := List.mem_map.mp hp
        obtain ⟨j', hj', hfound⟩ := hlookup hq
        simpa [hfound] using hj'
      · have hlength := hfst.length_eq
        simp only [List.length_map] at hlength
        simp [ordered, hlength]
    refine ⟨⟨fun es => if es = entries' then ordered else es, fun es => ?_⟩, fun uid calls => ?_⟩
    · split
      · rename_i heq
        rw [heq]
        exact hordered
      · exact List.Perm.refl es
    · simp only [Enumeration.apply, if_true, Backend.getMessages, asDictionary?_dictionary]
      cases uid with
      | none => rfl
      | some uid =>
        have hsame : List.Forall₂ (fun p q => Same p.2 q.2) (e.order entries) ordered := by
          rw [List.forall₂_map_right_iff, List.forall₂_same]
          intro p hp
          obtain ⟨j', hj', hfound⟩ := hlookup hp
          rw [hfound, Option.getD_some]
          exact h p.1 p.2 j' ((e.perm entries).mem_iff.mp hp) hj'
        simp [decodeMessages_eq calls hsame]

end Json

end MoonMessenger
