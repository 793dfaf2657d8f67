import Mathlib.Data.List.Sort
import Mathlib.Data.List.Nodup

/-!
# Sorting by a key

`sortOn key l` sorts `l` by the values of `key` and keeps the order of elements with
the same key: a stable sort. What it returns is determined by two facts, that it is
sorted and that it does not touch the elements of any one key (`filter_sortOn`):

* `eq_of_forall_filter_eq` — two sorted lists with the same elements of each key, in
  the same order, are the same;
* `sortOn_eq_sortOn_iff` — so two lists sort to the same list exactly when they agree
  on each key;
* `sortOn_eq_of_perm` — a permutation without equal keys sorts to the same list.
-/

namespace StableSort

universe u v w

variable {α : Type u} {β : Type v} {κ : Type w} [LinearOrder κ] {key : α → κ}

/-- Sort by a key, in a stable way. -/
def sortOn (key : α → κ) (l : List α) : List α := l.insertionSort fun a b => key a ≤ key b

theorem perm_sortOn (l : List α) : (sortOn key l).Perm l := List.perm_insertionSort _ l

@[simp] theorem mem_sortOn {l : List α} {a : α} : a ∈ sortOn key l ↔ a ∈ l :=
  (perm_sortOn l).mem_iff

theorem pairwise_sortOn (key : α → κ) (l : List α) :
    (sortOn key l).Pairwise fun a b => key a ≤ key b := by
  have : Std.Total fun a b : α => key a ≤ key b := ⟨fun a b => le_total (key a) (key b)⟩
  have : IsTrans α fun a b => key a ≤ key b := ⟨fun a b c => le_trans⟩
  exact List.pairwise_insertionSort _ l

/-- Sorting commutes with a map that keeps the keys. -/
theorem map_sortOn (key : α → κ) (key' : β → κ) (f : α → β) (hf : ∀ a, key' (f a) = key a)
    (l : List α) :
    (sortOn key l).map f = sortOn key' (l.map f) := by
  refine List.map_insertionSort _ _ f l fun a _ b _ => ?_
  rw [hf, hf]

/-- Inserting an element puts it in front of the others with its key and leaves every
other key alone. -/
theorem filter_orderedInsert (a : α) (l : List α) (k : κ) :
    (l.orderedInsert (fun a b => key a ≤ key b) a).filter (fun x => key x = k) =
      (a :: l).filter fun x => key x = k := by
  induction l with
  | nil => rfl
  | cons b l ih =>
    rw [List.orderedInsert_cons]
    split
    · rfl
    · rename_i hab
      rw [List.filter_cons, ih]
      by_cases ha : key a = k
      · -- `b` stands before `a`, so it has another key
        have hb : ¬ key b = k := fun hb => hab (le_of_eq (ha.trans hb.symm))
        simp [ha, hb]
      · simp [List.filter_cons, ha]

/-- **Stability.** The elements of one key come out in the order they went in. -/
theorem filter_sortOn (l : List α) (k : κ) :
    (sortOn key l).filter (fun x => key x = k) = l.filter fun x => key x = k := by
  induction l with
  | nil => rfl
  | cons a l ih =>
    rw [sortOn, List.insertionSort_cons, filter_orderedInsert, List.filter_cons, List.filter_cons,
      ← sortOn, ih]

/-- The first element of a list is in every list that agrees with it on its key. -/
theorem mem_of_filter_eq {a : α} {xs ys : List α}
    (h : (a :: xs).filter (fun x => key x = key a) = ys.filter fun x => key x = key a) :
    a ∈ ys := by
  have hmem : a ∈ ys.filter fun x => key x = key a := by
    rw [← h]
    exact List.mem_filter.mpr ⟨List.mem_cons_self .., by simp⟩
  exact (List.mem_filter.mp hmem).1

/-- The first element of a sorted list has the least key. -/
theorem key_head_le {a b : α} {ys : List α} (hys : (b :: ys).Pairwise fun a b => key a ≤ key b)
    (ha : a ∈ b :: ys) : key b ≤ key a := by
  rcases List.mem_cons.mp ha with rfl | ha
  · exact le_rfl
  · exact List.rel_of_pairwise_cons hys ha

/-- A sorted list is determined by its elements of each key. -/
theorem eq_of_forall_filter_eq {xs ys : List α} (hxs : xs.Pairwise fun a b => key a ≤ key b)
    (hys : ys.Pairwise fun a b => key a ≤ key b)
    (h : ∀ k, xs.filter (fun x => key x = k) = ys.filter fun x => key x = k) :
    xs = ys := by
  induction xs generalizing ys with
  | nil =>
    cases ys with
    | nil => rfl
    | cons b ys => exact absurd (mem_of_filter_eq (h (key b)).symm) List.not_mem_nil
  | cons a xs ih =>
    have ha : a ∈ ys := mem_of_filter_eq (h (key a))
    obtain ⟨b, ys, rfl⟩ := List.exists_cons_of_ne_nil (List.ne_nil_of_mem ha)
    have hb : b ∈ a :: xs := mem_of_filter_eq (h (key b)).symm
    -- the first elements have the same key: both are least
    have hkey : key a = key b := le_antisymm (key_head_le hxs hb) (key_head_le hys ha)
    -- so they are the same element, and the rests agree
    have hhead := h (key a)
    rw [List.filter_cons_of_pos (by simp), List.filter_cons_of_pos (by simp [hkey])] at hhead
    obtain rfl := (List.cons.inj hhead).1
    refine congrArg (List.cons a) (ih hxs.tail hys.tail fun k => ?_)
    have hk := h k
    rw [List.filter_cons, List.filter_cons] at hk
    split at hk
    · exact (List.cons.inj hk).2
    · exact hk

/-- Two lists sort to the same list exactly when they agree on each key. -/
theorem sortOn_eq_sortOn_iff {l l' : List α} : sortOn key l = sortOn key l' ↔
    ∀ k, l.filter (fun x => key x = k) = l'.filter fun x => key x = k := by
  refine ⟨fun h k => ?_, fun h => ?_⟩
  · rw [← filter_sortOn l k, h, filter_sortOn]
  · refine eq_of_forall_filter_eq (pairwise_sortOn key l) (pairwise_sortOn key l') fun k => ?_
    rw [filter_sortOn, filter_sortOn, h]

/-- Where no two different elements share a key, the order they come in does not matter. -/
theorem sortOn_eq_of_perm {l l' : List α} (hperm : l.Perm l')
    (hkey : ∀ a ∈ l, ∀ b ∈ l, key a = key b → a = b) : sortOn key l = sortOn key l' := by
  refine ((perm_sortOn l).trans (hperm.trans (perm_sortOn l').symm)).eq_of_pairwise ?_
    (pairwise_sortOn key l) (pairwise_sortOn key l')
  intro a b ha hb hab hba
  rw [mem_sortOn] at ha hb
  exact hkey a ha b (hperm.mem_iff.mpr hb) (le_antisymm hab hba)

end StableSort
