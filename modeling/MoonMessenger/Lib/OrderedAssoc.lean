import Mathlib.Data.List.Basic
import Mathlib.Order.Compare

/-!
# Association lists in the order of a comparator

A list of keys with their values, in which the keys increase. The comparator need not tell
all keys apart: what it takes for the same is one key here.

* `find_insert`, `find_erase` — what is found after inserting and erasing.
* `increasing_insert`, `increasing_erase` — the keys still increase.
* `increasing_sort`, `eq_of_perm` — keys that are told apart can be brought into this order,
  and in one way only.
* `find_append_cons`, `insert_append_of_lt`, `insert_append_of_not_lt`, `erase_append_cons`
  — all three at an entry in the middle: a search tree does the same with its root.
-/

namespace OrderedAssoc

universe u v

variable {α : Type u} {β : Type v}

/-- The keys increase. -/
def Increasing (cmp : α → α → Ordering) (l : List (α × β)) : Prop :=
  l.Pairwise fun p q => cmp p.1 q.1 = .lt

/-- The value of a key. -/
def find (cmp : α → α → Ordering) (a : α) : List (α × β) → Option β
  | [] => none
  | p :: l => if cmp a p.1 = .eq then some p.2 else find cmp a l

/-- Insert an entry. Where the key is there already, it is replaced by what `keep` makes of
it. -/
def insert (cmp : α → α → Ordering) (keep : α → α) (a : α) (b : β) : List (α × β) → List (α × β)
  | [] => [(a, b)]
  | p :: l =>
    match cmp a p.1 with
    | .lt => (a, b) :: p :: l
    | .eq => (keep p.1, b) :: l
    | .gt => p :: insert cmp keep a b l

/-- Erase a key. -/
def erase (cmp : α → α → Ordering) (a : α) (l : List (α × β)) : List (α × β) :=
  l.filter fun p => cmp a p.1 ≠ .eq

section Basic

variable {cmp : α → α → Ordering} {keep : α → α} {a : α} {b : β} {p : α × β}
  {l xs ys : List (α × β)}

@[simp] theorem find_nil : find cmp a ([] : List (α × β)) = none := rfl

theorem find_cons : find cmp a (p :: l) = if cmp a p.1 = .eq then some p.2 else find cmp a l := rfl

theorem find_append : find cmp a (xs ++ ys) = (find cmp a xs).or (find cmp a ys) := by
  induction xs with
  | nil => rfl
  | cons p xs ih =>
    rw [List.cons_append, find_cons, find_cons, ih]
    split <;> rfl

theorem find_eq_none (h : ∀ q ∈ l, cmp a q.1 ≠ .eq) : find cmp a l = none := by
  induction l with
  | nil => rfl
  | cons p l ih =>
    rw [find_cons, if_neg (h p (List.mem_cons_self ..)),
      ih fun q hq => h q (List.mem_cons_of_mem p hq)]

theorem find_eq_none_iff : find cmp a l = none ↔ ∀ q ∈ l, cmp a q.1 ≠ .eq := by
  refine ⟨fun h => ?_, find_eq_none⟩
  induction l with
  | nil => exact fun q hq => absurd hq List.not_mem_nil
  | cons p l ih =>
    rw [find_cons] at h
    split at h
    · cases h
    · rename_i hp
      exact List.forall_mem_cons.mpr ⟨hp, ih h⟩

theorem increasing_append_cons : Increasing cmp (xs ++ p :: ys) ↔
    Increasing cmp xs ∧ Increasing cmp ys ∧ (∀ q ∈ xs, cmp q.1 p.1 = .lt) ∧
      (∀ q ∈ ys, cmp p.1 q.1 = .lt) ∧ ∀ q ∈ xs, ∀ r ∈ ys, cmp q.1 r.1 = .lt := by
  rw [Increasing, List.pairwise_append, List.pairwise_cons]
  constructor
  · rintro ⟨hxs, ⟨hpys, hys⟩, hcross⟩
    exact ⟨hxs, hys, fun q hq => hcross q hq p (List.mem_cons_self ..), hpys,
      fun q hq r hr => hcross q hq r (List.mem_cons_of_mem p hr)⟩
  · rintro ⟨hxs, hys, hxsp, hpys, hcross⟩
    exact ⟨hxs, ⟨hpys, hys⟩, fun q hq => List.forall_mem_cons.mpr ⟨hxsp q hq, hcross q hq⟩⟩

/-- Inserting into a list that is cut at a greater key happens before the cut. -/
theorem insert_append_of_lt (h : cmp a p.1 = .lt) :
    insert cmp keep a b (xs ++ p :: ys) = insert cmp keep a b xs ++ p :: ys := by
  induction xs with
  | nil =>
    simp only [List.nil_append, insert, h]
    rfl
  | cons q xs ih =>
    simp only [List.cons_append, insert]
    cases cmp a q.1 with
    | lt => rfl
    | eq => rfl
    | gt => exact congrArg (q :: ·) ih

/-- After smaller keys it happens among the rest. -/
theorem insert_append_of_gt (h : ∀ q ∈ xs, cmp a q.1 = .gt) :
    insert cmp keep a b (xs ++ ys) = xs ++ insert cmp keep a b ys := by
  induction xs with
  | nil => rfl
  | cons q xs ih =>
    have hq := h q (List.mem_cons_self ..)
    simp only [List.cons_append, insert, hq]
    rw [ih fun r hr => h r (List.mem_cons_of_mem q hr)]

theorem mem_insert {q : α × β} (h : q ∈ insert cmp keep a b l) :
    q ∈ l ∨ q = (a, b) ∨ ∃ r ∈ l, cmp a r.1 = .eq ∧ q = (keep r.1, b) := by
  induction l with
  | nil => exact Or.inr (Or.inl (List.mem_singleton.mp h))
  | cons p l ih =>
    rw [insert] at h
    split at h
    · rcases List.mem_cons.mp h with rfl | h
      · exact Or.inr (Or.inl rfl)
      · exact Or.inl h
    · rename_i hp
      rcases List.mem_cons.mp h with rfl | h
      · exact Or.inr (Or.inr ⟨p, List.mem_cons_self .., hp, rfl⟩)
      · exact Or.inl (List.mem_cons_of_mem p h)
    · rcases List.mem_cons.mp h with rfl | h
      · exact Or.inl (List.mem_cons_self ..)
      · refine (ih h).imp (List.mem_cons_of_mem p) (Or.imp_right ?_)
        rintro ⟨r, hr, hrest⟩
        exact ⟨r, List.mem_cons_of_mem p hr, hrest⟩

theorem erase_append : erase cmp a (xs ++ ys) = erase cmp a xs ++ erase cmp a ys :=
  List.filter_append ..

theorem erase_eq_self (h : ∀ q ∈ l, cmp a q.1 ≠ .eq) : erase cmp a l = l :=
  List.filter_eq_self.mpr fun q hq => decide_eq_true (h q hq)

theorem erase_cons_of_ne (h : cmp a p.1 ≠ .eq) : erase cmp a (p :: l) = p :: erase cmp a l :=
  List.filter_cons_of_pos (decide_eq_true h)

theorem erase_cons_of_eq (h : cmp a p.1 = .eq) : erase cmp a (p :: l) = erase cmp a l :=
  List.filter_cons_of_neg (by simp [h])

theorem increasing_erase (h : Increasing cmp l) : Increasing cmp (erase cmp a l) :=
  h.sublist List.filter_sublist

end Basic

section Trans

variable {cmp : α → α → Ordering} [Std.TransCmp cmp] {keep : α → α} {a a' : α} {b : β}
  {p : α × β} {l xs ys : List (α × β)}

/-- A key that is the same as one is compared like that one. -/
theorem gt_of_gt_of_lt {c d : α} (h : cmp a c ≠ .lt) (hcd : cmp d c = .lt) : cmp a d = .gt := by
  rw [Std.OrientedCmp.gt_iff_lt]
  cases hac : cmp a c with
  | lt => exact absurd hac h
  | eq => exact Std.TransCmp.lt_of_lt_of_eq hcd (Std.OrientedCmp.eq_symm hac)
  | gt => exact Std.TransCmp.lt_trans hcd (Std.OrientedCmp.gt_iff_lt.mp hac)

theorem find_append_cons (h : Increasing cmp (xs ++ p :: ys)) : find cmp a (xs ++ p :: ys) =
    match cmp a p.1 with
    | .lt => find cmp a xs
    | .eq => some p.2
    | .gt => find cmp a ys := by
  obtain ⟨-, -, hxs, hys, -⟩ := increasing_append_cons.mp h
  have hleft (hp : cmp a p.1 ≠ .lt) : find cmp a xs = none := find_eq_none fun q hq => by
    rw [gt_of_gt_of_lt hp (hxs q hq)]
    decide
  rw [find_append, find_cons]
  cases hp : cmp a p.1 with
  | lt =>
    have hright : find cmp a ys = none := find_eq_none fun q hq => by
      rw [Std.TransCmp.lt_trans hp (hys q hq)]
      decide
    rw [if_neg (by decide), hright, Option.or_none]
  | eq => rw [hleft (by rw [hp]; decide), if_pos rfl, Option.none_or]
  | gt => rw [hleft (by rw [hp]; decide), if_neg (by decide), Option.none_or]

theorem insert_append_of_not_lt (h : Increasing cmp (xs ++ p :: ys)) (hp : cmp a p.1 ≠ .lt) :
    insert cmp keep a b (xs ++ p :: ys) = xs ++ insert cmp keep a b (p :: ys) :=
  insert_append_of_gt fun q hq =>
    gt_of_gt_of_lt hp ((increasing_append_cons.mp h).2.2.1 q hq)

theorem erase_append_cons (h : Increasing cmp (xs ++ p :: ys)) : erase cmp a (xs ++ p :: ys) =
    match cmp a p.1 with
    | .lt => erase cmp a xs ++ p :: ys
    | .eq => xs ++ ys
    | .gt => xs ++ p :: erase cmp a ys := by
  obtain ⟨-, -, hxs, hys, -⟩ := increasing_append_cons.mp h
  have hleft (hp : cmp a p.1 ≠ .lt) : erase cmp a xs = xs := erase_eq_self fun q hq => by
    rw [gt_of_gt_of_lt hp (hxs q hq)]
    decide
  have hright (hp : cmp a p.1 ≠ .gt) : erase cmp a ys = ys := erase_eq_self fun q hq => by
    have hlt : cmp a q.1 = .lt := by
      cases hap : cmp a p.1 with
      | lt => exact Std.TransCmp.lt_trans hap (hys q hq)
      | eq => exact Std.TransCmp.lt_of_eq_of_lt hap (hys q hq)
      | gt => exact absurd hap hp
    rw [hlt]
    decide
  rw [erase_append]
  cases hp : cmp a p.1 with
  | lt => rw [erase_cons_of_ne (by rw [hp]; decide), hright (by rw [hp]; decide)]
  | eq => rw [erase_cons_of_eq hp, hleft (by rw [hp]; decide), hright (by rw [hp]; decide)]
  | gt => rw [erase_cons_of_ne (by rw [hp]; decide), hleft (by rw [hp]; decide)]

theorem find_of_mem (h : Increasing cmp l) (hp : p ∈ l) : find cmp p.1 l = some p.2 := by
  obtain ⟨xs, ys, rfl⟩ := List.append_of_mem hp
  have hself : cmp p.1 p.1 = .eq := Std.ReflCmp.compare_self
  rw [find_append_cons h, hself]

theorem find_insert (hkeep : ∀ c, cmp a c = .eq → cmp (keep c) c = .eq) :
    find cmp a' (insert cmp keep a b l) = if cmp a' a = .eq then some b else find cmp a' l := by
  induction l with
  | nil => rfl
  | cons p l ih =>
    rw [insert]
    cases hp : cmp a p.1 with
    | lt => rfl
    | eq =>
      have hkept : cmp a' (keep p.1) = cmp a' p.1 := Std.TransCmp.congr_right (hkeep p.1 hp)
      have hsame : cmp a' a = cmp a' p.1 := Std.TransCmp.congr_right hp
      simp only [find_cons, hkept, hsame]
      split <;> rfl
    | gt =>
      simp only [find_cons, ih]
      by_cases ha : cmp a' a = .eq
      · rw [Std.TransCmp.congr_left ha, hp, if_neg (by decide), if_pos ha, if_pos ha]
      · rw [if_neg ha, if_neg ha]

theorem find_erase : find cmp a' (erase cmp a l) =
    if cmp a' a = .eq then none else find cmp a' l := by
  induction l with
  | nil => simp [erase]
  | cons p l ih =>
    by_cases hp : cmp a p.1 = .eq
    · rw [erase_cons_of_eq hp, ih, find_cons, ← Std.TransCmp.congr_right hp]
      split <;> rfl
    · rw [erase_cons_of_ne hp, find_cons, find_cons, ih]
      by_cases ha : cmp a' a = .eq
      · rw [Std.TransCmp.congr_left ha, if_neg hp, if_pos ha, if_pos ha]
      · rw [if_neg ha, if_neg ha]

theorem increasing_insert (hkeep : ∀ c, cmp a c = .eq → cmp (keep c) c = .eq)
    (h : Increasing cmp l) : Increasing cmp (insert cmp keep a b l) := by
  induction l with
  | nil => exact List.pairwise_singleton ..
  | cons p l ih =>
    obtain ⟨hp, hl⟩ := List.pairwise_cons.mp h
    rw [insert]
    cases hap : cmp a p.1 with
    | lt =>
      refine List.pairwise_cons.mpr ⟨List.forall_mem_cons.mpr ⟨hap, fun q hq => ?_⟩, h⟩
      exact Std.TransCmp.lt_trans hap (hp q hq)
    | eq =>
      refine List.pairwise_cons.mpr ⟨fun q hq => ?_, hl⟩
      exact Std.TransCmp.lt_of_eq_of_lt (hkeep p.1 hap) (hp q hq)
    | gt =>
      have hpa : cmp p.1 a = .lt := Std.OrientedCmp.gt_iff_lt.mp hap
      refine List.pairwise_cons.mpr ⟨fun q hq => ?_, ih hl⟩
      rcases mem_insert hq with hq | rfl | ⟨r, hr, hra, rfl⟩
      · exact hp q hq
      · exact hpa
      · exact Std.TransCmp.lt_of_lt_of_eq (hp r hr) (Std.OrientedCmp.eq_symm (hkeep r.1 hra))

/-- What an insertion makes of the entries, if a key that is there already becomes the one that
is inserted. -/
theorem perm_insert (h : Increasing cmp l) (hkeep : ∀ q ∈ l, cmp a q.1 = .eq → keep q.1 = a) :
    (insert cmp keep a b l).Perm ((a, b) :: erase cmp a l) := by
  induction l with
  | nil => exact List.Perm.refl _
  | cons p l ih =>
    have herase : erase cmp a (p :: l) = match cmp a p.1 with
        | .lt => p :: l
        | .eq => l
        | .gt => p :: erase cmp a l := by
      rw [← List.nil_append (p :: l), erase_append_cons h]
      rfl
    rw [insert, herase]
    cases hp : cmp a p.1 with
    | lt => exact List.Perm.refl _
    | eq => rw [hkeep p (List.mem_cons_self ..) hp]
    | gt =>
      refine ((ih h.of_cons fun q hq => ?_).cons p).trans (List.Perm.swap ..)
      exact hkeep q (List.mem_cons_of_mem p hq)

/-! ## Keys that are told apart -/

/-- No two keys are the same to the comparator. -/
def Apart (cmp : α → α → Ordering) (l : List (α × β)) : Prop :=
  l.Pairwise fun p q => cmp p.1 q.1 ≠ .eq

theorem apart_perm (h : xs.Perm ys) : Apart cmp xs ↔ Apart cmp ys :=
  h.pairwise_iff fun hne heq => hne (Std.OrientedCmp.eq_symm heq)

omit [Std.TransCmp cmp] in
theorem apart_of_increasing (h : Increasing cmp l) : Apart cmp l := by
  refine h.imp fun hlt heq => ?_
  rw [hlt] at heq
  cases heq

/-- One more key that is not there. -/
theorem apart_concat (h : Apart cmp l) (hfind : find cmp a l = none) :
    Apart cmp (l ++ [(a, b)]) := by
  refine List.pairwise_append.mpr ⟨h, List.pairwise_singleton .., fun p hp q hq heq => ?_⟩
  rw [List.mem_singleton.mp hq] at heq
  exact find_eq_none_iff.mp hfind p hp (Std.OrientedCmp.eq_symm heq)

/-- There is one list of the same entries in which the keys increase. -/
theorem eq_of_perm (h : xs.Perm ys) (hxs : Increasing cmp xs) (hys : Increasing cmp ys) :
    xs = ys := by
  refine h.eq_of_pairwise (fun p q _ _ hpq hqp => ?_) hxs hys
  have hlt : cmp p.1 p.1 = .lt := Std.TransCmp.lt_trans hpq hqp
  have heq : cmp p.1 p.1 = .eq := Std.ReflCmp.compare_self
  exact absurd (hlt.symm.trans heq) (by decide)

/-- Sort by the keys. -/
def sort (cmp : α → α → Ordering) (l : List (α × β)) : List (α × β) :=
  l.mergeSort fun p q => (cmp p.1 q.1).isLE

omit [Std.TransCmp cmp] in
theorem perm_sort (l : List (α × β)) : (sort cmp l).Perm l := List.mergeSort_perm ..

/-- Keys that are told apart increase when they are sorted. -/
theorem increasing_sort (h : Apart cmp l) : Increasing cmp (sort cmp l) := by
  have hsorted : (sort cmp l).Pairwise fun p q => (cmp p.1 q.1).isLE = true := by
    refine List.pairwise_mergeSort (fun _ _ _ => Std.TransCmp.isLE_trans) (fun p q => ?_) l
    have hswap : cmp q.1 p.1 = (cmp p.1 q.1).swap := Std.OrientedCmp.eq_swap
    rw [hswap]
    cases cmp p.1 q.1 <;> rfl
  refine (hsorted.and ((apart_perm (perm_sort l)).mpr h)).imp fun {p q} hpq => ?_
  cases hcmp : cmp p.1 q.1 with
  | lt => rfl
  | eq => exact absurd hcmp hpq.2
  | gt => exact absurd hpq.1 (by simp [hcmp])

/-- Keys that increase from each to the next increase. -/
theorem isChain_iff_increasing : (l.IsChain fun p q => cmp p.1 q.1 = .lt) ↔ Increasing cmp l := by
  have : IsTrans (α × β) fun p q => cmp p.1 q.1 = .lt := ⟨fun _ _ _ => Std.TransCmp.lt_trans⟩
  exact List.isChain_iff_pairwise

end Trans

end OrderedAssoc
