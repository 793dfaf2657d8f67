import MoonMessenger.Lib.Runs
import MoonMessenger.LLRBNode

/-!
# Building a balanced tree at once

`fromDictionary` of `FTreeSortedDictionary.m` builds a tree from a sorted array. It writes
the number of entries in base 2 with the digits 1 and 2, cuts the array into that many pieces
for each power of 2, the last entries first, and hangs the pieces onto a spine to the left.

* `build_eq` — a piece becomes a tree of black nodes.
* `fromDictionary_iff` — the tree is valid and holds the entries, if the comparator tells the
  keys apart; otherwise an exception is raised.
-/

namespace MoonMessenger

universe u v

variable {α : Type u} {β : Type v}

namespace FTreeSortedDictionary

open FLLRBNode

/-- `Base1_2List` -/
structure Base1_2List where
  bits : ℕ
  count : ℕ
  current : ℕ

/-- `base1_2List_new`. The logarithm is computed with floating point numbers in the source. -/
def base1_2List_new (length : ℕ) : Base1_2List :=
  let count := Nat.log2 (length + 1)
  ⟨(length + 1) &&& (2 ^ count - 1), count, count - 1⟩

/-- `base1_2List_next`: whether the next digit is a 1. -/
def base1_2List_next (list : Base1_2List) : Bool × Base1_2List :=
  (!list.bits.testBit list.current, { list with current := list.current - 1 })

/-- `buildBalancedTree`, from the entries of the keys in their order. `none` is the exception
raised for an index beyond the end. -/
def buildBalancedTree (entries : List (α × β)) (startIndex length : ℕ) :
    Option (FLLRBNode α β) :=
  if min (entries.length - startIndex) length = 0 then some emptyNode
  else if min (entries.length - startIndex) length = 1 then
    entries[startIndex]?.map fun p => valueNode p.1 p.2 .black emptyNode emptyNode
  else do
    let middle := min (entries.length - startIndex) length / 2
    let left ← buildBalancedTree entries startIndex middle
    let right ← buildBalancedTree entries (startIndex + middle + 1) middle
    let p ← entries[startIndex + middle]?
    return valueNode p.1 p.2 .black left right
termination_by length
decreasing_by all_goals omega

/-- `node.left = pennant`, where `node` is the last node on the way to the left from the
root. -/
def attachPennant (root pennant : FLLRBNode α β) : FLLRBNode α β :=
  match root with
  | emptyNode => pennant
  | valueNode key value color left right =>
    valueNode key value color (attachPennant left pennant) right

/-- The variables of `rootFrom12List`. -/
structure Building (α : Type u) (β : Type v) where
  root : FLLRBNode α β
  index : ℕ

/-- `buildPennant` -/
def buildPennant (entries : List (α × β)) (s : Building α β) (color : FLLRBColor)
    (chunkSize : ℕ) : Option (Building α β) := do
  let startIndex := s.index - chunkSize + 1
  let index := s.index - chunkSize
  let p ← entries[index]?
  let childTree ← buildBalancedTree entries startIndex (chunkSize - 1)
  return ⟨attachPennant s.root (valueNode p.1 p.2 color emptyNode childTree), index⟩

/-- One pass of the loop of `rootFrom12List`. -/
def buildDigit (entries : List (α × β)) (s : Building α β × Base1_2List) (i : ℕ) :
    Option (Building α β × Base1_2List) := do
  let (isOne, list) := base1_2List_next s.2
  let chunkSize := 2 ^ (list.count - (i + 1))
  let building ← buildPennant entries s.1 .black chunkSize
  if isOne then return (building, list)
  else return (← buildPennant entries building .red chunkSize, list)

/-- `rootFrom12List` -/
def rootFrom12List (list : Base1_2List) (entries : List (α × β)) : Option (FLLRBNode α β) :=
  ((List.range list.count).foldlM (buildDigit entries) (⟨emptyNode, entries.length⟩, list)).map
    fun s => s.1.root

/-- `fromDictionary`, from the entries of a dictionary in whatever order. -/
def fromDictionary (cmp : α → α → Ordering) (dictionary : List (α × β)) :
    Option (FLLRBNode α β) :=
  let sorted := OrderedAssoc.sort cmp dictionary
  if sorted.IsChain fun p q => cmp p.1 q.1 = .lt then
    rootFrom12List (base1_2List_new sorted.length) sorted
  else none

/-! ## The pieces -/

section Build

variable {entries : List (α × β)}

/-- The entry in the middle and the pieces at its sides. -/
theorem take_two_mul_add_one {l : List (α × β)} {m : ℕ} {p : α × β} (hp : l[m]? = some p) :
    l.take m ++ p :: (l.drop (m + 1)).take m = l.take (2 * m + 1) := by
  obtain ⟨hm, rfl⟩ := List.getElem?_eq_some_iff.mp hp
  rw [Nat.two_mul, Nat.add_assoc, List.take_add, List.drop_eq_getElem_cons hm, List.take_succ_cons]

/-- **A piece** of as many entries as a complete tree has becomes one. -/
theorem build_eq (h startIndex : ℕ) (hlen : startIndex + (2 ^ h - 1) ≤ entries.length) :
    ∃ t, buildBalancedTree entries startIndex (2 ^ h - 1) = some t ∧ t.Valid ∧ t.blackHeight = h ∧
      t.isRed = false ∧ t.toList = (entries.drop startIndex).take (2 ^ h - 1) := by
  induction h generalizing startIndex with
  | zero =>
    refine ⟨emptyNode, ?_, trivial, rfl, rfl, by simp [toList]⟩
    rw [buildBalancedTree, if_pos (by simp)]
  | succ h ih =>
    have hpow : 2 ^ (h + 1) = 2 * 2 ^ h := Nat.pow_succ'
    have hpos : 0 < 2 ^ h := Nat.two_pow_pos h
    have hmin : min (entries.length - startIndex) (2 ^ (h + 1) - 1) = 2 ^ (h + 1) - 1 := by omega
    rw [buildBalancedTree, hmin, if_neg (by omega)]
    rcases Nat.eq_zero_or_pos h with rfl | hh
    · obtain ⟨p, hp⟩ : ∃ p, entries[startIndex]? = some p :=
        ⟨_, List.getElem?_eq_getElem (by simp at hlen; omega)⟩
      refine ⟨valueNode p.1 p.2 .black emptyNode emptyNode, by simp [hp],
        ⟨trivial, trivial, rfl, rfl, fun hc => by cases hc⟩, rfl, rfl, ?_⟩
      obtain ⟨hlt, rfl⟩ := List.getElem?_eq_some_iff.mp hp
      change [entries[startIndex]] = (entries.drop startIndex).take 1
      rw [List.drop_eq_getElem_cons hlt]
      rfl
    · have htwo : 2 ≤ 2 ^ h := by
        calc 2 = 2 ^ 1 := rfl
          _ ≤ 2 ^ h := Nat.pow_le_pow_right (by omega) hh
      have hmiddle : (2 ^ (h + 1) - 1) / 2 = 2 ^ h - 1 := by omega
      obtain ⟨left, hleft, hlv, hlh, -, hll⟩ := ih startIndex (by omega)
      obtain ⟨right, hright, hrv, hrh, hrb, hrl⟩ :=
        ih (startIndex + (2 ^ h - 1) + 1) (by omega)
      obtain ⟨p, hp⟩ : ∃ p, entries[startIndex + (2 ^ h - 1)]? = some p :=
        ⟨_, List.getElem?_eq_getElem (by omega)⟩
      refine ⟨valueNode p.1 p.2 .black left right, ?_,
        ⟨hlv, hrv, hlh.trans hrh.symm, hrb, fun hc => by cases hc⟩, ?_, rfl, ?_⟩
      · rw [if_neg (by omega)]
        simp only [hmiddle, hleft, hright, hp]
        rfl
      · rw [blackHeight, hlh, if_neg (by decide)]
      · have hp' : (entries.drop startIndex)[2 ^ h - 1]? = some p := by rw [List.getElem?_drop, hp]
        have hsize : 2 ^ (h + 1) - 1 = 2 * (2 ^ h - 1) + 1 := by omega
        rw [toList, hll, hrl, hsize, ← take_two_mul_add_one hp', List.drop_drop, Nat.add_assoc]

end Build

/-! ## The spine -/

section Spine

variable {entries : List (α × β)} {height h : ℕ} {redAllowed : Prop} {s : Building α β}

theorem attachPennant_attachPennant (r p t : FLLRBNode α β) :
    attachPennant (attachPennant r p) t = attachPennant r (attachPennant p t) := by
  induction r with
  | emptyNode => rfl
  | valueNode key value color left right ihl ihr => simp only [attachPennant, ihl]

theorem attachPennant_emptyNode (r : FLLRBNode α β) : attachPennant r emptyNode = r := by
  induction r with
  | emptyNode => rfl
  | valueNode key value color left right ihl ihr => simp only [attachPennant, ihl]

/-- With a tree of the height `h` hung to the end of the spine, what has been built is valid,
and holds the entries from `index` on after those of that tree. -/
def Built (entries : List (α × β)) (height h : ℕ) (redAllowed : Prop) (s : Building α β) : Prop :=
  ∀ t : FLLRBNode α β, t.Valid → t.blackHeight = h → (t.isRed = true → redAllowed) →
    (attachPennant s.root t).Valid ∧ (attachPennant s.root t).blackHeight = height ∧
      (attachPennant s.root t).isRed = false ∧
      (attachPennant s.root t).toList = t.toList ++ entries.drop s.index

/-- What `buildPennant` attaches: an entry, with as many entries as are left of the piece
to its right. -/
theorem buildPennant_eq (color : FLLRBColor) {c : ℕ} (hchunk : 2 ^ c ≤ s.index)
    (hlen : s.index ≤ entries.length) : ∃ p child, buildPennant entries s color (2 ^ c) =
        some ⟨attachPennant s.root (valueNode p.1 p.2 color emptyNode child), s.index - 2 ^ c⟩ ∧
      child.Valid ∧ child.blackHeight = c ∧ child.isRed = false ∧
      p :: child.toList ++ entries.drop s.index = entries.drop (s.index - 2 ^ c) := by
  have hpos : 0 < 2 ^ c := Nat.two_pow_pos c
  obtain ⟨child, hbuild, hvalid, hheight, hblack, hlist⟩ :=
    build_eq c (s.index - 2 ^ c + 1)
      (by omega : s.index - 2 ^ c + 1 + (2 ^ c - 1) ≤ entries.length)
  have hlt : s.index - 2 ^ c < entries.length := by omega
  refine ⟨entries[s.index - 2 ^ c], child, ?_, hvalid, hheight, hblack, ?_⟩
  · simp only [buildPennant, List.getElem?_eq_getElem hlt, hbuild]
    rfl
  · have hdrop : entries.drop s.index =
        (entries.drop (s.index - 2 ^ c + 1)).drop (2 ^ c - 1) := by
      rw [List.drop_drop]
      congr 1
      omega
    rw [hlist, List.drop_eq_getElem_cons hlt, hdrop, List.cons_append, List.take_append_drop]

/-- A black piece makes the spine longer by a black node. -/
theorem Built.black {c : ℕ} (hs : Built entries height (c + 1) redAllowed s)
    (hchunk : 2 ^ c ≤ s.index) (hlen : s.index ≤ entries.length) :
    ∃ s', buildPennant entries s .black (2 ^ c) = some s' ∧ s'.index = s.index - 2 ^ c ∧
      Built entries height c True s' := by
  obtain ⟨p, child, hs', hvalid, hheight, hblack, hlist⟩ :=
    buildPennant_eq .black hchunk hlen
  refine ⟨_, hs', rfl, fun t ht hth _ => ?_⟩
  have hpennant : (valueNode p.1 p.2 .black t child).Valid :=
    ⟨ht, hvalid, hth.trans hheight.symm, hblack, fun hc => by cases hc⟩
  have hpennantHeight : (valueNode p.1 p.2 .black t child).blackHeight = c + 1 := by
    rw [blackHeight, hth, if_neg (by decide)]
  obtain ⟨hv, hh, hb, hl⟩ := hs _ hpennant hpennantHeight fun hc => by cases hc
  rw [attachPennant_attachPennant]
  refine ⟨hv, hh, hb, hl.trans ?_⟩
  rw [toList, List.append_assoc, hlist]

/-- A red one does not, and asks for a black node below it. -/
theorem Built.red {c : ℕ} (hs : Built entries height c True s) (hchunk : 2 ^ c ≤ s.index)
    (hlen : s.index ≤ entries.length) :
    ∃ s', buildPennant entries s .red (2 ^ c) = some s' ∧ s'.index = s.index - 2 ^ c ∧
      Built entries height c False s' := by
  obtain ⟨p, child, hs', hvalid, hheight, hblack, hlist⟩ := buildPennant_eq .red hchunk hlen
  refine ⟨_, hs', rfl, fun t ht hth hnot => ?_⟩
  have hpennant : (valueNode p.1 p.2 .red t child).Valid :=
    ⟨ht, hvalid, hth.trans hheight.symm, hblack, fun _ => Bool.eq_false_iff.mpr hnot⟩
  obtain ⟨hv, hh, hb, hl⟩ := hs _ hpennant hth fun _ => trivial
  rw [attachPennant_attachPennant]
  refine ⟨hv, hh, hb, hl.trans ?_⟩
  rw [toList, List.append_assoc, hlist]

/-- Between two passes of the loop: the digits that are left are worth the entries that are
left. -/
structure Digits (entries : List (α × β)) (bits n i : ℕ) (s : Building α β × Base1_2List) :
    Prop where
  bits_eq : s.2.bits = bits
  count_eq : s.2.count = n
  current_eq : s.2.current = n - 1 - i
  index_le : s.1.index ≤ entries.length
  index_eq : s.1.index + 1 = 2 ^ (n - i) + bits % 2 ^ (n - i)
  built : Built entries n (n - i) False s.1

/-- **One digit.** -/
theorem Digits.step {bits n i : ℕ} {s : Building α β × Base1_2List}
    (hs : Digits entries bits n i s) (hi : i < n) :
    ∃ s', buildDigit entries s i = some s' ∧ Digits entries bits n (i + 1) s' := by
  obtain ⟨c, hc⟩ : ∃ c, n - i = c + 1 := ⟨n - (i + 1), by omega⟩
  have hc' : n - (i + 1) = c := by omega
  have hcurrent : s.2.current = c := by
    rw [hs.current_eq]
    omega
  have hindex := hs.index_eq
  rw [hc, Nat.mod_pow_succ, ← Nat.toNat_testBit, Nat.pow_succ] at hindex
  have hbuilt := hs.built
  rw [hc] at hbuilt
  have hpos : 0 < 2 ^ c := Nat.two_pow_pos c
  have hle := hs.index_le
  obtain ⟨s₁, hs₁, hindex₁, hbuilt₁⟩ := hbuilt.black (by omega) hle
  have hbits : s.2.bits.testBit c = bits.testBit c := by rw [hs.bits_eq]
  have hnext : base1_2List_next s.2 = (!bits.testBit c, { s.2 with current := c - 1 }) := by
    rw [base1_2List_next, hcurrent, hbits]
  cases hbit : bits.testBit c with
  | false =>
    rw [hbit, Bool.toNat_false, Nat.mul_zero] at hindex
    refine ⟨(s₁, { s.2 with current := c - 1 }), ?_, hs.bits_eq, hs.count_eq, ?_, ?_, ?_, ?_⟩
    · simp only [buildDigit, hnext, hs.count_eq, hc', hs₁, hbit]
      rfl
    · change c - 1 = n - 1 - (i + 1)
      omega
    · rw [hindex₁]
      exact Nat.le_trans (Nat.sub_le ..) hle
    · rw [hindex₁, hc']
      omega
    · rw [hc']
      exact fun t ht hth hnot => hbuilt₁ t ht hth fun _ => trivial
  | true =>
    rw [hbit, Bool.toNat_true, Nat.mul_one] at hindex
    obtain ⟨s₂, hs₂, hindex₂, hbuilt₂⟩ := hbuilt₁.red (by omega) (by omega)
    refine ⟨(s₂, { s.2 with current := c - 1 }), ?_, hs.bits_eq, hs.count_eq, ?_, ?_, ?_, ?_⟩
    · simp only [buildDigit, hnext, hs.count_eq, hc', hs₁, hbit]
      change (buildPennant entries s₁ .red (2 ^ c)).bind _ = _
      rw [hs₂]
      rfl
    · change c - 1 = n - 1 - (i + 1)
      omega
    · change s₂.index ≤ entries.length
      omega
    · rw [hindex₂, hindex₁, hc']
      omega
    · rw [hc']
      exact hbuilt₂

/-- **The whole tree** is valid and holds the entries in their order. -/
theorem rootFrom12List_eq (entries : List (α × β)) :
    ∃ root, rootFrom12List (base1_2List_new entries.length) entries = some root ∧ root.Valid ∧
      root.isRed = false ∧ root.toList = entries := by
  have hlow : 2 ^ Nat.log2 (entries.length + 1) ≤ entries.length + 1 :=
    Nat.log2_self_le (Nat.succ_ne_zero _)
  have hhigh : entries.length + 1 < 2 ^ (Nat.log2 (entries.length + 1) + 1) := Nat.lt_log2_self
  rw [Nat.pow_succ] at hhigh
  have hmod : (entries.length + 1) % 2 ^ Nat.log2 (entries.length + 1) =
      entries.length + 1 - 2 ^ Nat.log2 (entries.length + 1) := by
    rw [Nat.mod_eq_sub_mod hlow, Nat.mod_eq_of_lt (by omega)]
  have hstart : Digits entries ((entries.length + 1) % 2 ^ Nat.log2 (entries.length + 1))
      (Nat.log2 (entries.length + 1)) 0
      (⟨emptyNode, entries.length⟩, base1_2List_new entries.length) := by
    refine ⟨Nat.and_two_pow_sub_one_eq_mod .., rfl, rfl, Nat.le_refl _, ?_, ?_⟩
    · rw [Nat.sub_zero, Nat.mod_mod, hmod]
      exact (Nat.add_sub_of_le hlow).symm
    · intro t ht hth hnot
      refine ⟨ht, hth, Bool.eq_false_iff.mpr hnot, ?_⟩
      rw [List.drop_length, List.append_nil]
      rfl
  obtain ⟨s, hs, hdigits⟩ := Runs.foldlM_range_induction (Digits entries
    ((entries.length + 1) % 2 ^ Nat.log2 (entries.length + 1)) (Nat.log2 (entries.length + 1)))
    hstart fun i s hi hs => hs.step hi
  have hindex := hdigits.index_eq
  rw [Nat.sub_self, Nat.pow_zero, Nat.mod_one] at hindex
  obtain ⟨hvalid, -, hblack, hlist⟩ := hdigits.built emptyNode trivial (Nat.sub_self _).symm
    fun hc => by cases hc
  rw [attachPennant_emptyNode] at hvalid hblack hlist
  refine ⟨s.1.root, ?_, hvalid, hblack, ?_⟩
  · rw [rootFrom12List]
    exact congrArg (Option.map fun s => s.1.root) hs
  · rw [hlist, (by omega : s.1.index = 0), List.drop_zero]
    rfl

end Spine

/-! ## From a dictionary -/

/-- **A dictionary** becomes a tree exactly if the comparator tells its keys apart. The tree
is valid and holds its entries. -/
theorem fromDictionary_iff (cmp : α → α → Ordering) [Std.TransCmp cmp]
    (dictionary : List (α × β)) :
    ((∃ root, fromDictionary cmp dictionary = some root) ↔ OrderedAssoc.Apart cmp dictionary) ∧
      ∀ root, fromDictionary cmp dictionary = some root → root.Valid ∧ root.isRed = false ∧
        root.toList = OrderedAssoc.sort cmp dictionary := by
  obtain ⟨root, hroot, hvalid, hblack, hlist⟩ :=
    rootFrom12List_eq (OrderedAssoc.sort cmp dictionary)
  rw [fromDictionary]
  by_cases hchain : (OrderedAssoc.sort cmp dictionary).IsChain fun p q => cmp p.1 q.1 = .lt
  · rw [if_pos hchain, hroot]
    have hinc := OrderedAssoc.isChain_iff_increasing.mp hchain
    refine ⟨iff_of_true ⟨root, rfl⟩ ?_, fun root' hroot' => ?_⟩
    · exact (OrderedAssoc.apart_perm (OrderedAssoc.perm_sort dictionary)).mp
        (OrderedAssoc.apart_of_increasing hinc)
    · obtain rfl := Option.some.inj hroot'
      exact ⟨hvalid, hblack, hlist⟩
  · rw [if_neg hchain]
    refine ⟨iff_of_false (fun h => ?_) (fun h => ?_), fun root' hroot' => by cases hroot'⟩
    · obtain ⟨root', hroot'⟩ := h
      cases hroot'
    · exact hchain (OrderedAssoc.isChain_iff_increasing.mpr (OrderedAssoc.increasing_sort h))

end FTreeSortedDictionary

end MoonMessenger
