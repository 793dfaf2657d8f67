import Mathlib.Algebra.Order.Ring.Nat
import MoonMessenger.Lib.OrderedAssoc

/-!
# Left-leaning red-black trees

The nodes of the trees that keep the children of a database node sorted
(`FLLRBEmptyNode.m`, `FLLRBValueNode.m`): no red node has a red child, every path has the
same number of black nodes, and only a left child can be red.

* `inserted_insertKey`, `toList_insertKey` — inserting keeps all that, and is an insertion into
  the list of the entries.
-/

namespace MoonMessenger

universe u v

/-- `FLLRBColor` -/
inductive FLLRBColor where
  | red
  | black
  deriving DecidableEq

/-- The other color. -/
def FLLRBColor.flip : FLLRBColor → FLLRBColor
  | red => black
  | black => red

/-- `FLLRBNode` -/
inductive FLLRBNode (α : Type u) (β : Type v) where
  | emptyNode
  | valueNode (key : α) (value : β) (color : FLLRBColor) (left right : FLLRBNode α β)
  deriving DecidableEq

namespace FLLRBNode

variable {α : Type u} {β : Type v}

/-- `isEmpty` -/
def isEmpty : FLLRBNode α β → Bool
  | emptyNode => true
  | valueNode .. => false

/-- `isRed` -/
def isRed : FLLRBNode α β → Bool
  | emptyNode => false
  | valueNode _ _ color _ _ => color = .red

/-- `left`. That of the empty node is nil, which answers as the empty node does. -/
def left : FLLRBNode α β → FLLRBNode α β
  | emptyNode => emptyNode
  | valueNode _ _ _ left _ => left

/-- `right` -/
def right : FLLRBNode α β → FLLRBNode α β
  | emptyNode => emptyNode
  | valueNode _ _ _ _ right => right

/-- `count` -/
def count : FLLRBNode α β → ℕ
  | emptyNode => 0
  | valueNode _ _ _ left right => left.count + 1 + right.count

/-- The entry of `min`, if there is any. -/
def min : FLLRBNode α β → Option (α × β)
  | emptyNode => none
  | valueNode key value _ left _ => if left.isEmpty then some (key, value) else left.min

/-! `copyWith`, which copies the empty node to itself -/

/-- `copyWith:`, another color -/
def withColor (color : FLLRBColor) : FLLRBNode α β → FLLRBNode α β
  | emptyNode => emptyNode
  | valueNode key value _ left right => valueNode key value color left right

/-- `copyWith:`, another left child -/
def withLeft : FLLRBNode α β → FLLRBNode α β → FLLRBNode α β
  | emptyNode, _ => emptyNode
  | valueNode key value color _ right, left => valueNode key value color left right

/-- `copyWith:`, another right child -/
def withRight : FLLRBNode α β → FLLRBNode α β → FLLRBNode α β
  | emptyNode, _ => emptyNode
  | valueNode key value color left _, right => valueNode key value color left right

/-- `copyWith:`, the other color -/
def flip : FLLRBNode α β → FLLRBNode α β
  | emptyNode => emptyNode
  | valueNode key value color left right => valueNode key value color.flip left right

/-- `colorFlip` -/
def colorFlip : FLLRBNode α β → FLLRBNode α β
  | emptyNode => emptyNode
  | valueNode key value color left right => valueNode key value color.flip left.flip right.flip

/-- `rotateLeft`. It is sent where the right child is no empty node. -/
def rotateLeft : FLLRBNode α β → FLLRBNode α β
  | valueNode key value color left (valueNode key' value' _ left' right') =>
    valueNode key' value' color (valueNode key value .red left left') right'
  | _ => emptyNode

/-- `rotateRight`. It is sent where the left child is no empty node. -/
def rotateRight : FLLRBNode α β → FLLRBNode α β
  | valueNode key value color (valueNode key' value' _ left' right') right =>
    valueNode key' value' color left' (valueNode key value .red right' right)
  | _ => emptyNode

/-- `fixUp` -/
def fixUp (n : FLLRBNode α β) : FLLRBNode α β :=
  let n := if n.right.isRed && !n.left.isRed then n.rotateLeft else n
  let n := if n.left.isRed && n.left.left.isRed then n.rotateRight else n
  if n.left.isRed && n.right.isRed then n.colorFlip else n

/-- `moveRedLeft` -/
def moveRedLeft (n : FLLRBNode α β) : FLLRBNode α β :=
  let n := n.colorFlip
  if n.right.left.isRed then (n.withRight n.right.rotateRight).rotateLeft.colorFlip else n

/-- `moveRedRight` -/
def moveRedRight (n : FLLRBNode α β) : FLLRBNode α β :=
  let n := n.colorFlip
  if n.left.left.isRed then n.rotateRight.colorFlip else n

/-- `insertKey` -/
def insertKey (cmp : α → α → Ordering) (aKey : α) (aValue : β) : FLLRBNode α β → FLLRBNode α β
  | emptyNode => valueNode aKey aValue .red emptyNode emptyNode
  | valueNode key value color left right =>
    match cmp aKey key with
    | .lt => (valueNode key value color (left.insertKey cmp aKey aValue) right).fixUp
    | .eq => (valueNode key aValue color left right).fixUp
    | .gt => (valueNode key value color left (right.insertKey cmp aKey aValue)).fixUp

/-! ## Balance -/

/-- The number of black nodes on the path to the left. -/
def blackHeight : FLLRBNode α β → ℕ
  | emptyNode => 0
  | valueNode _ _ color left _ => left.blackHeight + if color = .red then 0 else 1

/-- What `check` checks of the children of a node, but for the color of the left one: they
are valid, no path has more black nodes than another, and the right one is black. -/
def Valid : FLLRBNode α β → Prop
  | emptyNode => True
  | valueNode _ _ color left right => left.Valid ∧ right.Valid ∧
      left.blackHeight = right.blackHeight ∧ right.isRed = false ∧
      (color = .red → left.isRed = false)

/-- `check`; `none` is an exception. -/
def check : FLLRBNode α β → Option ℕ
  | emptyNode => some 0
  | valueNode _ _ color left right =>
    if color = .red && left.isRed then none
    else if right.isRed then none
    else do
      let blackDepth ← left.check
      let blackDepth' ← right.check
      if blackDepth ≠ blackDepth' then none else some (blackDepth + if color = .red then 0 else 1)

/-- `checkMaxDepth` -/
def checkMaxDepth (n : FLLRBNode α β) : Option Bool := do
  let blackDepth ← n.check
  return 2 ^ blackDepth ≤ n.count + 1

/-- The number of nodes on the longest path: so often does a lookup compare keys at most. -/
def depth : FLLRBNode α β → ℕ
  | emptyNode => 0
  | valueNode _ _ _ left right => max left.depth right.depth + 1

/-- The entries, in the order in which `inorderTraversal` comes to them. -/
def toList : FLLRBNode α β → List (α × β)
  | emptyNode => []
  | valueNode key value _ left right => left.toList ++ (key, value) :: right.toList

theorem check_eq_some_iff {n : FLLRBNode α β} {h : ℕ} :
    n.check = some h ↔ n.Valid ∧ n.blackHeight = h := by
  induction n generalizing h with
  | emptyNode => simp [check, Valid, blackHeight]
  | valueNode key value color left right ihl ihr =>
    rw [Valid, blackHeight]
    by_cases hred : color = .red ∧ left.isRed = true
    · refine iff_of_false (by simp [check, hred.1, hred.2]) ?_
      rintro ⟨⟨-, -, -, -, hblack⟩, -⟩
      exact Bool.false_ne_true ((hblack hred.1).symm.trans hred.2)
    cases hright : right.isRed with
    | true => simp [check, hright]
    | false =>
      have hblack : color = .red → left.isRed = false := fun hcolor => by
        simpa using fun hleft : left.isRed = true => hred ⟨hcolor, hleft⟩
      have hcond : (decide (color = .red) && left.isRed) = false := by simpa using hblack
      rw [check, hcond, hright, if_neg Bool.false_ne_true, if_neg Bool.false_ne_true]
      simp only [Option.bind_eq_bind, Option.bind_eq_some_iff, ihl, ihr]
      constructor
      · rintro ⟨d, ⟨hl, rfl⟩, d', ⟨hr, rfl⟩, h⟩
        split at h
        · cases h
        · rename_i heq
          exact ⟨⟨hl, hr, not_not.mp heq, trivial, hblack⟩, Option.some.inj h⟩
      · rintro ⟨⟨hl, hr, heq, -, -⟩, rfl⟩
        exact ⟨_, ⟨hl, rfl⟩, _, ⟨hr, rfl⟩, if_neg (not_not.mpr heq)⟩

theorem two_pow_blackHeight_le {n : FLLRBNode α β} (h : n.Valid) :
    2 ^ n.blackHeight ≤ n.count + 1 := by
  induction n with
  | emptyNode => exact Nat.le_refl 1
  | valueNode key value color left right ihl ihr =>
    obtain ⟨hleft, hright, hheight, -, -⟩ := h
    have hl := ihl hleft
    have hr := ihr hright
    rw [← hheight] at hr
    rw [blackHeight, count]
    cases color with
    | red =>
      rw [if_pos rfl, Nat.add_zero]
      omega
    | black =>
      rw [if_neg (by decide), Nat.pow_succ]
      omega

theorem checkMaxDepth_eq {n : FLLRBNode α β} (h : n.Valid) : n.checkMaxDepth = some true := by
  rw [checkMaxDepth, check_eq_some_iff.mpr ⟨h, rfl⟩]
  exact congrArg some (decide_eq_true (two_pow_blackHeight_le h))

/-- Black nodes are at least every other node of a path. -/
theorem depth_le {n : FLLRBNode α β} (h : n.Valid) :
    n.depth ≤ 2 * n.blackHeight + if n.isRed then 1 else 0 := by
  induction n with
  | emptyNode => exact Nat.zero_le _
  | valueNode key value color left right ihl ihr =>
    obtain ⟨hleft, hright, hheight, hblack, hcolor⟩ := h
    have hl := ihl hleft
    have hr := ihr hright
    rw [hblack, if_neg Bool.false_ne_true, ← hheight] at hr
    rw [depth, blackHeight]
    cases color with
    | red =>
      rw [hcolor rfl, if_neg Bool.false_ne_true] at hl
      simp only [isRed, decide_true, if_true]
      omega
    | black =>
      have hone : (if left.isRed = true then 1 else 0) ≤ 1 := by split <;> omega
      simp only [isRed, reduceCtorEq, decide_false, Bool.false_eq_true, if_false]
      omega

/-! ## What the operations do to the entries -/

section ToList

variable {n : FLLRBNode α β} {color : FLLRBColor}

@[simp] theorem toList_withColor : (n.withColor color).toList = n.toList := by
  cases n <;> rfl

@[simp] theorem toList_flip : n.flip.toList = n.toList := by
  cases n <;> rfl

@[simp] theorem toList_colorFlip : n.colorFlip.toList = n.toList := by
  cases n with
  | emptyNode => rfl
  | valueNode key value color left right => simp [colorFlip, toList]

theorem toList_rotateLeft (h : n.right.isEmpty = false) : n.rotateLeft.toList = n.toList := by
  rcases n with _ | ⟨key, value, color, left, _ | ⟨key', value', color', left', right'⟩⟩
  · rfl
  · cases h
  · simp [rotateLeft, toList]

theorem toList_rotateRight (h : n.left.isEmpty = false) : n.rotateRight.toList = n.toList := by
  rcases n with _ | ⟨key, value, color, _ | ⟨key', value', color', left', right'⟩, right⟩
  · rfl
  · cases h
  · simp [rotateRight, toList]

theorem isEmpty_eq_false_of_isRed (h : n.isRed = true) : n.isEmpty = false := by
  cases n with
  | emptyNode => cases h
  | valueNode key value color left right => rfl

@[simp] theorem toList_fixUp : n.fixUp.toList = n.toList := by
  have hleft (n : FLLRBNode α β) :
      (if n.right.isRed && !n.left.isRed then n.rotateLeft else n).toList = n.toList := by
    split
    · rename_i h
      exact toList_rotateLeft (isEmpty_eq_false_of_isRed (Bool.and_eq_true_iff.mp h).1)
    · rfl
  have hright (n : FLLRBNode α β) :
      (if n.left.isRed && n.left.left.isRed then n.rotateRight else n).toList = n.toList := by
    split
    · rename_i h
      exact toList_rotateRight (isEmpty_eq_false_of_isRed (Bool.and_eq_true_iff.mp h).1)
    · rfl
  have hflip (n : FLLRBNode α β) :
      (if n.left.isRed && n.right.isRed then n.colorFlip else n).toList = n.toList := by
    split
    · exact toList_colorFlip
    · rfl
  rw [fixUp, hflip, hright, hleft]

end ToList

/-! ## Putting a node in order -/

section FixUp

variable {key key' : α} {value value' : β} {color : FLLRBColor}
  {left right left' right' n : FLLRBNode α β}

@[simp] theorem isEmpty_valueNode : (valueNode key value color left right).isEmpty = false := rfl

@[simp] theorem isRed_valueNode :
    (valueNode key value color left right).isRed = decide (color = .red) := rfl

@[simp] theorem left_valueNode : (valueNode key value color left right).left = left := rfl

@[simp] theorem right_valueNode : (valueNode key value color left right).right = right := rfl

theorem fixUp_of_black (hright : right.isRed = false)
    (hleft : left.isRed = true → left.left.isRed = false) :
    (valueNode key value color left right).fixUp = valueNode key value color left right := by
  cases h : left.isRed with
  | true => simp [fixUp, hright, h, hleft h]
  | false => simp [fixUp, hright, h]

theorem fixUp_rotateRight (hright : right.isRed = false) (hleft' : left'.isRed = true) :
    (valueNode key value color (valueNode key' value' .red left' right') right).fixUp =
      valueNode key' value' color.flip left'.flip (valueNode key value .black right' right) := by
  simp [fixUp, hright, hleft', rotateRight, colorFlip, flip, FLLRBColor.flip]

theorem fixUp_rotateLeft (hleft : left.isRed = false) (hright' : right'.isRed = false) :
    (valueNode key value color left (valueNode key' value' .red left' right')).fixUp =
      valueNode key' value' color (valueNode key value .red left left') right' := by
  simp [fixUp, hleft, hright', rotateLeft]

theorem fixUp_colorFlip (hleft : left.isRed = true) (hleft' : left.left.isRed = false)
    (hright : right.isRed = true) : (valueNode key value color left right).fixUp =
      valueNode key value color.flip left.flip right.flip := by
  simp [fixUp, hleft, hleft', hright, colorFlip]

/-- Nothing is to be done for a valid node. -/
theorem fixUp_of_valid (h : n.Valid) : n.fixUp = n := by
  cases n with
  | emptyNode => rfl
  | valueNode key value color left right =>
    obtain ⟨hleft, -, -, hright, -⟩ := h
    refine fixUp_of_black hright fun hred => ?_
    cases left with
    | emptyNode => rfl
    | valueNode key' value' color' left' right' => exact hleft.2.2.2.2 (of_decide_eq_true hred)

/-- A valid red node has black children. -/
theorem Valid.left_of_red (h : n.Valid) (hred : n.isRed = true) : n.left.isRed = false := by
  cases n with
  | emptyNode => rfl
  | valueNode key value color left right => exact h.2.2.2.2 (of_decide_eq_true hred)

/-- A red node made black. -/
theorem Valid.flip_red (h : n.Valid) (hred : n.isRed = true) :
    n.flip.Valid ∧ n.flip.blackHeight = n.blackHeight + 1 ∧ n.flip.isRed = false := by
  cases n with
  | emptyNode => cases hred
  | valueNode key value color left right =>
    obtain rfl : color = .red := of_decide_eq_true hred
    obtain ⟨hleft, hright, hheight, hblack, -⟩ := h
    exact ⟨⟨hleft, hright, hheight, hblack, fun hcolor => by cases hcolor⟩, rfl, rfl⟩

end FixUp

/-! ## Inserting -/

/-- Valid, but for a red child to the left of a red root. -/
def NearlyValid : FLLRBNode α β → Prop
  | emptyNode => True
  | valueNode _ _ _ left right => left.Valid ∧ right.Valid ∧
      left.blackHeight = right.blackHeight ∧ right.isRed = false

theorem NearlyValid.valid {n : FLLRBNode α β} (h : n.NearlyValid)
    (hleft : n.isRed = true → n.left.isRed = false) : n.Valid := by
  cases n with
  | emptyNode => trivial
  | valueNode key value color left right =>
    obtain ⟨hl, hr, hheight, hblack⟩ := h
    exact ⟨hl, hr, hheight, hblack, fun hcolor => hleft (decide_eq_true hcolor)⟩

theorem Valid.nearlyValid {n : FLLRBNode α β} (h : n.Valid) : n.NearlyValid := by
  cases n with
  | emptyNode => trivial
  | valueNode key value color left right => exact ⟨h.1, h.2.1, h.2.2.1, h.2.2.2.1⟩

theorem NearlyValid.withColor_black {n : FLLRBNode α β} (h : n.NearlyValid) :
    (n.withColor .black).Valid := by
  cases n with
  | emptyNode => trivial
  | valueNode key value color left right =>
    exact ⟨h.1, h.2.1, h.2.2.1, h.2.2.2, fun hcolor => by cases hcolor⟩

/-- What an insertion makes of `n`. -/
structure Inserted (n n' : FLLRBNode α β) : Prop where
  nearlyValid : n'.NearlyValid
  blackHeight : n'.blackHeight = n.blackHeight
  valid : n.isRed = false → n'.Valid

section Insert

variable {key : α} {value : β} {color : FLLRBColor} {left right left' right' : FLLRBNode α β}

/-- Insertion to the left. -/
theorem inserted_left (h : (valueNode key value color left right).Valid)
    (hleft : Inserted left left') : Inserted (valueNode key value color left right)
      (valueNode key value color left' right).fixUp := by
  obtain ⟨-, hright, hheight, hblack, hcolor⟩ := h
  have hheight' : left'.blackHeight = right.blackHeight := hleft.blackHeight.trans hheight
  by_cases htwo : left'.isRed = true → left'.left.isRed = false
  · have hvalid : left'.Valid := hleft.nearlyValid.valid htwo
    have hnearly : (valueNode key value color left' right).NearlyValid :=
      ⟨hvalid, hright, hheight', hblack⟩
    rw [fixUp_of_black hblack htwo]
    refine ⟨hnearly, ?_, fun hn => hnearly.valid fun hred => ?_⟩
    · rw [blackHeight, blackHeight, hleft.blackHeight]
    · exact absurd (hn.symm.trans hred) Bool.false_ne_true
  · -- two red nodes in a row, below a black one
    rw [Classical.not_imp, Bool.not_eq_false] at htwo
    obtain ⟨hred, hred'⟩ := htwo
    have hblackRoot : color = .black := by
      cases color with
      | black => rfl
      | red =>
        have hvalid : left'.Valid := hleft.valid (hcolor rfl)
        exact absurd ((hvalid.left_of_red hred).symm.trans hred') Bool.false_ne_true
    subst hblackRoot
    cases left' with
    | emptyNode => cases hred
    | valueNode key' value' color' left'' right'' =>
      obtain rfl : color' = .red := of_decide_eq_true hred
      obtain ⟨hl, hr, hheight'', hblack''⟩ := hleft.nearlyValid
      rw [left_valueNode] at hred'
      obtain ⟨hflip, hflipHeight, hflipBlack⟩ := hl.flip_red hred'
      have hfive : right''.blackHeight = right.blackHeight := by
        rw [← hheight', ← hheight'']
        rfl
      have hvalid : (valueNode key' value' .red left''.flip
          (valueNode key value .black right'' right)).Valid := by
        refine ⟨hflip, ⟨hr, hright, hfive, hblack, fun hcolor => by cases hcolor⟩, ?_, rfl,
          fun _ => hflipBlack⟩
        rw [hflipHeight, hheight'']
        rfl
      rw [fixUp_rotateRight hblack hred']
      refine ⟨hvalid.nearlyValid, ?_, fun _ => hvalid⟩
      have hleftHeight : left''.blackHeight = left.blackHeight := hleft.blackHeight
      simp [blackHeight, FLLRBColor.flip, hflipHeight, hleftHeight]

/-- Insertion to the right. -/
theorem inserted_right (h : (valueNode key value color left right).Valid)
    (hright : Inserted right right') : Inserted (valueNode key value color left right)
      (valueNode key value color left right').fixUp := by
  obtain ⟨hleft, -, hheight, hblack, hcolor⟩ := h
  have hvalid' : right'.Valid := hright.valid hblack
  have hheight' : left.blackHeight = right'.blackHeight := hheight.trans hright.blackHeight.symm
  cases hred : right'.isRed with
  | false =>
    have hvalid : (valueNode key value color left right').Valid :=
      ⟨hleft, hvalid', hheight', hred, hcolor⟩
    rw [fixUp_of_valid hvalid]
    exact ⟨hvalid.nearlyValid, rfl, fun _ => hvalid⟩
  | true =>
    cases hleftRed : left.isRed with
    | false =>
      cases right' with
      | emptyNode => cases hred
      | valueNode key' value' color' left'' right'' =>
        obtain rfl : color' = .red := of_decide_eq_true hred
        obtain ⟨hl, hr, hheight'', hblack'', hblackLeft⟩ := hvalid'
        have hnearly : (valueNode key' value' color (valueNode key value .red left left'')
            right'').NearlyValid :=
          ⟨⟨hleft, hl, hheight', hblackLeft rfl, fun _ => hleftRed⟩, hr, hheight'.trans hheight'',
            hblack''⟩
        rw [fixUp_rotateLeft hleftRed hblack'']
        refine ⟨hnearly, rfl, fun hn => hnearly.valid fun hcolor => ?_⟩
        exact absurd (hn.symm.trans hcolor) Bool.false_ne_true
    | true =>
      -- a node with two red children is black
      have hblackRoot : color = .black := by
        cases color with
        | black => rfl
        | red => exact absurd ((hcolor rfl).symm.trans hleftRed) Bool.false_ne_true
      subst hblackRoot
      obtain ⟨hl, hlHeight, hlBlack⟩ := hleft.flip_red hleftRed
      obtain ⟨hr, hrHeight, hrBlack⟩ := hvalid'.flip_red hred
      have hvalid : (valueNode key value .red left.flip right'.flip).Valid :=
        ⟨hl, hr, by rw [hlHeight, hrHeight, hheight'], hrBlack, fun _ => hlBlack⟩
      rw [fixUp_colorFlip hleftRed (hleft.left_of_red hleftRed) hred]
      exact ⟨hvalid.nearlyValid, hlHeight, fun _ => hvalid⟩

variable {cmp : α → α → Ordering} {aKey : α} {aValue : β}

/-- **Inserting** keeps a tree in balance. -/
theorem inserted_insertKey {n : FLLRBNode α β} (h : n.Valid) :
    Inserted n (n.insertKey cmp aKey aValue) := by
  induction n with
  | emptyNode =>
    have hleaf : (valueNode aKey aValue .red emptyNode emptyNode).Valid :=
      ⟨trivial, trivial, rfl, rfl, fun _ => rfl⟩
    exact ⟨hleaf.nearlyValid, rfl, fun _ => hleaf⟩
  | valueNode key value color left right ihl ihr =>
    rw [insertKey]
    cases cmp aKey key with
    | lt => exact inserted_left h (ihl h.1)
    | eq =>
      have hvalid : (valueNode key aValue color left right).Valid := h
      rw [fixUp_of_valid hvalid]
      exact ⟨hvalid.nearlyValid, rfl, fun _ => hvalid⟩
    | gt => exact inserted_right h (ihr h.2.1)

/-- It inserts into the list of the entries; a key that is there stays as it is. -/
theorem toList_insertKey [Std.TransCmp cmp] {n : FLLRBNode α β}
    (h : OrderedAssoc.Increasing cmp n.toList) :
    (n.insertKey cmp aKey aValue).toList = OrderedAssoc.insert cmp id aKey aValue n.toList := by
  induction n with
  | emptyNode => rfl
  | valueNode key value color left right ihl ihr =>
    obtain ⟨hleft, hright, -, -, -⟩ := OrderedAssoc.increasing_append_cons.mp h
    rw [insertKey]
    cases hcmp : cmp aKey key with
    | lt =>
      have hlt : cmp aKey ((key, value) : α × β).1 = .lt := hcmp
      rw [toList_fixUp, toList, toList, OrderedAssoc.insert_append_of_lt hlt, ihl hleft]
    | eq =>
      have hnot : cmp aKey ((key, value) : α × β).1 ≠ .lt := by simp [hcmp]
      rw [toList_fixUp, toList, toList, OrderedAssoc.insert_append_of_not_lt h hnot,
        OrderedAssoc.insert, hcmp]
      rfl
    | gt =>
      have hnot : cmp aKey ((key, value) : α × β).1 ≠ .lt := by simp [hcmp]
      rw [toList_fixUp, toList, toList, OrderedAssoc.insert_append_of_not_lt h hnot,
        OrderedAssoc.insert, hcmp, ihr hright]

end Insert

end FLLRBNode

end MoonMessenger
