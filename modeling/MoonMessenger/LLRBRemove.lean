import MoonMessenger.LLRBNode

/-!
# Removing from a left-leaning red-black tree

`FLLRBValueNode.m`, `removeMin` and `remove`. On its way down a removal makes sure that the
node it comes to is red or has a red child, and on its way up puts every node in order.
A key found in the middle is replaced by the smallest of the right child; the code then
goes on to remove the key from there, where it no longer is.

* `removed_remove`, `remove_root` — what is removed is the key, and the tree stays in balance.
-/

namespace MoonMessenger

universe u v

namespace FLLRBNode

variable {α : Type u} {β : Type v}

section Count

variable {n : FLLRBNode α β}

@[simp] theorem count_flip : n.flip.count = n.count := by
  cases n <;> rfl

@[simp] theorem count_colorFlip : n.colorFlip.count = n.count := by
  cases n with
  | emptyNode => rfl
  | valueNode key value color left right => simp [colorFlip, count]

theorem length_toList : n.toList.length = n.count := by
  induction n with
  | emptyNode => rfl
  | valueNode key value color left right ihl ihr =>
    rw [toList, List.length_append, List.length_cons, ihl, ihr, count]
    omega

theorem count_fixUp : n.fixUp.count = n.count := by
  rw [← length_toList, toList_fixUp, length_toList]

theorem toList_moveRedLeft : n.moveRedLeft.toList = n.toList := by
  rw [moveRedLeft]
  split
  · rename_i h
    rcases hn : n.colorFlip with _ | ⟨key, value, color, left, right⟩
    · rw [hn] at h
      cases h
    · rw [hn] at h
      have hright : right.left.isEmpty = false := isEmpty_eq_false_of_isRed h
      have hnotEmpty : ((valueNode key value color left right).withRight
          right.rotateRight).right.isEmpty = false := by
        rcases right with _ | ⟨key', value', color', _ | _, right'⟩
        · cases h
        · cases h
        · rfl
      rw [right_valueNode, toList_colorFlip, toList_rotateLeft hnotEmpty,
        ← toList_colorFlip (n := n), hn,
        withRight, toList, toList, toList_rotateRight hright]
  · exact toList_colorFlip

theorem toList_moveRedRight : n.moveRedRight.toList = n.toList := by
  rw [moveRedRight]
  split
  · rename_i h
    have hleft : n.colorFlip.left.isEmpty = false := by
      cases hn : n.colorFlip.left with
      | emptyNode =>
        rw [hn] at h
        cases h
      | valueNode key value color left right => rfl
    rw [toList_colorFlip, toList_rotateRight hleft, toList_colorFlip]
  · exact toList_colorFlip

end Count

/-! ## Removing -/

/-- What is done before going to the left. `removeMin` has made sure that there is a left
child. -/
def towardsLeft (n : FLLRBNode α β) : FLLRBNode α β :=
  if !n.left.isEmpty && !n.left.isRed && !n.left.left.isRed then n.moveRedLeft else n

/-- What is done before going to the right. -/
def towardsRight (n : FLLRBNode α β) : FLLRBNode α β :=
  let n := if n.left.isRed then n.rotateRight else n
  if !n.right.isEmpty && !n.right.isRed && !n.right.left.isRed then n.moveRedRight else n

section Towards

variable {n : FLLRBNode α β}

theorem toList_towardsLeft : n.towardsLeft.toList = n.toList := by
  rw [towardsLeft]
  split
  · exact toList_moveRedLeft
  · rfl

theorem toList_towardsRight : n.towardsRight.toList = n.toList := by
  have hrotate : (if n.left.isRed then n.rotateRight else n).toList = n.toList := by
    split
    · rename_i h
      exact toList_rotateRight (isEmpty_eq_false_of_isRed h)
    · rfl
  rw [← hrotate, towardsRight]
  generalize (if n.left.isRed then n.rotateRight else n) = m
  split
  · exact toList_moveRedRight
  · rfl

theorem count_left_lt (h : n.isEmpty = false) : n.left.count < n.count := by
  cases n with
  | emptyNode => cases h
  | valueNode key value color left right =>
    simp only [left_valueNode, count]
    omega

theorem isEmpty_eq_true_iff : n.isEmpty = true ↔ n.count = 0 := by
  cases n with
  | emptyNode => exact iff_of_true rfl rfl
  | valueNode key value color left right =>
    refine iff_of_false Bool.false_ne_true ?_
    rw [count]
    omega

/-- Going to the left leads to a smaller tree. -/
theorem count_left_towardsLeft_lt (h : n.isEmpty = false) :
    n.towardsLeft.left.count < n.count := by
  have hcount : n.towardsLeft.count = n.count := by
    rw [← length_toList, toList_towardsLeft, length_toList]
  have hnotEmpty : n.towardsLeft.isEmpty = false := by
    rw [Bool.eq_false_iff, Ne, isEmpty_eq_true_iff, hcount, ← isEmpty_eq_true_iff, h]
    exact Bool.false_ne_true
  rw [← hcount]
  exact count_left_lt hnotEmpty

end Towards

/-- `removeMin`. It is not sent to the empty node. -/
def removeMin : FLLRBNode α β → FLLRBNode α β
  | emptyNode => emptyNode
  | valueNode key value color left right =>
    if left.isEmpty then emptyNode
    else
      let n := (valueNode key value color left right).towardsLeft
      (n.withLeft n.left.removeMin).fixUp
termination_by n => n.count
decreasing_by exact count_left_towardsLeft_lt rfl

theorem count_towardsLeft (n : FLLRBNode α β) : n.towardsLeft.count = n.count := by
  rw [← length_toList, toList_towardsLeft, length_toList]

theorem count_removeMin_le (n : FLLRBNode α β) : n.removeMin.count ≤ n.count := by
  induction n using removeMin.induct with
  | case1 => rw [removeMin]
  | case2 key value color left right hempty =>
    rw [removeMin, if_pos hempty]
    exact Nat.zero_le _
  | case3 key value color left right hempty n ih =>
    have hsame : n.count = (valueNode key value color left right).count := count_towardsLeft _
    rw [removeMin, if_neg hempty, count_fixUp, ← hsame]
    change (n.withLeft n.left.removeMin).count ≤ n.count
    cases hn : n with
    | emptyNode => exact Nat.le_refl 0
    | valueNode key' value' color' left' right' =>
      rw [hn, left_valueNode] at ih
      rw [withLeft, count, left_valueNode, count]
      omega

theorem count_towardsRight (n : FLLRBNode α β) : n.towardsRight.count = n.count := by
  rw [← length_toList, toList_towardsRight, length_toList]

/-- Going to the right leads to a smaller tree. -/
theorem count_right_lt {key : α} {value : β} {color : FLLRBColor} {left right n : FLLRBNode α β}
    (h : n.towardsRight = valueNode key value color left right) : right.count < n.count := by
  rw [← count_towardsRight n, h, count]
  omega

/-- `remove` -/
def remove (cmp : α → α → Ordering) (aKey : α) : FLLRBNode α β → FLLRBNode α β
  | emptyNode => emptyNode
  | valueNode key value color left right =>
    if cmp aKey key = .lt then
      let n := (valueNode key value color left right).towardsLeft
      (n.withLeft (n.left.remove cmp aKey)).fixUp
    else
      match _h : (valueNode key value color left right).towardsRight with
      | emptyNode => emptyNode
      | valueNode key value color left right =>
        if cmp aKey key = .eq then
          match right.min with
          | none => emptyNode
          | some smallest =>
            (valueNode smallest.1 smallest.2 color left (right.removeMin.remove cmp aKey)).fixUp
        else (valueNode key value color left (right.remove cmp aKey)).fixUp
termination_by n => n.count
decreasing_by
  · exact count_left_towardsLeft_lt rfl
  · exact Nat.lt_of_le_of_lt (count_removeMin_le _) (count_right_lt _h)
  · exact count_right_lt _h

/-! ## Going to the left -/

/-- The node is red or has a red child, if it is no empty node. -/
def Ready (n : FLLRBNode α β) : Prop := n.isEmpty = true ∨ n.isRed = true ∨ n.left.isRed = true

/-- What a removal makes of `n`. -/
structure Removed (n n' : FLLRBNode α β) : Prop where
  valid : n'.Valid
  blackHeight : n'.blackHeight = n.blackHeight
  isRed : n.isRed = false → n'.isRed = false

section Left

variable {key : α} {value : β} {color : FLLRBColor} {left right n left' : FLLRBNode α β}

@[simp] theorem flip_flip : n.flip.flip = n := by
  rcases n with _ | ⟨key, value, _ | _, left, right⟩ <;> rfl

@[simp] theorem left_flip : n.flip.left = n.left := by
  cases n <;> rfl

@[simp] theorem isEmpty_flip : n.flip.isEmpty = n.isEmpty := by
  cases n <;> rfl

/-- A black node made red. -/
theorem Valid.flip_black (h : n.Valid) (hempty : n.isEmpty = false) (hblack : n.isRed = false)
    (hleft : n.left.isRed = false) :
    n.flip.Valid ∧ n.flip.blackHeight + 1 = n.blackHeight ∧ n.flip.isRed = true := by
  rcases n with _ | ⟨key, value, _ | _, left, right⟩
  · cases hempty
  · cases hblack
  · exact ⟨⟨h.1, h.2.1, h.2.2.1, h.2.2.2.1, fun _ => hleft⟩, rfl, rfl⟩

theorem isEmpty_of_blackHeight_eq_zero (hblack : n.isRed = false) (hheight : n.blackHeight = 0) :
    n.isEmpty = true := by
  rcases n with _ | ⟨key, value, _ | _, left, right⟩
  · rfl
  · cases hblack
  · cases hheight

/-- Two black children are empty or not at the same time. -/
theorem isEmpty_eq_of_blackHeight_eq {m : FLLRBNode α β} (hn : n.isRed = false)
    (hm : m.isRed = false) (h : n.blackHeight = m.blackHeight) : n.isEmpty = m.isEmpty := by
  rcases n with _ | ⟨key, value, _ | _, left, right⟩
  · exact (isEmpty_of_blackHeight_eq_zero hm h.symm).symm
  · cases hn
  · cases m with
    | emptyNode => cases h
    | valueNode => rfl

theorem moveRedLeft_flip (hright : right.left.isRed = false) :
    (valueNode key value color left right).moveRedLeft =
      valueNode key value color.flip left.flip right.flip := by
  simp [moveRedLeft, colorFlip, hright]

theorem moveRedLeft_rotate {key' keyMid : α} {value' valueMid : β} {color' : FLLRBColor}
    {leftMid rightMid right' : FLLRBNode α β} :
    (valueNode key value color left (valueNode key' value' color'
        (valueNode keyMid valueMid .red leftMid rightMid) right')).moveRedLeft =
      valueNode keyMid valueMid color (valueNode key value .black left.flip leftMid)
        (valueNode key' value' .black rightMid right') := by
  cases color <;> simp [moveRedLeft, colorFlip, flip, FLLRBColor.flip, rotateRight, rotateLeft,
    withRight]

/-- Where a red child is moved to the left, and how. -/
theorem towardsLeft_cases (h : (valueNode key value color left right).Valid) :
    (valueNode key value color left right).towardsLeft = valueNode key value color left right ∧
        left.Ready ∨
      left.isEmpty = false ∧ left.isRed = false ∧ left.left.isRed = false ∧
        right.left.isRed = false ∧ (valueNode key value color left right).towardsLeft =
          valueNode key value color.flip left.flip right.flip ∨
      left.isEmpty = false ∧ left.isRed = false ∧ left.left.isRed = false ∧
        ∃ key' value' keyMid valueMid leftMid rightMid right',
          right = valueNode key' value' .black (valueNode keyMid valueMid .red leftMid rightMid)
            right' ∧
          (valueNode key value color left right).towardsLeft =
            valueNode keyMid valueMid color (valueNode key value .black left.flip leftMid)
              (valueNode key' value' .black rightMid right') := by
  rw [towardsLeft, left_valueNode]
  split
  · rename_i hcond
    obtain ⟨⟨hempty, hred⟩, hred'⟩ : (left.isEmpty = false ∧ left.isRed = false) ∧
        left.left.isRed = false := by simpa using hcond
    right
    cases hright : right.left.isRed with
    | false => exact Or.inl ⟨hempty, hred, hred', rfl, moveRedLeft_flip hright⟩
    | true =>
      right
      rcases right with _ | ⟨key', value', color', _ | ⟨keyMid, valueMid, colorMid, leftMid,
        rightMid⟩, right'⟩
      · cases hright
      · cases hright
      · obtain rfl : colorMid = .red := of_decide_eq_true hright
        obtain rfl : color' = .black := by
          cases color' with
          | red => exact absurd h.2.2.2.1 (by simp)
          | black => rfl
        exact ⟨hempty, hred, hred', _, _, _, _, _, _, _, rfl, moveRedLeft_rotate⟩
  · rename_i hcond
    refine Or.inl ⟨rfl, ?_⟩
    rw [Ready]
    cases hempty : left.isEmpty <;> cases hred : left.isRed <;> simp_all

/-- The left child that is gone to is valid and ready. -/
theorem ready_left_towardsLeft (h : n.Valid) :
    n.towardsLeft.left.Valid ∧ n.towardsLeft.left.Ready := by
  cases n with
  | emptyNode => exact ⟨trivial, Or.inl rfl⟩
  | valueNode key value color left right =>
    obtain ⟨hleft, hright, hheight, hblack, hcolor⟩ := id h
    rcases towardsLeft_cases h with ⟨hn, hready⟩ | ⟨hempty, hred, hred', -, hn⟩ |
      ⟨hempty, hred, hred', key', value', keyMid, valueMid, leftMid, rightMid, right', rfl, hn⟩
    · rw [hn]
      exact ⟨hleft, hready⟩
    · obtain ⟨hflip, -, hflipRed⟩ := hleft.flip_black hempty hred hred'
      rw [hn]
      exact ⟨hflip, Or.inr (Or.inl hflipRed)⟩
    · obtain ⟨hflip, hflipHeight, hflipRed⟩ := hleft.flip_black hempty hred hred'
      obtain ⟨⟨hmid, -, -, -, hmidBlack⟩, -, -, -, -⟩ := hright
      rw [hn]
      refine ⟨⟨hflip, hmid, ?_, hmidBlack rfl, fun hcolor => by cases hcolor⟩,
        Or.inr (Or.inr hflipRed)⟩
      simp only [blackHeight, reduceCtorEq, if_true, if_false] at hheight
      omega

/-- **Back from the left.** Without the red above it, this is so as long as the child keeps
its color. -/
theorem removed_left (h : (valueNode key value color left right).Valid)
    (hleft' : Removed (valueNode key value color left right).towardsLeft.left left')
    (hkeep : color = .red ∨ left.isRed = true ∨
      left'.isRed = (valueNode key value color left right).towardsLeft.left.isRed) :
    Removed (valueNode key value color left right)
        ((valueNode key value color left right).towardsLeft.withLeft left').fixUp ∧
      (left'.isRed = (valueNode key value color left right).towardsLeft.left.isRed →
        ((valueNode key value color left right).towardsLeft.withLeft left').fixUp.isRed =
          decide (color = .red)) := by
  obtain ⟨hleft, hright, hheight, hblack, hcolor⟩ := id h
  rcases towardsLeft_cases h with ⟨hn, -⟩ | ⟨hempty, hred, hred', hright', hn⟩ |
    ⟨hempty, hred, hred', key', value', keyMid, valueMid, leftMid, rightMid, right', rfl, hn⟩
  · -- nothing was moved
    rw [hn] at hleft' ⊢
    have hvalid : (valueNode key value color left' right).Valid :=
      ⟨hleft'.valid, hright, hleft'.blackHeight.trans hheight, hblack,
        fun hc => hleft'.isRed (hcolor hc)⟩
    rw [withLeft, fixUp_of_valid hvalid]
    refine ⟨⟨hvalid, ?_, id⟩, fun _ => rfl⟩
    rw [blackHeight, blackHeight, hleft'.blackHeight]
    rfl
  · -- both children were made red
    obtain ⟨hflip, hflipHeight, hflipRed⟩ := hleft.flip_black hempty hred hred'
    obtain ⟨hrFlip, hrHeight, hrRed⟩ := hright.flip_black
      ((isEmpty_eq_of_blackHeight_eq hred hblack hheight).symm.trans hempty) hblack hright'
    rw [hn] at hleft' hkeep ⊢
    rw [left_valueNode] at hleft' hkeep ⊢
    have hheight' : left'.blackHeight = left.flip.blackHeight := hleft'.blackHeight
    cases hred'' : left'.isRed with
    | true =>
      obtain ⟨hl, hlHeight, hlBlack⟩ := hleft'.valid.flip_red hred''
      have hsum : left'.flip.blackHeight = left.blackHeight := by omega
      have hvalid : (valueNode key value color left'.flip right).Valid :=
        ⟨hl, hright, hsum.trans hheight, hblack, fun _ => hlBlack⟩
      have hcc : color.flip.flip = color := by cases color <;> rfl
      rw [withLeft, fixUp_colorFlip hred'' (hleft'.valid.left_of_red hred'') hrRed, flip_flip, hcc]
      refine ⟨⟨hvalid, ?_, id⟩, fun _ => rfl⟩
      rw [blackHeight, blackHeight, hsum]
    | false =>
      -- the child has become black, so the node was red
      have hcolorRed : color = .red := by
        rcases hkeep with hc | hc | hc
        · exact hc
        · exact absurd (hred.symm.trans hc) Bool.false_ne_true
        · exact absurd (hred''.symm.trans (hc.trans hflipRed)) Bool.false_ne_true
      subst hcolorRed
      rcases right with _ | ⟨key', value', _ | _, left'', right''⟩
      · cases hrRed
      · cases hblack
      · obtain ⟨hl, hr, hheight'', hblack'', -⟩ := hright
        simp only [blackHeight, reduceCtorEq, if_false] at hheight
        have hsum : left'.blackHeight = left''.blackHeight := by omega
        have hvalid : (valueNode key' value' .black (valueNode key value .red left' left'')
            right'').Valid :=
          ⟨⟨hleft'.valid, hl, hsum, hright', fun _ => hred''⟩, hr, hsum.trans hheight'', hblack'',
            fun hc => by cases hc⟩
        have hfix : (valueNode key value FLLRBColor.red.flip left'
            (valueNode key' value' .black left'' right'').flip).fixUp =
            valueNode key' value' .black (valueNode key value .red left' left'') right'' :=
          fixUp_rotateLeft hred'' hblack''
        rw [withLeft, hfix]
        refine ⟨⟨hvalid, ?_, fun hc => by cases hc⟩, fun hc => ?_⟩
        · simp only [blackHeight, reduceCtorEq, if_true, if_false]
          omega
        · exact absurd hc (by rw [hflipRed]; exact Bool.false_ne_true)
  · -- one of the right children was moved to the left
    obtain ⟨-, hflipHeight, -⟩ := hleft.flip_black hempty hred hred'
    obtain ⟨⟨-, hmid, hmidHeight, hmidBlack, -⟩, hr, hrHeight, hrBlack, -⟩ := hright
    rw [hn] at hleft' ⊢
    have hheight' := hleft'.blackHeight
    simp only [left_valueNode, blackHeight, reduceCtorEq, if_true, if_false] at hheight hheight'
    rw [blackHeight, if_pos rfl] at hrHeight
    have hright' : (valueNode key' value' .black rightMid right').Valid :=
      ⟨hmid, hr, by omega, hrBlack, fun hc => by cases hc⟩
    have hvalid : (valueNode keyMid valueMid color left'
        (valueNode key' value' .black rightMid right')).Valid := by
      refine ⟨hleft'.valid, hright', ?_, rfl, fun _ => hleft'.isRed rfl⟩
      simp only [blackHeight, reduceCtorEq, if_false]
      omega
    rw [withLeft, fixUp_of_valid hvalid]
    refine ⟨⟨hvalid, ?_, id⟩, fun _ => rfl⟩
    simp only [blackHeight]
    omega

end Left

/-! ## Going to the right -/

/-- A black node with a red child to the right: there are such nodes on the way down. -/
def RightRed : FLLRBNode α β → Prop
  | emptyNode => False
  | valueNode _ _ color left right => color = .black ∧ left.Valid ∧ right.Valid ∧
      left.blackHeight = right.blackHeight ∧ left.isRed = false ∧ right.isRed = true

/-- What a removal goes down to. -/
def Descended (n : FLLRBNode α β) : Prop := n.Valid ∧ n.Ready ∨ n.RightRed

section Right

variable {key key' : α} {value value' : β} {color color' : FLLRBColor}
  {left right left' right' n : FLLRBNode α β}

/-- A red child to the right is put in order on the way up. -/
theorem fixUp_rightRed (key : α) (value : β) (hleft : left.Valid) (hblack : left.isRed = false)
    (hright : right.Valid) (hheight : left.blackHeight = right.blackHeight) :
    (valueNode key value .black left right).fixUp.Valid ∧
      (valueNode key value .black left right).fixUp.blackHeight = left.blackHeight + 1 ∧
      (valueNode key value .black left right).fixUp.isRed = false := by
  cases hred : right.isRed with
  | false =>
    have hvalid : (valueNode key value .black left right).Valid :=
      ⟨hleft, hright, hheight, hred, fun hc => by cases hc⟩
    rw [fixUp_of_valid hvalid]
    exact ⟨hvalid, rfl, rfl⟩
  | true =>
    rcases right with _ | ⟨key', value', _ | _, left', right'⟩
    · cases hred
    · obtain ⟨hl, hr, hheight', hblack', hlBlack⟩ := hright
      rw [fixUp_rotateLeft hblack hblack']
      exact ⟨⟨⟨hleft, hl, hheight, hlBlack rfl, fun _ => hblack⟩, hr, hheight.trans hheight',
        hblack', fun hc => by cases hc⟩, rfl, rfl⟩
    · cases hred

theorem moveRedRight_flip (hleft : left.left.isRed = false) :
    (valueNode key value color left right).moveRedRight =
      valueNode key value color.flip left.flip right.flip := by
  simp [moveRedRight, colorFlip, hleft]

theorem moveRedRight_rotate (hleft' : left'.isRed = true) :
    (valueNode key value color (valueNode key' value' .black left' right') right).moveRedRight =
      valueNode key' value' color left'.flip
        (valueNode key value .black right' right.flip) := by
  cases color <;> simp [moveRedRight, colorFlip, flip, FLLRBColor.flip, rotateRight, hleft']

/-- Where a red child is moved to the right, and how. -/
theorem towardsRight_cases (h : (valueNode key value color left right).Descended) :
    (valueNode key value color left right).RightRed ∧
        (valueNode key value color left right).towardsRight =
          valueNode key value color left right ∨
      (valueNode key value color left right).Valid ∧
        ((∃ key' value' left' right', color = .black ∧
            left = valueNode key' value' .red left' right' ∧
            (valueNode key value color left right).towardsRight =
              valueNode key' value' .black left' (valueNode key value .red right' right)) ∨
          color = .red ∧ left.isRed = false ∧
            ((right.isEmpty = true ∨ right.left.isRed = true) ∧
                (valueNode key value color left right).towardsRight =
                  valueNode key value .red left right ∨
              right.isEmpty = false ∧ right.left.isRed = false ∧
                (left.left.isRed = false ∧ (valueNode key value color left right).towardsRight =
                    valueNode key value .black left.flip right.flip ∨
                  ∃ key' value' left' right', left = valueNode key' value' .black left' right' ∧
                    left'.isRed = true ∧ (valueNode key value color left right).towardsRight =
                      valueNode key' value' .red left'.flip
                        (valueNode key value .black right' right.flip)))) := by
  rcases h with ⟨hvalid, hready⟩ | hright
  · obtain ⟨hleft, hright, hheight, hblack, hcolor⟩ := id hvalid
    refine Or.inr ⟨hvalid, ?_⟩
    cases hred : left.isRed with
    | true =>
      left
      rcases left with _ | ⟨key', value', _ | _, left', right'⟩
      · cases hred
      · refine ⟨key', value', left', right', ?_, rfl, ?_⟩
        · cases color with
          | red => exact absurd (hcolor rfl) (by simp)
          | black => rfl
        · have hc : color = .black := by
            cases color with
            | red => exact absurd (hcolor rfl) (by simp)
            | black => rfl
          subst hc
          simp [towardsRight, rotateRight]
      · cases hred
    | false =>
      right
      have hcolorRed : color = .red := by
        rcases hready with hc | hc | hc
        · cases hc
        · exact of_decide_eq_true hc
        · exact absurd (hred.symm.trans hc) Bool.false_ne_true
      subst hcolorRed
      refine ⟨rfl, rfl, ?_⟩
      have hstay : (valueNode key value .red left right).towardsRight =
          if !right.isEmpty && !right.left.isRed then
            (valueNode key value .red left right).moveRedRight
          else valueNode key value .red left right := by
        simp [towardsRight, hred, hblack]
      rw [hstay]
      split
      · rename_i hcond
        obtain ⟨hempty, hright'⟩ : right.isEmpty = false ∧ right.left.isRed = false := by
          simpa using hcond
        refine Or.inr ⟨hempty, hright', ?_⟩
        cases hleft' : left.left.isRed with
        | false => exact Or.inl ⟨rfl, moveRedRight_flip hleft'⟩
        | true =>
          rcases left with _ | ⟨key', value', _ | _, left', right'⟩
          · cases hleft'
          · cases hred
          · exact Or.inr ⟨key', value', left', right', rfl, hleft', moveRedRight_rotate hleft'⟩
      · rename_i hcond
        refine Or.inl ⟨?_, rfl⟩
        cases hempty : right.isEmpty <;> simp_all
  · refine Or.inl ⟨hright, ?_⟩
    obtain ⟨-, -, -, -, hleft, hred⟩ := hright
    simp [towardsRight, hleft, hred]

/-- The right child that is gone to. Either the node has stayed above it, or it has become
that child, below one of its smaller keys. -/
theorem descended_right (h : (valueNode key value color left right).Descended)
    (hn : (valueNode key value color left right).towardsRight =
      valueNode key' value' color' left' right') :
    (key' = key ∧ right'.Valid ∧ right'.Ready) ∨
      (key', value') ∈ left.toList ∧ right'.Descended ∧
        ∃ color'' left'' right'', right' = valueNode key value color'' left'' right'' := by
  rcases towardsRight_cases h with ⟨hright, heq⟩ |
    ⟨hvalid, ⟨key₁, value₁, left₁, right₁, rfl, rfl, heq⟩ |
      ⟨rfl, hred, ⟨hright, heq⟩ | ⟨hempty, hright', ⟨hleft', heq⟩ |
        ⟨key₁, value₁, left₁, right₁, rfl, hleft', heq⟩⟩⟩⟩
  · obtain ⟨-, -, hvalid, -, -, hred⟩ := hright
    obtain ⟨rfl, rfl, rfl, rfl, rfl⟩ := valueNode.inj (hn.symm.trans heq)
    exact Or.inl ⟨rfl, hvalid, Or.inr (Or.inl hred)⟩
  · obtain ⟨rfl, rfl, rfl, rfl, rfl⟩ := valueNode.inj (hn.symm.trans heq)
    obtain ⟨⟨-, hr, hheight', hblack', -⟩, hright, hheight, hblack, -⟩ := hvalid
    have hsum : right₁.blackHeight = right.blackHeight := by
      rw [← hheight, ← hheight']
      rfl
    exact Or.inr ⟨by simp [toList], Or.inl ⟨⟨hr, hright, hsum, hblack, fun _ => hblack'⟩,
      Or.inr (Or.inl rfl)⟩, _, _, _, rfl⟩
  · obtain ⟨rfl, rfl, rfl, rfl, rfl⟩ := valueNode.inj (hn.symm.trans heq)
    exact Or.inl ⟨rfl, hvalid.2.1, hright.imp_right Or.inr⟩
  · obtain ⟨rfl, rfl, rfl, rfl, rfl⟩ := valueNode.inj (hn.symm.trans heq)
    obtain ⟨hflip, -, hflipRed⟩ := hvalid.2.1.flip_black hempty hvalid.2.2.2.1 hright'
    exact Or.inl ⟨rfl, hflip, Or.inr (Or.inl hflipRed)⟩
  · obtain ⟨rfl, rfl, rfl, rfl, rfl⟩ := valueNode.inj (hn.symm.trans heq)
    obtain ⟨⟨-, hr, hheight', hblack', -⟩, hright, hheight, hblack, -⟩ := hvalid
    obtain ⟨hflip, hflipHeight, hflipRed⟩ := hright.flip_black hempty hblack hright'
    refine Or.inr ⟨by simp [toList], Or.inr ⟨rfl, hr, hflip, ?_, hblack', hflipRed⟩, _, _, _, rfl⟩
    simp only [blackHeight, reduceCtorEq, if_false] at hheight
    omega

/-- **Back from the right.** -/
theorem removed_right (h : (valueNode key value color left right).Descended)
    (hn : (valueNode key value color left right).towardsRight =
      valueNode key' value' color' left' right') {right'' : FLLRBNode α β}
    (hright'' : Removed right' right'') (key'' : α) (value'' : β) :
    Removed (valueNode key value color left right)
      (valueNode key'' value'' color' left' right'').fixUp := by
  rcases towardsRight_cases h with ⟨hright, heq⟩ |
    ⟨hvalid, ⟨key₁, value₁, left₁, right₁, rfl, rfl, heq⟩ |
      ⟨rfl, hred, ⟨hright, heq⟩ | ⟨hempty, hright', ⟨hleft', heq⟩ |
        ⟨key₁, value₁, left₁, right₁, rfl, hleft', heq⟩⟩⟩⟩
  · obtain ⟨rfl, hleft, -, hheight, hblack, -⟩ := hright
    obtain ⟨rfl, rfl, rfl, rfl, rfl⟩ := valueNode.inj (hn.symm.trans heq)
    obtain ⟨hfix, hfixHeight, hfixBlack⟩ := fixUp_rightRed key'' value'' hleft hblack
      hright''.valid (hheight.trans hright''.blackHeight.symm)
    exact ⟨hfix, hfixHeight, fun _ => hfixBlack⟩
  · obtain ⟨rfl, rfl, rfl, rfl, rfl⟩ := valueNode.inj (hn.symm.trans heq)
    obtain ⟨⟨hl, -, hheight', -, hlBlack⟩, -, -, -, -⟩ := hvalid
    have hheight'' := hright''.blackHeight
    rw [blackHeight, if_pos rfl] at hheight''
    obtain ⟨hfix, hfixHeight, hfixBlack⟩ := fixUp_rightRed key'' value'' hl (hlBlack rfl)
      hright''.valid (by omega)
    exact ⟨hfix, hfixHeight, fun _ => hfixBlack⟩
  · -- nothing was moved
    obtain ⟨rfl, rfl, rfl, rfl, rfl⟩ := valueNode.inj (hn.symm.trans heq)
    obtain ⟨hleft, -, hheight, hblack, -⟩ := hvalid
    have hvalid' : (valueNode key'' value'' .red left' right'').Valid :=
      ⟨hleft, hright''.valid, hheight.trans hright''.blackHeight.symm, hright''.isRed hblack,
        fun _ => hred⟩
    rw [fixUp_of_valid hvalid']
    exact ⟨hvalid', rfl, id⟩
  · -- both children were made red
    obtain ⟨rfl, rfl, rfl, rfl, rfl⟩ := valueNode.inj (hn.symm.trans heq)
    obtain ⟨hleft, hright, hheight, hblack, -⟩ := hvalid
    have hempty' : left.isEmpty = false :=
      (isEmpty_eq_of_blackHeight_eq hred hblack hheight).trans hempty
    obtain ⟨hl, hlHeight, hlRed⟩ := hleft.flip_black hempty' hred hleft'
    obtain ⟨-, hrHeight, -⟩ := hright.flip_black hempty hblack hright'
    have hheight'' := hright''.blackHeight
    cases hred'' : right''.isRed with
    | false =>
      have hvalid' : (valueNode key'' value'' .black left.flip right'').Valid :=
        ⟨hl, hright''.valid, by omega, hred'', fun hc => by cases hc⟩
      rw [fixUp_of_valid hvalid']
      exact ⟨hvalid', hlHeight, fun _ => rfl⟩
    | true =>
      obtain ⟨hr, hrHeight', hrBlack⟩ := hright''.valid.flip_red hred''
      rw [fixUp_colorFlip hlRed (by rwa [left_flip]) hred'', flip_flip]
      exact ⟨⟨hleft, hr, by omega, hrBlack, fun _ => hred⟩, rfl, fun hc => by cases hc⟩
  · -- one of the left children was moved to the right
    obtain ⟨rfl, rfl, rfl, rfl, rfl⟩ := valueNode.inj (hn.symm.trans heq)
    obtain ⟨⟨hl, -, hheight', -, -⟩, -, -, -, -⟩ := hvalid
    obtain ⟨hflip, hflipHeight, hflipBlack⟩ := hl.flip_red hleft'
    have hheight'' := hright''.blackHeight
    simp only [blackHeight, reduceCtorEq, if_false] at hheight''
    have hvalid' : (valueNode key'' value'' .red left₁.flip right'').Valid :=
      ⟨hflip, hright''.valid, by omega, hright''.isRed rfl, fun _ => hflipBlack⟩
    rw [fixUp_of_valid hvalid']
    exact ⟨hvalid', hflipHeight, fun hc => by cases hc⟩

/-- Where there is nothing to the right, there is nothing but a red node. -/
theorem removed_last (h : (valueNode key value color left right).Descended)
    (hn : (valueNode key value color left right).towardsRight =
      valueNode key' value' color' left' right') (hempty : right'.isEmpty = true) :
    Removed (valueNode key value color left right) emptyNode ∧ left'.toList = [] := by
  rcases towardsRight_cases h with ⟨hright, heq⟩ |
    ⟨hvalid, ⟨key₁, value₁, left₁, right₁, rfl, rfl, heq⟩ |
      ⟨rfl, hred, ⟨hright, heq⟩ | ⟨hempty', hright', ⟨hleft', heq⟩ |
        ⟨key₁, value₁, left₁, right₁, rfl, hleft', heq⟩⟩⟩⟩
  · obtain ⟨rfl, rfl, rfl, rfl, rfl⟩ := valueNode.inj (hn.symm.trans heq)
    exact absurd (isEmpty_eq_false_of_isRed hright.2.2.2.2.2) (by simp [hempty])
  · obtain ⟨rfl, rfl, rfl, rfl, rfl⟩ := valueNode.inj (hn.symm.trans heq)
    cases hempty
  · obtain ⟨rfl, rfl, rfl, rfl, rfl⟩ := valueNode.inj (hn.symm.trans heq)
    obtain ⟨-, -, hheight, hblack, -⟩ := hvalid
    have hleft : left'.isEmpty = true :=
      (isEmpty_eq_of_blackHeight_eq hred hblack hheight).trans hempty
    cases left' with
    | emptyNode => exact ⟨⟨trivial, rfl, fun _ => rfl⟩, rfl⟩
    | valueNode key value color left right => cases hleft
  · obtain ⟨rfl, rfl, rfl, rfl, rfl⟩ := valueNode.inj (hn.symm.trans heq)
    exact absurd (hempty.symm.trans isEmpty_flip) (by simp [hempty'])
  · obtain ⟨rfl, rfl, rfl, rfl, rfl⟩ := valueNode.inj (hn.symm.trans heq)
    cases hempty

end Right

/-! ## The smallest entry -/

section RemoveMin

variable {n : FLLRBNode α β}

theorem toList_withLeft (left : FLLRBNode α β) (hn : n.isEmpty = false) :
    ∃ p, n.toList = n.left.toList ++ p :: n.right.toList ∧
      (n.withLeft left).toList = left.toList ++ p :: n.right.toList := by
  cases n with
  | emptyNode => cases hn
  | valueNode key value color left right => exact ⟨(key, value), rfl, rfl⟩

theorem isEmpty_towardsLeft (hempty : n.isEmpty = false) : n.towardsLeft.isEmpty = false := by
  rw [Bool.eq_false_iff, Ne, isEmpty_eq_true_iff, count_towardsLeft, ← isEmpty_eq_true_iff, hempty]
  exact Bool.false_ne_true

/-- `min` is the first entry. -/
theorem min_eq_head? : n.min = n.toList.head? := by
  induction n with
  | emptyNode => rfl
  | valueNode key value color left right ihl ihr =>
    rw [min, toList]
    cases left with
    | emptyNode => rfl
    | valueNode key' value' color' left' right' =>
      rw [isEmpty_valueNode, if_neg Bool.false_ne_true, ihl, List.head?_append_of_ne_nil]
      simp [toList]

theorem isEmpty_left_towardsLeft {key : α} {value : β} {color : FLLRBColor}
    {left right : FLLRBNode α β} (h : (valueNode key value color left right).Valid)
    (hempty : left.isEmpty = false) :
    (valueNode key value color left right).towardsLeft.left.isEmpty = false := by
  rcases towardsLeft_cases h with ⟨hn, -⟩ | ⟨-, -, -, -, hn⟩ |
    ⟨-, -, -, key', value', keyMid, valueMid, leftMid, rightMid, right', -, hn⟩
  · rw [hn]
    exact hempty
  · rw [hn]
    exact isEmpty_flip.trans hempty
  · rw [hn]
    rfl

/-- **The smallest entry** is removed, and `min` is that entry. -/
theorem removed_removeMin (h : n.Valid) (hready : n.Ready) (hempty : n.isEmpty = false) :
    Removed n n.removeMin ∧ ∃ p, n.min = some p ∧ n.toList = p :: n.removeMin.toList := by
  induction n using removeMin.induct with
  | case1 => cases hempty
  | case2 key value color left right hleft =>
    obtain ⟨-, -, hheight, hblack, -⟩ := h
    rw [removeMin, if_pos hleft]
    cases left with
    | valueNode key' value' color' left' right' => cases hleft
    | emptyNode =>
      -- what has no left child is a single node
      have hright := isEmpty_of_blackHeight_eq_zero hblack hheight.symm
      cases right with
      | valueNode key' value' color' left' right' => cases hright
      | emptyNode =>
        rcases hready with hc | hc | hc
        · cases hc
        · obtain rfl : color = .red := of_decide_eq_true hc
          exact ⟨⟨trivial, rfl, fun hc => by cases hc⟩, (key, value), rfl, rfl⟩
        · cases hc
  | case3 key value color left right hleft n ih =>
    have hnotEmpty : left.isEmpty = false := Bool.eq_false_iff.mpr hleft
    obtain ⟨hvalid, hready'⟩ := ready_left_towardsLeft h
    obtain ⟨hremoved, p, -, hp⟩ := ih hvalid hready' (isEmpty_left_towardsLeft h hnotEmpty)
    have hnEmpty : n.isEmpty = false := isEmpty_towardsLeft rfl
    obtain ⟨q, hq, hq'⟩ := toList_withLeft n.left.removeMin hnEmpty
    rw [removeMin, if_neg hleft]
    have hsame : (valueNode key value color left right).toList = n.toList :=
      toList_towardsLeft.symm
    have hlist : (valueNode key value color left right).toList =
        p :: (n.withLeft n.left.removeMin).fixUp.toList := by
      rw [hsame, hq, toList_fixUp, hq', hp, List.cons_append]
    refine ⟨(removed_left h hremoved ?_).1, p, ?_, hlist⟩
    · rcases hready with hc | hc | hc
      · cases hc
      · exact Or.inl (of_decide_eq_true hc)
      · exact Or.inr (Or.inl hc)
    · rw [min_eq_head?, hlist, List.head?_cons]

end RemoveMin

/-! ## Removing a key -/

section Remove

variable {cmp : α → α → Ordering} {aKey : α} {n : FLLRBNode α β}
  {key key' : α} {value value' : β} {color color' : FLLRBColor}
  {left right left' right' : FLLRBNode α β}

theorem remove_valueNode (hkey : ¬ cmp aKey key = .lt)
    (hn : (valueNode key value color left right).towardsRight =
      valueNode key' value' color' left' right') :
    (valueNode key value color left right).remove cmp aKey =
      if cmp aKey key' = .eq then
        match right'.min with
        | none => emptyNode
        | some smallest =>
          (valueNode smallest.1 smallest.2 color' left' (right'.removeMin.remove cmp aKey)).fixUp
      else (valueNode key' value' color' left' (right'.remove cmp aKey)).fixUp := by
  rw [remove, if_neg hkey]
  split
  · rename_i heq
    rw [hn] at heq
    cases heq
  · rename_i heq
    obtain ⟨rfl, rfl, rfl, rfl, rfl⟩ := valueNode.inj (hn.symm.trans heq)
    rfl

/-- A key below all others is not there, and nothing is removed. -/
theorem remove_of_lt (h : n.Valid) (hlt : ∀ p ∈ n.toList, cmp aKey p.1 = .lt) :
    Removed n (n.remove cmp aKey) ∧ (n.remove cmp aKey).isRed = n.isRed ∧
      (n.remove cmp aKey).toList = n.toList := by
  have hself {key : α} {value : β} {color : FLLRBColor} {left right : FLLRBNode α β}
      (hkey : ¬ cmp aKey key = .lt) :
      ¬ ∀ p ∈ (valueNode key value color left right).toList, cmp aKey p.1 = .lt := fun hall =>
    hkey (hall (key, value) (by simp [toList]))
  induction n using remove.induct cmp aKey with
  | case1 =>
    rw [remove]
    exact ⟨⟨trivial, rfl, id⟩, rfl, rfl⟩
  | case2 key value color left right hkey n ih =>
    obtain ⟨p, hp, hp'⟩ := toList_withLeft (n.left.remove cmp aKey)
      (isEmpty_towardsLeft (n := valueNode key value color left right) rfl)
    have hsame : (valueNode key value color left right).toList = n.toList :=
      toList_towardsLeft.symm
    obtain ⟨hremoved, hcolor, hlist⟩ := ih (ready_left_towardsLeft h).1 fun q hq => by
      refine hlt q ?_
      rw [hsame, hp]
      exact List.mem_append_left _ hq
    obtain ⟨hremoved', hcolor'⟩ := removed_left h hremoved (Or.inr (Or.inr hcolor))
    rw [remove, if_pos hkey]
    refine ⟨hremoved', hcolor' hcolor, ?_⟩
    rw [toList_fixUp, hp', hlist, hsame, hp]
  | case3 key value color left right hkey => exact absurd hlt (hself hkey)
  | case4 key value color left right hkey => exact absurd hlt (hself hkey)
  | case5 key value color left right hkey => exact absurd hlt (hself hkey)
  | case6 key value color left right hkey => exact absurd hlt (hself hkey)

theorem Removed.trans {n₁ n₂ n₃ : FLLRBNode α β} (h : Removed n₁ n₂) (h' : Removed n₂ n₃) :
    Removed n₁ n₃ :=
  ⟨h'.valid, h'.blackHeight.trans h.blackHeight, fun hn => h'.isRed (h.isRed hn)⟩

/-- On the way to the left a node stays where it is, or goes below a greater one. -/
theorem root_towardsLeft (h : (valueNode key value color left right).Valid) :
    ∃ p, (valueNode key value color left right).towardsLeft.toList =
        (valueNode key value color left right).towardsLeft.left.toList ++
          p :: (valueNode key value color left right).towardsLeft.right.toList ∧
      (∀ n, ((valueNode key value color left right).towardsLeft.withLeft n).toList = n.toList ++
          p :: (valueNode key value color left right).towardsLeft.right.toList) ∧
      (p.1 = key ∨
        (key, value) ∈ (valueNode key value color left right).towardsLeft.left.toList) := by
  rcases towardsLeft_cases h with ⟨hn, -⟩ | ⟨-, -, -, -, hn⟩ |
    ⟨-, -, -, key', value', keyMid, valueMid, leftMid, rightMid, right', -, hn⟩
  · rw [hn]
    exact ⟨_, rfl, fun _ => rfl, Or.inl rfl⟩
  · rw [hn]
    exact ⟨_, rfl, fun _ => rfl, Or.inl rfl⟩
  · rw [hn]
    exact ⟨_, rfl, fun _ => rfl, Or.inr (by simp [toList])⟩

/-- On the way to the right the key does, or goes below a smaller one. -/
theorem cmp_root_towardsRight [Std.TransCmp cmp]
    (hinc : OrderedAssoc.Increasing cmp (valueNode key value color left right).toList)
    (h : (valueNode key value color left right).Descended) (hkey : ¬ cmp aKey key = .lt)
    (hn : (valueNode key value color left right).towardsRight =
      valueNode key' value' color' left' right') :
    ¬ cmp aKey key' = .lt ∧ (cmp aKey key' = .eq → right'.Valid ∧ right'.Ready) := by
  rcases descended_right h hn with ⟨rfl, hready⟩ | ⟨hmem, -, -⟩
  · exact ⟨hkey, fun _ => hready⟩
  · have hlt : cmp key' key = .lt :=
      (OrderedAssoc.increasing_append_cons.mp hinc).2.2.1 (key', value') hmem
    have hgt : cmp aKey key' = .gt := OrderedAssoc.gt_of_gt_of_lt hkey hlt
    rw [hgt]
    exact ⟨by decide, fun hc => by cases hc⟩

/-- **Removing** a key removes it from the list of the entries, and keeps a tree in
balance. Where a node is not valid on the way down, the key is not to its left. -/
theorem removed_remove [Std.TransCmp cmp] (hinc : OrderedAssoc.Increasing cmp n.toList)
    (h : n.Descended) (hnot : n.Valid ∧ n.Ready ∨ ∀ key value color left right,
      n = valueNode key value color left right → ¬ cmp aKey key = .lt) :
    Removed n (n.remove cmp aKey) ∧
      (n.remove cmp aKey).toList = OrderedAssoc.erase cmp aKey n.toList := by
  induction n using remove.induct cmp aKey with
  | case1 =>
    rw [remove]
    exact ⟨⟨trivial, rfl, id⟩, rfl⟩
  | case2 key value color left right hkey n ih =>
    obtain ⟨hvalid, hready⟩ : (valueNode key value color left right).Valid ∧
        (valueNode key value color left right).Ready :=
      hnot.resolve_right fun hall => hall _ _ _ _ _ rfl hkey
    obtain ⟨p, hp, hp', hroot⟩ := root_towardsLeft hvalid
    have hsame : (valueNode key value color left right).toList = n.toList :=
      toList_towardsLeft.symm
    have hlist : n.toList = n.left.toList ++ p :: n.right.toList := hp
    rw [hsame, hlist] at hinc ⊢
    obtain ⟨hincLeft, -, hbelow, -, -⟩ := OrderedAssoc.increasing_append_cons.mp hinc
    have hlt : cmp aKey p.1 = .lt := by
      rcases hroot with heq | hmem
      · rw [heq, hkey]
      · exact Std.TransCmp.lt_trans hkey (hbelow _ hmem)
    have hready' := ready_left_towardsLeft hvalid
    obtain ⟨hremoved, herase⟩ := ih hincLeft (Or.inl hready') (Or.inl hready')
    rw [remove, if_pos hkey]
    refine ⟨(removed_left hvalid hremoved ?_).1, ?_⟩
    · rcases hready with hc | hc | hc
      · cases hc
      · exact Or.inl (of_decide_eq_true hc)
      · exact Or.inr (Or.inl hc)
    · rw [toList_fixUp, hp', herase, OrderedAssoc.erase_append_cons hinc, hlt]
  | case3 key value color left right hkey hn =>
    have hcount := count_towardsRight (valueNode key value color left right)
    rw [hn, count, count] at hcount
    omega
  | case4 key value color left right hkey key' value' color' left' right' hn heq hmin =>
    -- the key is that of the last entry
    have hempty : right'.isEmpty = true := by
      rw [min_eq_head?, List.head?_eq_none_iff, ← List.length_eq_zero_iff, length_toList] at hmin
      exact isEmpty_eq_true_iff.mpr hmin
    obtain ⟨hremoved, hleft⟩ := removed_last h hn hempty
    have hsame := toList_towardsRight (n := valueNode key value color left right)
    rw [hn, toList] at hsame
    rw [← hsame] at hinc ⊢
    have hright : right'.toList = [] := by rwa [min_eq_head?, List.head?_eq_none_iff] at hmin
    have hcmp : cmp aKey ((key', value') : α × β).1 = .eq := heq
    rw [remove_valueNode hkey hn, if_pos heq, hmin, OrderedAssoc.erase_append_cons hinc, hcmp,
      hleft, hright]
    exact ⟨hremoved, rfl⟩
  | case5 key value color left right hkey key' value' color' left' right' hn heq p hmin ih =>
    -- the smallest entry to the right takes its place, and below it the key is not there
    have hready := (cmp_root_towardsRight hinc h hkey hn).2 heq
    have hsame := toList_towardsRight (n := valueNode key value color left right)
    rw [hn, toList] at hsame
    rw [← hsame] at hinc ⊢
    have hcmp : cmp aKey ((key', value') : α × β).1 = .eq := heq
    have hempty : right'.isEmpty = false := by
      cases right' with
      | emptyNode => cases hmin
      | valueNode => rfl
    obtain ⟨hremoved, q, hq, hlist⟩ := removed_removeMin hready.1 hready.2 hempty
    obtain rfl := Option.some.inj (hmin.symm.trans hq)
    have hbelow : ∀ r ∈ right'.removeMin.toList, cmp aKey r.1 = .lt := fun r hr => by
      refine Std.TransCmp.lt_of_eq_of_lt heq
        ((OrderedAssoc.increasing_append_cons.mp hinc).2.2.2.1 r ?_)
      rw [hlist]
      exact List.mem_cons_of_mem p hr
    obtain ⟨hremoved', -, hlist'⟩ := remove_of_lt hremoved.valid hbelow
    rw [remove_valueNode hkey hn, if_pos heq, hmin, OrderedAssoc.erase_append_cons hinc, hcmp]
    refine ⟨removed_right h hn (hremoved.trans hremoved') p.1 p.2, ?_⟩
    rw [toList_fixUp, toList, hlist', hlist]
  | case6 key value color left right hkey key' value' color' left' right' hn hne ih =>
    have hnotLt := (cmp_root_towardsRight hinc h hkey hn).1
    have hsame := toList_towardsRight (n := valueNode key value color left right)
    rw [hn, toList] at hsame
    rw [← hsame] at hinc ⊢
    have hcmp : cmp aKey ((key', value') : α × β).1 = .gt := by
      cases hc : cmp aKey key' with
      | lt => exact absurd hc hnotLt
      | eq => exact absurd hc hne
      | gt => rfl
    have hincRight := (OrderedAssoc.increasing_append_cons.mp hinc).2.1
    obtain ⟨hremoved, herase⟩ : Removed right' (right'.remove cmp aKey) ∧
        (right'.remove cmp aKey).toList = OrderedAssoc.erase cmp aKey right'.toList := by
      rcases descended_right h hn with ⟨-, hready⟩ | ⟨-, hdesc, _, _, _, rfl⟩
      · exact ih hincRight (Or.inl hready) (Or.inl hready)
      · refine ih hincRight hdesc (Or.inr fun key value color left right heq => ?_)
        obtain ⟨rfl, -⟩ := valueNode.inj heq
        exact hkey
    rw [remove_valueNode hkey hn, if_neg hne, OrderedAssoc.erase_append_cons hinc, hcmp]
    refine ⟨removed_right h hn hremoved key' value', ?_⟩
    rw [toList_fixUp, toList, herase]

end Remove

/-! ## At the root

The root is black, and may have two black children. A removal does not look at the color of
the node it is sent to, so that it does what it would do to a red one. -/

/-- The nodes differ in their own color at most. -/
inductive Recolored : FLLRBNode α β → FLLRBNode α β → Prop where
  | emptyNode : Recolored emptyNode emptyNode
  | valueNode (key : α) (value : β) (color color' : FLLRBColor) (left right : FLLRBNode α β) :
    Recolored (valueNode key value color left right) (valueNode key value color' left right)

namespace Recolored

variable {m n m' n' : FLLRBNode α β}

theorem left_eq (h : Recolored m n) : m.left = n.left := by
  cases h <;> rfl

theorem right_eq (h : Recolored m n) : m.right = n.right := by
  cases h <;> rfl

theorem toList_eq (h : Recolored m n) : m.toList = n.toList := by
  cases h <;> rfl

theorem withColor_eq (h : Recolored m n) (color : FLLRBColor) :
    m.withColor color = n.withColor color := by
  cases h <;> rfl

theorem withLeft (h : Recolored m n) (left : FLLRBNode α β) :
    Recolored (m.withLeft left) (n.withLeft left) := by
  cases h <;> constructor

theorem withRight (h : Recolored m n) (right : FLLRBNode α β) :
    Recolored (m.withRight right) (n.withRight right) := by
  cases h <;> constructor

theorem colorFlip (h : Recolored m n) : Recolored m.colorFlip n.colorFlip := by
  cases h <;> constructor

theorem rotateLeft (h : Recolored m n) : Recolored m.rotateLeft n.rotateLeft := by
  cases h with
  | emptyNode => constructor
  | valueNode key value color color' left right => cases right <;> constructor

theorem rotateRight (h : Recolored m n) : Recolored m.rotateRight n.rotateRight := by
  cases h with
  | emptyNode => constructor
  | valueNode key value color color' left right => cases left <;> constructor

/-- The conditions look at the children. -/
theorem step (h : Recolored m n) {f : FLLRBNode α β → FLLRBNode α β}
    (hf : Recolored (f m) (f n)) (cond : FLLRBNode α β → FLLRBNode α β → Bool) :
    Recolored (if cond m.left m.right then f m else m)
      (if cond n.left n.right then f n else n) := by
  rw [h.left_eq, h.right_eq]
  split
  · exact hf
  · exact h

theorem fixUp (h : Recolored m n) : Recolored m.fixUp n.fixUp := by
  have hfirst := h.step h.rotateLeft fun left right => right.isRed && !left.isRed
  have hsecond := hfirst.step hfirst.rotateRight fun left _ => left.isRed && left.left.isRed
  exact hsecond.step hsecond.colorFlip fun left right => left.isRed && right.isRed

theorem moveRedLeft (h : Recolored m n) : Recolored m.moveRedLeft n.moveRedLeft := by
  have hflip := h.colorFlip
  refine hflip.step (f := fun m => (m.withRight m.right.rotateRight).rotateLeft.colorFlip) ?_
    fun _ right => right.left.isRed
  rw [hflip.right_eq]
  exact (hflip.withRight _).rotateLeft.colorFlip

theorem moveRedRight (h : Recolored m n) : Recolored m.moveRedRight n.moveRedRight :=
  h.colorFlip.step (f := fun m => m.rotateRight.colorFlip) h.colorFlip.rotateRight.colorFlip
    fun left _ => left.left.isRed

theorem towardsLeft (h : Recolored m n) : Recolored m.towardsLeft n.towardsLeft :=
  h.step h.moveRedLeft fun left _ => !left.isEmpty && !left.isRed && !left.left.isRed

theorem towardsRight (h : Recolored m n) : Recolored m.towardsRight n.towardsRight := by
  have hfirst := h.step h.rotateRight fun left _ => left.isRed
  exact hfirst.step hfirst.moveRedRight
    fun _ right => !right.isEmpty && !right.isRed && !right.left.isRed

theorem remove {cmp : α → α → Ordering} {aKey : α} (h : Recolored m n) :
    Recolored (m.remove cmp aKey) (n.remove cmp aKey) := by
  cases h with
  | emptyNode =>
    rw [FLLRBNode.remove]
    constructor
  | valueNode key value color color' left right =>
    have h : Recolored (FLLRBNode.valueNode key value color left right)
      (FLLRBNode.valueNode key value color' left right) := .valueNode ..
    by_cases hkey : cmp aKey key = .lt
    · rw [FLLRBNode.remove, if_pos hkey, FLLRBNode.remove, if_pos hkey]
      simp only [h.towardsLeft.left_eq]
      exact (h.towardsLeft.withLeft _).fixUp
    · have hright := h.towardsRight
      cases hm : (FLLRBNode.valueNode key value color left right).towardsRight with
      | emptyNode =>
        have hcount := count_towardsRight (FLLRBNode.valueNode key value color left right)
        rw [hm, count, count] at hcount
        omega
      | valueNode key' value' color₁ left' right' =>
        cases hn : (FLLRBNode.valueNode key value color' left right).towardsRight with
        | emptyNode =>
          rw [hm, hn] at hright
          cases hright
        | valueNode key'' value'' color₂ left'' right'' =>
          rw [hm, hn] at hright
          obtain ⟨rfl, rfl, rfl, rfl⟩ : key' = key'' ∧ value' = value'' ∧ left' = left'' ∧
              right' = right'' := by
            cases hright
            exact ⟨rfl, rfl, rfl, rfl⟩
          rw [remove_valueNode hkey hm, remove_valueNode hkey hn]
          split
          · split
            · constructor
            · exact (Recolored.valueNode ..).fixUp
          · exact (Recolored.valueNode ..).fixUp

end Recolored

/-- **Removing from a whole tree**, whose root is made black again. -/
theorem remove_root {cmp : α → α → Ordering} [Std.TransCmp cmp] {aKey : α} {n : FLLRBNode α β}
    (h : n.Valid) (hblack : n.isRed = false) (hinc : OrderedAssoc.Increasing cmp n.toList) :
    ((n.remove cmp aKey).withColor .black).Valid ∧
      ((n.remove cmp aKey).withColor .black).toList = OrderedAssoc.erase cmp aKey n.toList := by
  have hready : ∃ m, Recolored n m ∧ m.Valid ∧ m.Ready := by
    rcases n with _ | ⟨key, value, color, left, right⟩
    · exact ⟨_, .emptyNode, trivial, Or.inl rfl⟩
    · cases hred : left.isRed with
      | true => exact ⟨_, .valueNode .., h, Or.inr (Or.inr hred)⟩
      | false =>
        exact ⟨_, .valueNode key value color .red left right,
          ⟨h.1, h.2.1, h.2.2.1, h.2.2.2.1, fun _ => hred⟩, Or.inr (Or.inl rfl)⟩
  obtain ⟨m, hm, hvalid, hready⟩ := hready
  rw [hm.toList_eq] at hinc ⊢
  obtain ⟨hremoved, herase⟩ : Removed m (m.remove cmp aKey) ∧
      (m.remove cmp aKey).toList = OrderedAssoc.erase cmp aKey m.toList :=
    removed_remove hinc (Or.inl ⟨hvalid, hready⟩) (Or.inl ⟨hvalid, hready⟩)
  rw [hm.remove.withColor_eq]
  exact ⟨hremoved.valid.nearlyValid.withColor_black, by rw [toList_withColor, herase]⟩

end FLLRBNode

end MoonMessenger
