import Mathlib.Data.List.Lex
import Mathlib.Order.Fin.Basic
import Mathlib.Tactic.Ring
import Mathlib.Algebra.Order.Ring.Nat

/-!
# Numbers by their digits

Lists of digits in base `b`, the most significant one first.

* `value_lt_iff` — lists of one length stand in the order of the numbers they are the
  digits of, compared digit by digit; so the digits determine the number and are
  determined by it (`value_inj`).
* `value_digits` — taking digits off the end of a number gives its last digits.
* `value_of_increment`, `increment_eq_none_iff` — adding one with carry, which fails
  exactly at the greatest number of a length.
-/

namespace Radix

variable {b : ℕ}

/-- The number with these digits. -/
def value : List (Fin b) → ℕ
  | [] => 0
  | d :: ds => d.val * b ^ ds.length + value ds

@[simp] theorem value_nil : value ([] : List (Fin b)) = 0 := rfl

theorem value_cons (d : Fin b) (ds : List (Fin b)) :
    value (d :: ds) = d.val * b ^ ds.length + value ds := rfl

theorem value_append (xs ys : List (Fin b)) :
    value (xs ++ ys) = value xs * b ^ ys.length + value ys := by
  induction xs with
  | nil => simp
  | cons x xs ih =>
    rw [List.cons_append, value_cons, value_cons, ih, List.length_append, pow_add]
    ring

theorem value_concat (ds : List (Fin b)) (d : Fin b) :
    value (ds ++ [d]) = value ds * b + d.val := by
  rw [value_append, value_cons]
  simp

theorem value_lt (ds : List (Fin b)) : value ds < b ^ ds.length := by
  induction ds with
  | nil => simp
  | cons d ds ih =>
    rw [value_cons, List.length_cons, pow_succ]
    calc d.val * b ^ ds.length + value ds < (d.val + 1) * b ^ ds.length := by
          rw [add_mul, one_mul]
          omega
      _ ≤ b * b ^ ds.length := Nat.mul_le_mul_right _ d.isLt
      _ = b ^ ds.length * b := mul_comm ..

/-- A greater digit outweighs all that follow. -/
theorem value_cons_lt_of_lt {x y : Fin b} {xs ys : List (Fin b)} (hlen : xs.length = ys.length)
    (h : x < y) : value (x :: xs) < value (y :: ys) := by
  rw [value_cons, value_cons, hlen]
  have hx := value_lt xs
  rw [hlen] at hx
  calc x.val * b ^ ys.length + value xs < (x.val + 1) * b ^ ys.length := by
        rw [add_mul, one_mul]
        omega
    _ ≤ y.val * b ^ ys.length := Nat.mul_le_mul_right _ h
    _ ≤ y.val * b ^ ys.length + value ys := Nat.le_add_right _ _

/-- **The order of digits** is that of numbers. -/
theorem value_lt_iff {xs ys : List (Fin b)} (hlen : xs.length = ys.length) :
    value xs < value ys ↔ xs < ys := by
  induction xs generalizing ys with
  | nil =>
    obtain rfl := List.length_eq_zero_iff.mp hlen.symm
    simp
  | cons x xs ih =>
    cases ys with
    | nil => cases hlen
    | cons y ys =>
      have hlen' : xs.length = ys.length := Nat.succ.inj hlen
      rw [List.cons_lt_cons_iff]
      rcases lt_trichotomy x y with h | rfl | h
      · exact iff_of_true (value_cons_lt_of_lt hlen' h) (Or.inl h)
      · rw [value_cons, value_cons, hlen', Nat.add_lt_add_iff_left, ih hlen']
        simp
      · refine iff_of_false (value_cons_lt_of_lt hlen'.symm h).not_gt ?_
        rintro (h' | ⟨rfl, -⟩)
        · exact lt_asymm h h'
        · exact lt_irrefl _ h

theorem value_inj {xs ys : List (Fin b)} (hlen : xs.length = ys.length) :
    value xs = value ys ↔ xs = ys := by
  constructor
  · intro h
    have hxy := (value_lt_iff hlen).not.mp h.not_lt
    have hyx := (value_lt_iff hlen.symm).not.mp h.not_gt
    exact le_antisymm (not_lt.mp hyx) (not_lt.mp hxy)
  · rintro rfl
    rfl

section NeZero

variable [NeZero b]

/-- The last `k` digits of `n`, taken off its end one by one. -/
def digits : ℕ → ℕ → List (Fin b)
  | 0, _ => []
  | k + 1, n => digits k (n / b) ++ [Fin.ofNat b n]

@[simp] theorem length_digits (k n : ℕ) : (digits k n : List (Fin b)).length = k := by
  induction k generalizing n with
  | zero => rfl
  | succ k ih => rw [digits, List.length_append, ih, List.length_singleton]

theorem value_digits (k n : ℕ) : value (digits k n : List (Fin b)) = n % b ^ k := by
  induction k generalizing n with
  | zero => simp [digits, Nat.mod_one]
  | succ k ih =>
    rw [digits, value_concat, ih, Fin.val_ofNat, pow_succ', Nat.mod_mul, add_comm,
      mul_comm (n / b % b ^ k)]

/-- A number with fewer digits is written with a zero. -/
theorem zero_mem_digits {k n : ℕ} (h : n < b ^ k) :
    Fin.ofNat b 0 ∈ (digits (k + 1) n : List (Fin b)) := by
  have hvalue : value (digits (k + 1) n : List (Fin b)) < b ^ k := by
    rw [value_digits]
    exact (Nat.mod_le _ _).trans_lt h
  have hlen : (digits (k + 1) n : List (Fin b)).length = k + 1 := length_digits ..
  cases hds : (digits (k + 1) n : List (Fin b)) with
  | nil => simp [hds] at hlen
  | cons d ds =>
    rw [hds, List.length_cons, Nat.add_right_cancel_iff] at hlen
    rw [hds, value_cons, hlen] at hvalue
    have hd : d.val = 0 := by
      by_contra hd
      have hpos : b ^ k ≤ d.val * b ^ k := Nat.le_mul_of_pos_left _ (Nat.pos_of_ne_zero hd)
      omega
    have hd0 : d = Fin.ofNat b 0 := Fin.ext (by rw [hd, Fin.val_ofNat, Nat.zero_mod])
    rw [hd0]
    exact List.mem_cons_self ..

/-- Add one to the number whose digits are listed from the last to the first. -/
def carry : List (Fin b) → Option (List (Fin b))
  | [] => none
  | d :: ds => if d.val + 1 = b then (carry ds).map (Fin.ofNat b 0 :: ·) else some ((d + 1) :: ds)

/-- Add one. -/
def increment (ds : List (Fin b)) : Option (List (Fin b)) := (carry ds.reverse).map List.reverse

theorem of_carry_eq_some {ds ds' : List (Fin b)} (h : carry ds = some ds') :
    ds'.length = ds.length ∧ value ds'.reverse = value ds.reverse + 1 := by
  induction ds generalizing ds' with
  | nil => cases h
  | cons d ds ih =>
    rw [carry] at h
    rw [List.reverse_cons, value_concat]
    split at h
    · rename_i hd
      obtain ⟨ds', hds', rfl⟩ := Option.map_eq_some_iff.mp h
      obtain ⟨hlen, hvalue⟩ := ih hds'
      refine ⟨by rw [List.length_cons, List.length_cons, hlen], ?_⟩
      rw [List.reverse_cons, value_concat, hvalue, Fin.val_ofNat, Nat.zero_mod, add_mul, one_mul]
      omega
    · rename_i hd
      obtain rfl := Option.some.inj h
      refine ⟨rfl, ?_⟩
      rw [List.reverse_cons, value_concat, Fin.val_add_one_of_lt']
      · omega
      · have := d.isLt
        omega

/-- **Adding one** keeps the length. -/
theorem of_increment_eq_some {ds ds' : List (Fin b)} (h : increment ds = some ds') :
    ds'.length = ds.length ∧ value ds' = value ds + 1 := by
  obtain ⟨es, hes, rfl⟩ := Option.map_eq_some_iff.mp h
  obtain ⟨hlen, hvalue⟩ := of_carry_eq_some hes
  rw [List.reverse_reverse] at hvalue
  rw [List.length_reverse] at hlen ⊢
  exact ⟨hlen, hvalue⟩

theorem carry_eq_none {ds : List (Fin b)} (h : carry ds = none) :
    value ds.reverse + 1 = b ^ ds.length := by
  induction ds with
  | nil => rfl
  | cons d ds ih =>
    rw [carry] at h
    split at h
    · rename_i hd
      have hvalue := ih (Option.map_eq_none_iff.mp h)
      rw [List.reverse_cons, value_concat, List.length_cons, pow_succ, ← hvalue, add_mul, one_mul]
      omega
    · cases h

/-- It fails when all digits are the greatest. -/
theorem increment_eq_none_iff {ds : List (Fin b)} :
    increment ds = none ↔ value ds + 1 = b ^ ds.length := by
  constructor
  · intro h
    have hvalue := carry_eq_none (Option.map_eq_none_iff.mp h)
    rwa [List.reverse_reverse, List.length_reverse] at hvalue
  · intro h
    cases hinc : increment ds with
    | none => rfl
    | some ds' =>
      obtain ⟨hlen, hvalue⟩ := of_increment_eq_some hinc
      have hlt := value_lt ds'
      rw [hlen, hvalue, h] at hlt
      exact absurd hlt (lt_irrefl _)

end NeZero

end Radix
