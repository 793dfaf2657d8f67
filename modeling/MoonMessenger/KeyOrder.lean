import Mathlib.Data.List.Lex
import Mathlib.Data.Prod.Lex
import Mathlib.Data.Sum.Order
import Mathlib.Order.Std
import Mathlib.Data.Int.Order.Basic
import MoonMessenger.Foundation
import MoonMessenger.Lib.Radix

/-!
# The order of keys

The comparator by which the Firebase client keeps the children of a node sorted
(`compareKey:toKey:` in `FUtilities.m`): integers come first, in their order, and other
names follow in that of their characters.

* `compares_compareNames` — names are compared as their ranks are, in a linear order;
* `compareKey_order` — so the comparator is an order on keys, between the two sentinels,
  which takes no two names for one but the zeros of one length.
-/

namespace MoonMessenger

/-! ## Unichars -/

/-- The UTF-16 code units of a character. -/
def utf16 (c : Char) : List ℕ :=
  if c.toNat < 0x10000 then [c.toNat]
  else [0xD800 + (c.toNat - 0x10000) / 0x400, 0xDC00 + (c.toNat - 0x10000) % 0x400]

/-- The code units of a string, as `characterAtIndex:` counts them. -/
def unichars (s : String) : List ℕ := s.toList.flatMap utf16

theorem utf16_append_inj {c d : Char} {xs ys : List ℕ} (h : utf16 c ++ xs = utf16 d ++ ys) :
    c = d ∧ xs = ys := by
  have hc := c.valid
  have hd := d.valid
  -- no character is a surrogate
  have hnat {e : Char} (he : e.val.isValidChar) :
      e.toNat < 0xD800 ∨ 0xDFFF < e.toNat ∧ e.toNat < 0x110000 := he
  have hcn := hnat hc
  have hdn := hnat hd
  simp only [utf16] at h
  split at h <;> split at h <;>
    simp only [List.cons_append, List.nil_append, List.cons.injEq] at h
  · exact ⟨Char.toNat_inj.mp h.1, h.2⟩
  · omega
  · omega
  · exact ⟨Char.toNat_inj.mp (by omega), h.2.2⟩

theorem utf16_ne_nil (c : Char) : utf16 c ≠ [] := by
  rw [utf16]
  split <;> simp

theorem unichars_injective : Function.Injective unichars := by
  suffices h : ∀ xs ys : List Char, xs.flatMap utf16 = ys.flatMap utf16 → xs = ys from
    fun a b hab => String.toList_injective (h _ _ hab)
  intro xs
  induction xs with
  | nil =>
    intro ys h
    cases ys with
    | nil => rfl
    | cons y ys => simp [utf16_ne_nil] at h
  | cons x xs ih =>
    intro ys h
    cases ys with
    | nil => simp [utf16_ne_nil] at h
    | cons y ys =>
      rw [List.flatMap_cons, List.flatMap_cons] at h
      obtain ⟨rfl, htail⟩ := utf16_append_inj h
      rw [ih ys htail]

/-! ## Integers -/

namespace FUtilities

/-- The loop of `tryParseStringToInt`, with the value read so far. -/
def parseDigits : ℕ → List ℕ → Option ℕ
  | value, [] => some value
  | value, c :: cs =>
    if c < '0'.toNat ∨ '9'.toNat < c then none else parseDigits (value * 10 + (c - '0'.toNat)) cs

/-- The number that code units are read as, before it is seen whether it has 32 bits. -/
def parseInt : List ℕ → Option ℤ
  | [] => none
  | c :: cs =>
    if c = '-'.toNat then
      if cs = [] then none else (parseDigits 0 cs).map fun value : ℕ => -(value : ℤ)
    else (parseDigits 0 (c :: cs)).map fun value : ℕ => (value : ℤ)

/-- `tryParseStringToInt` -/
def tryParseStringToInt (str : String) : Option ℤ :=
  if 11 < (unichars str).length then none
  else (parseInt (unichars str)).filter fun value => -2147483648 ≤ value ∧ value ≤ 2147483647

/-- The keys told apart before any characters are looked at. -/
inductive Key where
  | minName
  | maxName
  | name (key : String)
  deriving DecidableEq

/-- `compare:options:` with `NSLiteralSearch`. -/
def literalCompare (a b : String) : Ordering :=
  if unichars a < unichars b then .lt
  else if unichars b < unichars a then .gt
  else .eq

/-- `compareKey:toKey:`, of two names. -/
def compareNames (a b : String) : Ordering :=
  match tryParseStringToInt a with
  | some aAsInt =>
    match tryParseStringToInt b with
    | some bAsInt =>
      if aAsInt > bAsInt then .gt
      else if aAsInt < bAsInt then .lt
      else if (unichars a).length > (unichars b).length then .gt
      else if (unichars a).length < (unichars b).length then .lt
      else .eq
    | none => .lt
  | none =>
    match tryParseStringToInt b with
    | some _ => .gt
    | none => literalCompare a b

/-- `compareKey:toKey:` -/
def compareKey (a b : Key) : Ordering :=
  if a = b then .eq
  else if a = .minName ∨ b = .maxName then .lt
  else if b = .minName ∨ a = .maxName then .gt
  else
    match a, b with
    | .name a, .name b => compareNames a b
    | _, _ => .eq

/-! ## Ranks -/

/-- What decides where a name stands: an integer and how many characters it is written
with, or else the characters. -/
abbrev Rank : Type := Lex (Lex (ℤ × ℕ) ⊕ List ℕ)

/-- The rank of a name. -/
def rank (name : String) : Rank :=
  match tryParseStringToInt name with
  | some n => toLex (.inl (toLex (n, (unichars name).length)))
  | none => toLex (.inr (unichars name))

/-- The rank of a key. -/
def Key.rank : Key → WithBot (WithTop Rank)
  | minName => ⊥
  | maxName => ((⊤ : WithTop Rank) : WithBot (WithTop Rank))
  | name key => ((FUtilities.rank key : WithTop Rank) : WithBot (WithTop Rank))

theorem compares_literalCompare (a b : String) :
    (literalCompare a b).Compares (unichars a) (unichars b) := by
  rw [literalCompare]
  split
  · assumption
  split
  · assumption
  · exact le_antisymm (not_lt.mp ‹_›) (not_lt.mp ‹_›)

/-- **Names are compared** as their ranks are. -/
theorem compares_compareNames (a b : String) : (compareNames a b).Compares (rank a) (rank b) := by
  rw [compareNames, rank, rank]
  cases tryParseStringToInt a with
  | none =>
    cases tryParseStringToInt b with
    | none =>
      -- two names that are no integers
      exact Sum.Lex.inr_strictMono.compares.mpr (compares_literalCompare a b)
    | some n => exact Sum.Lex.inl_lt_inr ..
  | some m =>
    cases tryParseStringToInt b with
    | none => exact Sum.Lex.inl_lt_inr ..
    | some n =>
      simp only
      split
      · rename_i h
        exact Sum.Lex.inl_lt_inl_iff.mpr (Prod.Lex.toLex_lt_toLex.mpr (Or.inl h))
      split
      · rename_i h
        exact Sum.Lex.inl_lt_inl_iff.mpr (Prod.Lex.toLex_lt_toLex.mpr (Or.inl h))
      -- one integer: the shorter text comes first
      obtain rfl : m = n := by omega
      split
      · rename_i h
        exact Sum.Lex.inl_lt_inl_iff.mpr (Prod.Lex.toLex_lt_toLex.mpr (Or.inr ⟨rfl, h⟩))
      split
      · rename_i h
        exact Sum.Lex.inl_lt_inl_iff.mpr (Prod.Lex.toLex_lt_toLex.mpr (Or.inr ⟨rfl, h⟩))
      · have hlen : (unichars a).length = (unichars b).length := by omega
        change toLex _ = toLex _
        rw [hlen]

theorem compares_compareKey (a b : Key) : (compareKey a b).Compares a.rank b.rank := by
  unfold compareKey
  split
  · rename_i h
    exact congrArg Key.rank h
  rename_i hne
  cases a with
  | minName =>
    cases b with
    | minName => exact absurd rfl hne
    | maxName => exact WithBot.bot_lt_coe _
    | name b => exact WithBot.bot_lt_coe _
  | maxName =>
    cases b with
    | minName => exact WithBot.bot_lt_coe _
    | maxName => exact absurd rfl hne
    | name b => exact WithBot.coe_lt_coe.mpr (WithTop.coe_lt_top _)
  | name a =>
    cases b with
    | minName => exact WithBot.bot_lt_coe _
    | maxName => exact WithBot.coe_lt_coe.mpr (WithTop.coe_lt_top _)
    | name b =>
      simp only [reduceCtorEq, or_self, if_false]
      refine WithBot.coe_strictMono.compares.mpr (WithTop.coe_strictMono.compares.mpr ?_)
      exact compares_compareNames a b

/-! ## Names of one rank -/

/-- The code units of a digit sequence. -/
def digitUnits (ds : List (Fin 10)) : List ℕ := ds.map fun d => '0'.toNat + d.val

/-- Just the digits are read, and to the number they stand for. -/
theorem of_parseDigits_eq_some {cs : List ℕ} {value n : ℕ} (h : parseDigits value cs = some n) :
    ∃ ds : List (Fin 10), cs = digitUnits ds ∧ n = value * 10 ^ ds.length + Radix.value ds := by
  induction cs generalizing value with
  | nil =>
    obtain rfl := Option.some.inj h
    exact ⟨[], rfl, by simp⟩
  | cons c cs ih =>
    rw [parseDigits] at h
    split at h
    · cases h
    · rename_i hc
      obtain ⟨ds, rfl, rfl⟩ := ih h
      have hdigit : '0'.toNat ≤ c ∧ c ≤ '9'.toNat := by omega
      have hc9 : c - '0'.toNat < 10 := by
        have h9 : '9'.toNat = '0'.toNat + 9 := rfl
        omega
      refine ⟨⟨c - '0'.toNat, hc9⟩ :: ds, ?_, ?_⟩
      · rw [digitUnits, digitUnits, List.map_cons, Nat.add_sub_cancel' hdigit.1]
      · rw [Radix.value_cons, List.length_cons, pow_succ']
        ring

/-- Digits of one number are told apart by their length. -/
theorem eq_of_parseDigits {cs cs' : List ℕ} {n : ℕ} (hlen : cs.length = cs'.length)
    (h : parseDigits 0 cs = some n) (h' : parseDigits 0 cs' = some n) : cs = cs' := by
  obtain ⟨ds, rfl, hn⟩ := of_parseDigits_eq_some h
  obtain ⟨ds', rfl, hn'⟩ := of_parseDigits_eq_some h'
  rw [digitUnits, digitUnits, List.length_map, List.length_map] at hlen
  rw [zero_mul, zero_add] at hn hn'
  exact congrArg digitUnits ((Radix.value_inj hlen).mp (hn.symm.trans hn'))

/-- So are integers, but for the sign of a zero. -/
theorem eq_of_parseInt {cs cs' : List ℕ} {n : ℤ} (hlen : cs.length = cs'.length)
    (h : parseInt cs = some n) (h' : parseInt cs' = some n) : cs = cs' ∨ n = 0 := by
  cases cs with
  | nil => cases h
  | cons c cs =>
    cases cs' with
    | nil => cases h'
    | cons c' cs' =>
      rw [parseInt] at h h'
      split at h <;> split at h'
      · -- two with a sign
        rename_i hc hc'
        split at h
        · cases h
        split at h'
        · cases h'
        obtain ⟨v, hv, rfl⟩ := Option.map_eq_some_iff.mp h
        obtain ⟨v', hv', hvv'⟩ := Option.map_eq_some_iff.mp h'
        obtain rfl : v' = v := by omega
        left
        rw [hc, hc', eq_of_parseDigits (Nat.succ.inj hlen) hv hv']
      · right
        split at h
        · cases h
        obtain ⟨v, -, rfl⟩ := Option.map_eq_some_iff.mp h
        obtain ⟨v', -, hvv'⟩ := Option.map_eq_some_iff.mp h'
        omega
      · right
        split at h'
        · cases h'
        obtain ⟨v, -, rfl⟩ := Option.map_eq_some_iff.mp h
        obtain ⟨v', -, hvv'⟩ := Option.map_eq_some_iff.mp h'
        omega
      · obtain ⟨v, hv, rfl⟩ := Option.map_eq_some_iff.mp h
        obtain ⟨v', hv', hvv'⟩ := Option.map_eq_some_iff.mp h'
        obtain rfl : v' = v := by omega
        exact Or.inl (eq_of_parseDigits hlen hv hv')

/-- Two zeros, written with as many characters: one may have a sign. -/
def SameZero (a b : String) : Prop :=
  tryParseStringToInt a = some 0 ∧ tryParseStringToInt b = some 0 ∧
    (unichars a).length = (unichars b).length

instance (a b : String) : Decidable (SameZero a b) :=
  inferInstanceAs (Decidable (_ = _ ∧ _ = _ ∧ _ = _))

theorem rank_eq_iff {a b : String} : rank a = rank b ↔ a = b ∨ SameZero a b := by
  constructor
  · intro h
    cases ha : tryParseStringToInt a with
    | none =>
      cases hb : tryParseStringToInt b with
      | none =>
        simp only [rank, ha, hb] at h
        exact Or.inl (unichars_injective (Sum.inr_injective (toLex.injective h)))
      | some n => simp [rank, ha, hb] at h
    | some m =>
      cases hb : tryParseStringToInt b with
      | none => simp [rank, ha, hb] at h
      | some n =>
        simp only [rank, ha, hb] at h
        have hpair := toLex.injective (Sum.inl_injective (toLex.injective h))
        obtain ⟨rfl, hlen⟩ := Prod.mk.inj hpair
        have parsed {s : String} (hs : tryParseStringToInt s = some m) :
            parseInt (unichars s) = some m := by
          rw [tryParseStringToInt] at hs
          split at hs
          · cases hs
          · exact (Option.filter_eq_some_iff.mp hs).1
        rcases eq_of_parseInt hlen (parsed ha) (parsed hb) with heq | rfl
        · exact Or.inl (unichars_injective heq)
        · exact Or.inr ⟨ha, hb, hlen⟩
  · rintro (rfl | ⟨ha, hb, hlen⟩)
    · rfl
    · simp only [rank, ha, hb, hlen]

theorem Key.rank_eq_iff {a b : Key} : a.rank = b.rank ↔
    a = b ∨ ∃ x y, a = .name x ∧ b = .name y ∧ SameZero x y := by
  cases a with
  | minName => cases b <;> simp [Key.rank]
  | maxName => cases b <;> simp [Key.rank]
  | name x =>
    cases b with
    | minName => simp [Key.rank]
    | maxName => simp [Key.rank]
    | name y => simpa [Key.rank] using FUtilities.rank_eq_iff

/-- `keyComparator`, of names -/
def keyComparator (a b : String) : Ordering := compareKey (.name a) (.name b)

theorem keyComparator_eq_iff {a b : String} : keyComparator a b = .eq ↔ a = b ∨ SameZero a b := by
  rw [keyComparator, (compares_compareKey _ _).eq_eq, Key.rank_eq_iff]
  simp

theorem isLE_compareKey_iff {a b : Key} : (compareKey a b).isLE ↔ a.rank ≤ b.rank := by
  have h := compares_compareKey a b
  cases hab : compareKey a b with
  | lt =>
    rw [hab] at h
    exact iff_of_true rfl (le_of_lt h)
  | eq =>
    rw [hab] at h
    exact iff_of_true rfl (le_of_eq h)
  | gt =>
    rw [hab] at h
    exact iff_of_false Bool.false_ne_true (not_le_of_gt h)

/-- It can keep names sorted. -/
instance : Std.TransCmp keyComparator where
  eq_swap :=
    (compares_compareKey _ _).inj (Ordering.compares_swap.mpr (compares_compareKey _ _))
  isLE_trans hab hbc :=
    isLE_compareKey_iff.mpr ((isLE_compareKey_iff.mp hab).trans (isLE_compareKey_iff.mp hbc))

/-- **The order of keys.** The comparator orders all keys, between the two sentinels; what
it takes for the same stands in the same place towards every other key, and is the same
name, unless both are zeros of one length. -/
theorem compareKey_order (a b c : Key) :
    compareKey b a = (compareKey a b).swap ∧
      (compareKey a b = .lt ∧ compareKey b c = .lt → compareKey a c = .lt) ∧
      (compareKey a b = .eq → compareKey a c = compareKey b c) ∧
      (compareKey a b = .eq ↔ a = b ∨ ∃ x y, a = .name x ∧ b = .name y ∧ SameZero x y) ∧
      (a ≠ .minName → compareKey .minName a = .lt) ∧
      (a ≠ .maxName → compareKey a .maxName = .lt) := by
  have hab := compares_compareKey a b
  have hbc := compares_compareKey b c
  have hac := compares_compareKey a c
  refine ⟨?_, ?_, ?_, ?_, ?_, ?_⟩
  · exact (compares_compareKey b a).inj (Ordering.compares_swap.mpr hab)
  · rintro ⟨h, h'⟩
    exact hac.eq_lt.mpr ((hab.eq_lt.mp h).trans (hbc.eq_lt.mp h'))
  · intro h
    rw [hab.eq_eq.mp h] at hac
    exact hac.inj hbc
  · rw [hab.eq_eq, Key.rank_eq_iff]
  · intro h
    simp [compareKey, Ne.symm h]
  · intro h
    simp [compareKey, h]

end FUtilities

end MoonMessenger
