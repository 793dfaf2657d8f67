import Mathlib
import MoonMessenger.Lib.StableSort
import MoonMessenger.Lib.Truncation

/-!
# The parts of Foundation and the Swift library the app rests on

* `UUID` — thirty-two hexadecimal digits, with `UUID(uuidString:)` and
  `uuidString`; `UUID.ofString?_uuidString` is the round trip. The random
  `UUID()` is not a function of anything, so definitions that call it take the
  value it returned as an argument.
* `Date` — an instant, by its exact number of seconds since 1970 (every finite
  `Double` is a rational number), with the whole hours between two instants. Arithmetic
  on dates is exact; that a `Double` rounds its result is left out.
* `trimmingWhitespace`, `uniqued`, `sorted` — the string and sequence operations used
  on conversation keys and messages. The library compares strings by the scalars of
  their canonical normal form; a string stands for that form here, so that `=` and `<`
  are the library's.
-/

namespace MoonMessenger

/-! ## UUIDs -/

/-- A UUID, by its hexadecimal digits in the order they are printed. -/
@[ext] structure UUID where
  /-- the digits, most significant first -/
  digits : List (Fin 16)
  /-- 128 bits are 32 digits -/
  length_digits : digits.length = 32
  deriving DecidableEq

namespace UUID

/-- The digit characters `uuidString` prints, in upper case. -/
def hexDigit (d : Fin 16) : Char :=
  if d.val < 10 then Char.ofNat (48 + d.val) else Char.ofNat (55 + d.val)

/-- The value of a digit character, of either case. -/
def hexValue (c : Char) : Option (Fin 16) :=
  if 48 ≤ c.toNat ∧ c.toNat ≤ 57 then some (Fin.ofNat 16 (c.toNat - 48))
  else if 65 ≤ c.toNat ∧ c.toNat ≤ 70 then some (Fin.ofNat 16 (c.toNat - 55))
  else if 97 ≤ c.toNat ∧ c.toNat ≤ 102 then some (Fin.ofNat 16 (c.toNat - 87))
  else none

/-- How many characters stand before each hyphen of the form 8-4-4-4-12. -/
def groups : List ℕ := [8, 4, 4, 4]

/-- Put a hyphen after each of the groups. -/
def hyphenate : List ℕ → List Char → List Char
  | [], cs => cs
  | n :: ns, cs => cs.take n ++ '-' :: hyphenate ns (cs.drop n)

/-- Take the hyphens out again; `none` where one is missing. -/
def unhyphenate : List ℕ → List Char → Option (List Char)
  | [], cs => some cs
  | n :: ns, cs =>
    match cs.drop n with
    | '-' :: rest => (unhyphenate ns rest).map fun tail => cs.take n ++ tail
    | _ => none

/-- `uuidString`: the canonical form, in upper case. -/
def uuidString (u : UUID) : String :=
  String.ofList (hyphenate groups (u.digits.map hexDigit))

/-- `UUID(uuidString:)`: parse the canonical form, in either case. -/
def ofString? (s : String) : Option UUID := do
  let cs ← unhyphenate groups s.toList
  let ds ← cs.mapM hexValue
  if h : ds.length = 32 then some ⟨ds, h⟩ else none

/-- The UUID all of whose digits are `d`. -/
def replicate (d : ℕ) : UUID := ⟨List.replicate 32 (Fin.ofNat 16 d), List.length_replicate⟩

theorem hexValue_hexDigit (d : Fin 16) : hexValue (hexDigit d) = some d := by
  revert d
  decide

theorem mapM_hexValue (ds : List (Fin 16)) : (ds.map hexDigit).mapM hexValue = some ds := by
  induction ds with
  | nil => rfl
  | cons d ds ih => simp [hexValue_hexDigit, ih]

theorem unhyphenate_hyphenate (ns : List ℕ) (cs : List Char) (h : ns.sum ≤ cs.length) :
    unhyphenate ns (hyphenate ns cs) = some cs := by
  induction ns generalizing cs with
  | nil => rfl
  | cons n ns ih =>
    rw [List.sum_cons] at h
    have hlen : (cs.take n).length = n := List.length_take_of_le (by omega)
    have hdrop : (cs.take n ++ '-' :: hyphenate ns (cs.drop n)).drop n =
        '-' :: hyphenate ns (cs.drop n) := by
      rw [List.drop_append_of_le_length (by omega), List.drop_eq_nil_of_le (by omega),
        List.nil_append]
    have htake : (cs.take n ++ '-' :: hyphenate ns (cs.drop n)).take n = cs.take n := by
      rw [List.take_append_of_le_length (by omega), List.take_of_length_le (by omega)]
    have hih := ih (cs.drop n) (by rw [List.length_drop]; omega)
    simp only [hyphenate, unhyphenate, hdrop, htake, hih, Option.map_some, List.take_append_drop]

/-- Parsing a printed UUID gives it back. -/
@[simp] theorem ofString?_uuidString (u : UUID) : ofString? u.uuidString = some u := by
  have hlen : groups.sum ≤ (u.digits.map hexDigit).length := by
    rw [List.length_map, u.length_digits]
    decide
  simp only [ofString?, uuidString, String.toList_ofList, unhyphenate_hyphenate _ _ hlen,
    Option.bind_eq_bind, Option.bind_some, mapM_hexValue, dif_pos u.length_digits]

/-- Distinct UUIDs print differently. -/
theorem uuidString_injective : Function.Injective uuidString := by
  intro u v huv
  have h := congrArg ofString? huv
  rw [ofString?_uuidString, ofString?_uuidString] at h
  exact Option.some.inj h

end UUID

/-! ## Dates -/

/-- `TimeInterval`, in seconds. -/
abbrev TimeInterval : Type := ℚ

/-- `Date`: an instant. -/
@[ext] structure Date where
  /-- seconds since the first instant of 1970, UTC -/
  timeIntervalSince1970 : TimeInterval
  deriving DecidableEq

namespace Date

instance : LT Date := ⟨fun a b => a.timeIntervalSince1970 < b.timeIntervalSince1970⟩

instance : LE Date := ⟨fun a b => a.timeIntervalSince1970 ≤ b.timeIntervalSince1970⟩

instance : DecidableLT Date := fun a b =>
  inferInstanceAs (Decidable (a.timeIntervalSince1970 < b.timeIntervalSince1970))

instance : DecidableLE Date := fun a b =>
  inferInstanceAs (Decidable (a.timeIntervalSince1970 ≤ b.timeIntervalSince1970))

instance : LinearOrder Date where
  le_refl a := le_refl a.timeIntervalSince1970
  le_trans a b c := le_trans (α := ℚ)
  lt_iff_le_not_ge a b := lt_iff_le_not_ge (α := ℚ)
  le_antisymm a b hab hba := Date.ext (le_antisymm hab hba)
  le_total a b := le_total a.timeIntervalSince1970 b.timeIntervalSince1970
  toDecidableLE := inferInstance
  toDecidableEq := inferInstance
  toDecidableLT := inferInstance

/-- `Calendar.current.dateComponents([.hour], from: a, to: b).hour`: the whole
hours from `a` to `b`, truncated toward zero. The component is an optional in
the library, but one that was asked for is always there. -/
def hourComponent (a b : Date) : Option ℤ :=
  let hours : ℚ := (b.timeIntervalSince1970 - a.timeIntervalSince1970) / 3600
  some (hours.num.tdiv hours.den)

/-- Seconds from a date to another. -/
def elapsed (a b : Date) : TimeInterval := b.timeIntervalSince1970 - a.timeIntervalSince1970

/-- A component of `dateComponents(_:from:to:)`: whole units from one date to another. -/
def component (unit : TimeInterval) (a b : Date) : ℤ := Truncation.trunc (a.elapsed b / unit)

/-- The whole hours between two dates, whichever comes first. -/
def hoursApart (a b : Date) : ℤ := |component 3600 a b|

section Components

variable {a b : Date} {unit : TimeInterval} {n : ℤ}

/-- The hour component is one of them. -/
theorem hourComponent_eq (a b : Date) : hourComponent a b = some (component 3600 a b) :=
  congrArg some (Truncation.tdiv_eq_trunc _)

theorem component_lt_iff (hunit : 0 < unit) (hn : 0 < n) :
    component unit a b < n ↔ a.elapsed b < n * unit := by
  rw [component, Truncation.trunc_lt_iff hn, div_lt_iff₀ hunit]

theorem component_le_iff (hunit : 0 < unit) (hn : 0 ≤ n) :
    component unit a b ≤ n ↔ a.elapsed b < (n + 1) * unit := by
  rw [← Int.lt_add_one_iff, component_lt_iff hunit (Int.lt_add_one_of_le hn), Int.cast_add,
    Int.cast_one]

theorem component_eq_zero_iff (hunit : 0 < unit) :
    component unit a b = 0 ↔ -unit < a.elapsed b ∧ a.elapsed b < unit := by
  rw [component, Truncation.trunc_eq_zero_iff, lt_div_iff₀ hunit, div_lt_iff₀ hunit, neg_one_mul,
    one_mul]

/-- Fewer than `n` whole hours apart are fewer than `n` times 3600 seconds. -/
theorem hoursApart_lt_iff (hn : 0 < n) : a.hoursApart b < n ↔ |a.elapsed b| < n * 3600 := by
  have hhour : |(3600 : ℚ)| = 3600 := abs_of_pos (by norm_num)
  rw [hoursApart, component, Truncation.abs_trunc, Truncation.trunc_lt_iff hn, abs_div, hhour,
    div_lt_iff₀ (by norm_num)]

end Components

end Date

/-! ## Strings and sequences -/

/-- Lists with the same values end in the same value. -/
theorem exists_last_of_map {α β : Type} {f : α → β} {xs ys : List α} {x : α}
    (h : xs.map f = ys.map f) (hlast : xs.getLast? = some x) :
    ∃ init y, ys = init ++ [y] ∧ f y = f x := by
  obtain ⟨xs, rfl⟩ := List.getLast?_eq_some_iff.mp hlast
  rw [List.map_append, List.map_singleton, eq_comm] at h
  obtain ⟨init, tail, rfl, -, htail⟩ := List.map_eq_append_iff.mp h
  obtain ⟨y, rfl, hy⟩ := List.map_eq_singleton_iff.mp htail
  exact ⟨init, y, rfl, hy⟩

/-- A map after which the index does not show. -/
theorem map_mapIdx_eq_map {α β γ : Type} {f : ℕ → α → β} {g : β → γ} {h : α → γ} {xs : List α}
    (hfg : ∀ i, ∀ x ∈ xs, g (f i x) = h x) : (xs.mapIdx f).map g = xs.map h := by
  refine List.ext_getElem? fun i => ?_
  rw [List.getElem?_map, List.getElem?_mapIdx, List.getElem?_map]
  cases hx : xs[i]? with
  | none => rfl
  | some x => exact congrArg some (hfg i x (List.mem_of_getElem? hx))

/-- Membership in `CharacterSet.whitespacesAndNewlines`. -/
def isWhitespaceOrNewline (c : Char) : Bool :=
  let n := c.toNat
  (0x09 ≤ n && n ≤ 0x0D) || n == 0x20 || n == 0x85 || n == 0xA0 || n == 0x1680 ||
    (0x2000 ≤ n && n ≤ 0x200A) || n == 0x2028 || n == 0x2029 || n == 0x202F || n == 0x205F ||
    n == 0x3000

/-- `trimmingCharacters(in: .whitespacesAndNewlines)`. -/
def trimmingWhitespace (s : String) : String :=
  String.ofList ((s.toList.dropWhile isWhitespaceOrNewline).rdropWhile isWhitespaceOrNewline)

/-- The loop of `uniqued`, with the set of the elements met so far. -/
def uniquedFrom {α : Type} [DecidableEq α] : List α → List α → List α
  | _, [] => []
  | set, x :: xs => if x ∈ set then uniquedFrom set xs else x :: uniquedFrom (x :: set) xs

/-- `Sequence.uniqued`: keep the first of each group of equal elements. -/
def uniqued {α : Type} [DecidableEq α] (xs : List α) : List α := uniquedFrom [] xs

section Uniqued

variable {α : Type} [DecidableEq α]

theorem mem_uniquedFrom {set xs : List α} {x : α} :
    x ∈ uniquedFrom set xs ↔ x ∈ xs ∧ x ∉ set := by
  induction xs generalizing set with
  | nil => simp [uniquedFrom]
  | cons y ys ih =>
    rw [uniquedFrom]
    by_cases hy : y ∈ set
    · rw [if_pos hy, ih, List.mem_cons]
      refine ⟨fun ⟨h, hx⟩ => ⟨Or.inr h, hx⟩, ?_⟩
      · rintro ⟨rfl | h, hx⟩
        · exact absurd hy hx
        · exact ⟨h, hx⟩
    · rw [if_neg hy, List.mem_cons, ih, List.mem_cons, List.mem_cons, not_or]
      refine ⟨?_, ?_⟩
      · rintro (rfl | ⟨h, -, hx⟩)
        · exact ⟨Or.inl rfl, hy⟩
        · exact ⟨Or.inr h, hx⟩
      · rintro ⟨rfl | h, hx⟩
        · exact Or.inl rfl
        · exact (Classical.em (x = y)).imp id fun hne => ⟨h, hne, hx⟩

/-- Nothing is lost: `uniqued` keeps the elements, each of them once. -/
@[simp] theorem mem_uniqued {xs : List α} {x : α} : x ∈ uniqued xs ↔ x ∈ xs := by
  simp [uniqued, mem_uniquedFrom]

theorem nodup_uniquedFrom (set xs : List α) : (uniquedFrom set xs).Nodup := by
  induction xs generalizing set with
  | nil => exact List.nodup_nil
  | cons y ys ih =>
    rw [uniquedFrom]
    split
    · exact ih set
    · exact List.nodup_cons.mpr ⟨by simp [mem_uniquedFrom], ih _⟩

theorem nodup_uniqued (xs : List α) : (uniqued xs).Nodup := nodup_uniquedFrom [] xs

theorem uniquedFrom_of_nodup {set xs : List α} (hnd : xs.Nodup) (hset : ∀ x ∈ xs, x ∉ set) :
    uniquedFrom set xs = xs := by
  induction xs generalizing set with
  | nil => rfl
  | cons x xs ih =>
    rw [List.nodup_cons] at hnd
    rw [uniquedFrom, if_neg (hset x (List.mem_cons_self ..)), ih hnd.2]
    intro y hy hyset
    rcases List.mem_cons.mp hyset with rfl | hyset
    · exact hnd.1 hy
    · exact hset y (List.mem_cons_of_mem x hy) hyset

/-- Where nothing occurs twice there is nothing to drop. -/
theorem uniqued_of_nodup {xs : List α} (hnd : xs.Nodup) : uniqued xs = xs :=
  uniquedFrom_of_nodup hnd fun _ _ => List.not_mem_nil

theorem uniquedFrom_concat (set xs : List α) (x : α) :
    uniquedFrom set (xs ++ [x]) =
      uniquedFrom set xs ++ if x ∈ xs ∨ x ∈ set then [] else [x] := by
  induction xs generalizing set with
  | nil => simp [uniquedFrom]
  | cons y ys ih =>
    rw [List.cons_append, uniquedFrom, uniquedFrom]
    by_cases hy : y ∈ set
    · rw [if_pos hy, if_pos hy, ih]
      congr 2
      rw [List.mem_cons, eq_iff_iff]
      refine ⟨Or.imp Or.inr id, ?_⟩
      rintro ((rfl | h) | h)
      · exact Or.inr hy
      · exact Or.inl h
      · exact Or.inr h
    · rw [if_neg hy, if_neg hy, ih, List.cons_append]
      congr 3
      rw [List.mem_cons, List.mem_cons, eq_iff_iff]
      tauto

/-- One more element is appended if it is new. -/
theorem uniqued_concat (xs : List α) (x : α) :
    uniqued (xs ++ [x]) = if x ∈ xs then uniqued xs else uniqued xs ++ [x] := by
  rw [uniqued, uniquedFrom_concat, ← uniqued]
  by_cases hx : x ∈ xs
  · rw [if_pos hx, if_pos (Or.inl hx), List.append_nil]
  · rw [if_neg hx, if_neg (by simpa using hx)]

/-- Dropping duplicates first makes no difference to what is appended. -/
theorem uniqued_uniqued_concat (xs : List α) (x : α) :
    uniqued (uniqued xs ++ [x]) = uniqued (xs ++ [x]) := by
  rw [uniqued_concat, uniqued_concat, uniqued_of_nodup (nodup_uniqued xs)]
  simp only [mem_uniqued]

/-- The elements stand in the order in which they first occur. -/
theorem pairwise_idxOf_uniqued (xs : List α) :
    (uniqued xs).Pairwise fun a b => xs.idxOf a < xs.idxOf b := by
  induction xs using List.reverseRecOn with
  | nil => exact List.Pairwise.nil
  | append_singleton xs x ih =>
    have hold {a : α} (ha : a ∈ uniqued xs) : (xs ++ [x]).idxOf a = xs.idxOf a :=
      List.idxOf_append_of_mem (mem_uniqued.mp ha)
    have ih' : (uniqued xs).Pairwise fun a b => (xs ++ [x]).idxOf a < (xs ++ [x]).idxOf b :=
      ih.imp_of_mem fun ha hb hab => by rwa [hold ha, hold hb]
    rw [uniqued_concat]
    split
    · exact ih'
    · rename_i hx
      refine List.pairwise_append.mpr ⟨ih', List.pairwise_singleton _ _, fun a ha b hb => ?_⟩
      obtain rfl := List.mem_singleton.mp hb
      rw [hold ha, List.idxOf_append_of_notMem hx]
      have := List.idxOf_lt_length_of_mem (mem_uniqued.mp ha)
      omega

theorem length_uniqued (xs : List α) : (uniqued xs).length = xs.toFinset.card := by
  rw [← List.toFinset_card_of_nodup (nodup_uniqued xs)]
  congr 1
  ext x
  simp

end Uniqued

/-- `Sequence.sorted(by:)`. The sort is stable: what comes first stays first, unless the
predicate puts the later one before it. -/
def sorted {α : Type} (areInIncreasingOrder : α → α → Bool) (xs : List α) : List α :=
  xs.insertionSort fun a b => areInIncreasingOrder b a = false

theorem perm_sorted {α : Type} (areInIncreasingOrder : α → α → Bool) (xs : List α) :
    (sorted areInIncreasingOrder xs).Perm xs := List.perm_insertionSort _ xs

/-- Sorting by `<` on a key. -/
theorem sorted_eq_sortOn {α κ : Type} [LinearOrder κ] (key : α → κ) (xs : List α) :
    sorted (fun a b => key a < key b) xs = StableSort.sortOn key xs := by
  simp only [sorted, StableSort.sortOn, decide_eq_false_iff_not, not_lt]

end MoonMessenger
