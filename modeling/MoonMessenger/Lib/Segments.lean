import Mathlib.Data.List.SplitBy
import Mathlib.Data.List.Nodup

/-!
# Segments: the maximal runs of a list

`List.splitBy r l` cuts `l` wherever two neighbours are not related by `r`. The
lemmas here say how the cut develops when a list is read from left to right and
where two neighbours end up:

* `splitBy_append_of_isChain`, `exists_lastSegment` — the last segment of a list,
  and how to recognise it;
* `splitBy_map` — cutting commutes with a map that keeps the relation;
* `exists_mem_splitBy_iff`, `exists_head?_mem_splitBy_iff` — in a list without
  duplicates, two neighbours share a segment exactly when they are related, and an
  element begins one when it is not related to the one before it.
-/

namespace Segments

universe u v

variable {α : Type u} {β : Type v} {r : α → α → Bool}

/-- `seg` can follow the list `l` as a segment of its own: `r` does not relate
the last element of `l` to the first of `seg`. -/
def Breaks (r : α → α → Bool) (l seg : List α) : Prop :=
  ∀ x ∈ l.getLast?, ∀ y ∈ seg.head?, r x y = false

/-- A chain that breaks from what precedes it is the last segment. -/
theorem splitBy_append_of_isChain {l seg : List α} (hne : seg ≠ [])
    (hchain : seg.IsChain fun a b => r a b) (hbreak : Breaks r l seg) :
    (l ++ seg).splitBy r = l.splitBy r ++ [seg] := by
  rw [List.splitBy_append hbreak, List.splitBy_of_isChain hne hchain]

section ReplaceLast

variable {l seg : List α} {a b c : α}

/-- A chain stays one when a like element takes the place of its last element, and is
followed by one that it is related to. -/
theorem isChain_replaceLast (hb : ∀ x, r x b = r x a) (hbc : r b c = true)
    (hchain : (seg ++ [a]).IsChain fun a b => r a b) :
    (seg ++ [b, c]).IsChain fun a b => r a b := by
  rw [List.isChain_append] at hchain ⊢
  refine ⟨hchain.1, List.isChain_pair.mpr hbc, fun x hx y hy => ?_⟩
  obtain rfl : b = y := by simpa using hy
  rw [hb]
  exact hchain.2.2 x hx a (by simp)

/-- It breaks from the same lists. -/
theorem Breaks.replaceLast (hb : ∀ x, r x b = r x a) (h : Breaks r l (seg ++ [a])) (m : List α) :
    Breaks r l (seg ++ b :: m) := by
  intro x hx y hy
  cases seg with
  | nil =>
    obtain rfl : b = y := by simpa using hy
    rw [hb]
    exact h x hx a (by simp)
  | cons first seg => exact h x hx y hy

end ReplaceLast

/-- Every non-empty list ends in a last segment. -/
theorem exists_lastSegment {l : List α} (hl : l ≠ []) :
    ∃ l₀ seg, l = l₀ ++ seg ∧ seg ≠ [] ∧ (seg.IsChain fun a b => r a b) ∧ Breaks r l₀ seg := by
  induction l with
  | nil => exact absurd rfl hl
  | cons a l ih =>
    rcases eq_or_ne l [] with rfl | hne
    · exact ⟨[], [a], rfl, by simp, List.isChain_singleton a, by simp [Breaks]⟩
    · obtain ⟨l₀, seg, rfl, hseg, hchain, hbreak⟩ := ih hne
      rcases eq_or_ne l₀ [] with rfl | hl₀
      · obtain ⟨b, seg, rfl⟩ := List.exists_cons_of_ne_nil hseg
        -- `a` either extends the only segment or stands before it
        by_cases hab : r a b = true
        · exact ⟨[], a :: b :: seg, rfl, by simp, List.isChain_cons_cons.mpr ⟨hab, hchain⟩,
            by simp [Breaks]⟩
        · refine ⟨[a], b :: seg, rfl, hseg, hchain, ?_⟩
          intro x hx y hy
          simp only [List.getLast?_singleton, Option.mem_def, Option.some.injEq,
            List.head?_cons] at hx hy
          subst hx hy
          simpa using hab
      · refine ⟨a :: l₀, seg, rfl, hseg, hchain, ?_⟩
        intro x hx
        obtain ⟨c, l₀, rfl⟩ := List.exists_cons_of_ne_nil hl₀
        rw [List.getLast?_cons_cons] at hx
        exact hbreak x hx

/-- Cutting commutes with a map that keeps the relation. -/
theorem splitBy_map {r' : β → β → Bool} (f : α → β) (hf : ∀ a b, r' (f a) (f b) = r a b)
    (l : List α) : (l.map f).splitBy r' = (l.splitBy r).map (List.map f) := by
  rw [List.splitBy_eq_iff]
  refine ⟨?_, ?_, ?_, ?_⟩
  · rw [← List.map_flatten, List.flatten_splitBy]
  · intro h
    obtain ⟨seg, hseg, hnil⟩ := List.mem_map.mp h
    exact List.ne_nil_of_mem_splitBy hseg (List.map_eq_nil_iff.mp hnil)
  · intro m hm
    obtain ⟨seg, hseg, rfl⟩ := List.mem_map.mp hm
    rw [List.isChain_map]
    simpa only [hf] using List.isChain_of_mem_splitBy hseg
  · rw [List.isChain_map]
    refine (List.isChain_getLast_head_splitBy r l).imp ?_
    rintro a b ⟨ha, hb, hab⟩
    exact ⟨by simpa using ha, by simpa using hb, by rw [List.getLast_map, List.head_map, hf, hab]⟩

/-- In a list without duplicates, two related neighbours lie in one segment. -/
theorem exists_mem_splitBy_of_rel {l₁ l₂ : List α} {a b : α}
    (hnd : (l₁ ++ a :: b :: l₂).Nodup) (hab : r a b = true) :
    ∃ seg ∈ (l₁ ++ a :: b :: l₂).splitBy r, a ∈ seg ∧ b ∈ seg := by
  have hflat := List.flatten_splitBy r (l₁ ++ a :: b :: l₂)
  have hcut := List.isChain_getLast_head_splitBy r (l₁ ++ a :: b :: l₂)
  obtain ⟨seg, hseg, ha⟩ : ∃ seg ∈ (l₁ ++ a :: b :: l₂).splitBy r, a ∈ seg := by
    rw [← List.mem_flatten, hflat]
    simp
  obtain ⟨g₁, g₂, hg⟩ := List.append_of_mem hseg
  obtain ⟨s₁, s₂, rfl⟩ := List.append_of_mem ha
  -- `a` occurs once, so what follows it in the segments is what follows it in the list
  have hrest : s₂ ++ g₂.flatten = b :: l₂ := by
    rw [hg, List.flatten_append, List.flatten_cons, List.append_assoc, List.cons_append,
      ← List.append_assoc] at hflat
    have hnot := (List.nodup_middle.mp hnd).notMem
    rw [List.mem_append, not_or] at hnot
    exact ((List.append_cons_inj_of_notMem hnot.1 hnot.2).mp hflat.symm).2.2.symm
  refine ⟨_, hseg, by simp, ?_⟩
  cases s₂ with
  | cons c s₂ =>
    rw [List.cons_append, List.cons.injEq] at hrest
    simp [hrest.1]
  | nil =>
    -- the segment would end at `a` and the next one start with `b`
    exfalso
    rw [List.nil_append] at hrest
    cases g₂ with
    | nil => simp at hrest
    | cons seg' g₂ =>
      rw [hg] at hcut
      obtain ⟨_, hne, hfalse⟩ := List.isChain_append_cons_cons.mp hcut |>.2.1
      have hhead : seg'.head hne = b := by
        obtain ⟨c, t, rfl⟩ := List.exists_cons_of_ne_nil hne
        rw [List.flatten_cons, List.cons_append, List.cons.injEq] at hrest
        exact hrest.1
      rw [List.getLast_concat, hhead, hab] at hfalse
      cases hfalse

/-- In a list without duplicates, two neighbours lie in one segment exactly when
they are related. -/
theorem exists_mem_splitBy_iff {l₁ l₂ : List α} {a b : α} (hnd : (l₁ ++ a :: b :: l₂).Nodup) :
    (∃ seg ∈ (l₁ ++ a :: b :: l₂).splitBy r, a ∈ seg ∧ b ∈ seg) ↔ r a b = true := by
  refine ⟨?_, exists_mem_splitBy_of_rel hnd⟩
  rintro ⟨seg, hmem, ha, hb⟩
  by_contra hab
  have hcut : (l₁ ++ a :: b :: l₂).splitBy r = (l₁ ++ [a]).splitBy r ++ (b :: l₂).splitBy r := by
    rw [show l₁ ++ a :: b :: l₂ = (l₁ ++ [a]) ++ b :: l₂ by simp]
    exact List.splitBy_append_cons l₂ (by simpa using hab)
  have hnd' : ((l₁ ++ [a]) ++ b :: l₂).Nodup := by simpa using hnd
  have hdisj := (List.nodup_append.mp hnd').2.2
  rw [hcut, List.mem_append] at hmem
  rcases hmem with hmem | hmem
  · have hb' : b ∈ l₁ ++ [a] := by
      rw [← List.flatten_splitBy r (l₁ ++ [a])]
      exact List.mem_flatten_of_mem hmem hb
    exact hdisj b hb' b (List.mem_cons_self ..) rfl
  · have ha' : a ∈ b :: l₂ := by
      rw [← List.flatten_splitBy r (b :: l₂)]
      exact List.mem_flatten_of_mem hmem ha
    exact hdisj a (by simp) a ha' rfl

/-- In a list without duplicates, an element begins a segment exactly when it is not
related to the one before it. -/
theorem exists_head?_mem_splitBy_iff {l₁ l₂ : List α} {a : α} (hnd : (l₁ ++ a :: l₂).Nodup) :
    (∃ seg ∈ (l₁ ++ a :: l₂).splitBy r, seg.head? = some a) ↔
      ∀ x ∈ l₁.getLast?, r x a = false := by
  refine ⟨fun ⟨seg, hseg, hhead⟩ x hx => ?_, fun hbreak => ?_⟩
  · obtain ⟨t, rfl⟩ := List.head?_eq_some_iff.mp hhead
    have hflat := List.flatten_splitBy r (l₁ ++ a :: l₂)
    have hcut := List.isChain_getLast_head_splitBy r (l₁ ++ a :: l₂)
    obtain ⟨g₁, g₂, hg⟩ := List.append_of_mem hseg
    rw [hg] at hflat hcut
    -- what stands before the segment stands before `a`
    have hbefore : g₁.flatten = l₁ := by
      rw [List.flatten_append, List.flatten_cons, List.cons_append] at hflat
      have hnot := (List.nodup_middle.mp hnd).notMem
      rw [List.mem_append, not_or] at hnot
      exact ((List.append_cons_inj_of_notMem hnot.1 hnot.2).mp hflat.symm).1.symm
    rcases List.eq_nil_or_concat' g₁ with rfl | ⟨g₁, seg, rfl⟩
    · rw [← hbefore] at hx
      cases hx
    · have hlast := (List.isChain_append.mp hcut).2.2 seg (by simp) (a :: t) (by simp)
      obtain ⟨hne, hne', hfalse⟩ := hlast
      have hxseg : seg.getLast hne = x := by
        rw [← hbefore, List.flatten_append, List.flatten_singleton,
          List.getLast?_append_of_ne_nil _ hne] at hx
        exact Option.some.inj ((List.getLast?_eq_some_getLast hne).symm.trans hx)
      rwa [hxseg] at hfalse
  · rw [List.splitBy_append_cons l₂ hbreak]
    have hne : (a :: l₂).splitBy r ≠ [] := by simp
    have hseg := List.head_mem hne
    refine ⟨((a :: l₂).splitBy r).head hne, List.mem_append_right _ hseg, ?_⟩
    rw [List.head?_eq_some_head (List.ne_nil_of_mem_splitBy hseg)]
    exact congrArg some (List.head_head_splitBy r (List.cons_ne_nil a l₂))

end Segments
