import Mathlib.Data.List.Basic
import Mathlib.Data.List.Infix

/-!
# Trees by their paths

A tree with values at its leaves, seen as the partial function that gives the value at the
end of each path. Writing a whole subtree at a path (`put`) replaces what is at the path
and below it; a value that stood above it is gone, since a leaf has no children.

* `put_congr`, `put_put_append`, `put_comm` — what is overwritten does not matter; a write
  inside of a write is a write to what was written; writes to paths neither of which
  extends the other commute.
* `replay_of_covered`, `replay_put_comm` — a write that a later one covers can be left out
  of a list of writes; one that is apart from all later ones can be made last.
-/

universe u v

/-- What a tree holds at the end of each path. -/
abbrev PathMap (κ : Type u) (α : Type v) : Type (max u v) := List κ → Option α

namespace PathMap

variable {κ : Type u} {α : Type v}

/-- One of two paths extends the other. -/
def Comparable (p q : List κ) : Prop := p <+: q ∨ q <+: p

theorem Comparable.symm {p q : List κ} (h : Comparable p q) : Comparable q p := Or.symm h

/-- What extends one of two paths that are not comparable is not comparable to the other. -/
theorem not_comparable_of_extends {p p' q : List κ} (h : ¬ Comparable p q) (hpp' : p <+: p') :
    ¬ Comparable p' q := by
  rintro (hq | hq)
  · exact h (Or.inl (hpp'.trans hq))
  · exact h (List.prefix_or_prefix_of_prefix hpp' hq)

/-- The tree below a path. -/
def below (p : List κ) (s : PathMap κ α) : PathMap κ α := fun q => s (p ++ q)

@[simp] theorem below_apply (p q : List κ) (s : PathMap κ α) : below p s q = s (p ++ q) := rfl

@[simp] theorem below_nil (s : PathMap κ α) : below [] s = s := rfl

theorem below_append (p q : List κ) (s : PathMap κ α) :
    below (p ++ q) s = below q (below p s) := by
  funext r
  rw [below_apply, below_apply, below_apply, List.append_assoc]

/-- Two trees agree on the paths that are not comparable to `p`. -/
def AgreeOff (p : List κ) (s s' : PathMap κ α) : Prop := ∀ q, ¬ Comparable p q → s q = s' q

theorem AgreeOff.refl (p : List κ) (s : PathMap κ α) : AgreeOff p s s := fun _ _ => rfl

variable [DecidableEq κ]

/-- Write the tree `n` at the path `p`. -/
def put (p : List κ) (n s : PathMap κ α) : PathMap κ α := fun q =>
  if p <+: q then n (q.drop p.length) else if q <+: p then none else s q

section Put

variable {p p' q r : List κ} {m n s s' : PathMap κ α}

@[simp] theorem put_append_apply : put p n s (p ++ q) = n q := by
  rw [put, if_pos (List.prefix_append p q), List.drop_left]

theorem put_of_extends (h : p <+: q) : put p n s q = n (q.drop p.length) := if_pos h

theorem put_of_above (h : q <+: p) (hne : q ≠ p) : put p n s q = none := by
  rw [put, if_neg fun h' => hne (h.eq_of_length_le h'.length_le), if_pos h]

theorem put_of_not_comparable (h : ¬ Comparable p q) : put p n s q = s q := by
  rw [Comparable, not_or] at h
  rw [put, if_neg h.1, if_neg h.2]

@[simp] theorem put_nil : put [] n s = n := by
  funext q
  exact if_pos List.nil_prefix

@[simp] theorem below_put_self : below p (put p n s) = n := by
  funext q
  exact put_append_apply

/-- What a path holds after a write that it is comparable to does not depend on what was
there. -/
theorem put_of_comparable (h : Comparable p q) : put p n s q = put p n s' q := by
  rcases h with h | h
  · rw [put_of_extends h, put_of_extends h]
  · rcases eq_or_ne q p with rfl | hne
    · rw [put_of_extends (List.prefix_refl q), put_of_extends (List.prefix_refl q)]
    · rw [put_of_above h hne, put_of_above h hne]

theorem AgreeOff.put (h : AgreeOff p s s') :
    AgreeOff p (PathMap.put p' n s) (PathMap.put p' n s') := by
  intro q hq
  by_cases hq' : Comparable p' q
  · exact put_of_comparable hq'
  · rw [put_of_not_comparable hq', put_of_not_comparable hq', h q hq]

/-- What is overwritten does not matter. -/
theorem put_congr (h : AgreeOff p s s') : put p n s = put p n s' := by
  funext q
  by_cases hq : Comparable p q
  · exact put_of_comparable hq
  · rw [put_of_not_comparable hq, put_of_not_comparable hq, h q hq]

/-- A write at or below `p` only matters to what is comparable to `p`. -/
theorem agreeOff_put (h : p <+: p') : AgreeOff p (put p' n s) s := fun _ hq =>
  put_of_not_comparable (not_comparable_of_extends hq h)

theorem put_cons_nil {k : κ} : put (k :: p) n s [] = none :=
  put_of_above List.nil_prefix (List.cons_ne_nil k p).symm

theorem put_cons_cons {k k' : κ} :
    put (k :: p) n s (k' :: q) = if k = k' then put p n (below [k] s) q else s (k' :: q) := by
  by_cases h : k = k'
  · subst h
    simp only [put, List.cons_prefix_cons, true_and, List.length_cons, List.drop_succ_cons, if_true]
    rfl
  · simp only [put, List.cons_prefix_cons, h, Ne.symm h, false_and, if_false]

theorem below_put_cons {k : κ} : below [k] (put (k :: p) n s) = put p n (below [k] s) := by
  funext q
  rw [below_apply, List.singleton_append, put_cons_cons, if_pos rfl]

/-- A write inside of what was written is a write to that. -/
theorem put_put_append : put (p ++ r) n (put p m s) = put p (put r n m) s := by
  induction p generalizing s with
  | nil => rw [List.nil_append, put_nil, put_nil]
  | cons k p ih =>
    funext q
    rw [List.cons_append]
    cases q with
    | nil => rw [put_cons_nil, put_cons_nil]
    | cons k' q =>
      rw [put_cons_cons, put_cons_cons, put_cons_cons, below_put_cons, ih]
      by_cases hk : k = k'
      · rw [if_pos hk, if_pos hk]
      · rw [if_neg hk, if_neg hk, if_neg hk]

theorem put_put_of_comparable (h : ¬ Comparable p p') (hq : Comparable p q) :
    put p m (put p' n s) q = put p' n (put p m s) q := by
  by_cases hq' : Comparable p' q
  · -- a path comparable to both is above both
    have hqp : q <+: p := hq.resolve_left fun hpq => not_comparable_of_extends h hpq hq'.symm
    have hqp' : q <+: p' :=
      hq'.resolve_left fun hpq => not_comparable_of_extends (fun h' => h h'.symm) hpq hq.symm
    rw [put_of_above hqp, put_of_above hqp']
    · rintro rfl
      exact h (Or.inr hqp)
    · rintro rfl
      exact h (Or.inl hqp')
  · rw [put_of_not_comparable hq']
    exact put_of_comparable hq

/-- Writes to paths that are not comparable commute. -/
theorem put_comm (h : ¬ Comparable p p') : put p m (put p' n s) = put p' n (put p m s) := by
  funext q
  by_cases hp : Comparable p q
  · exact put_put_of_comparable h hp
  · by_cases hp' : Comparable p' q
    · exact (put_put_of_comparable (fun h' => h h'.symm) hp').symm
    · rw [put_of_not_comparable hp, put_of_not_comparable hp', put_of_not_comparable hp',
        put_of_not_comparable hp]

end Put

/-! ## Lists of writes -/

/-- Make the writes one after the other. -/
def replay (ws : List (List κ × PathMap κ α)) (s : PathMap κ α) : PathMap κ α :=
  ws.foldl (fun s w => put w.1 w.2 s) s

section Replay

variable {ws ws₁ ws₂ : List (List κ × PathMap κ α)} {w : List κ × PathMap κ α} {p q : List κ}
  {n s s' : PathMap κ α}

@[simp] theorem replay_nil : replay [] s = s := rfl

@[simp] theorem replay_cons : replay (w :: ws) s = replay ws (put w.1 w.2 s) := rfl

@[simp] theorem replay_append : replay (ws₁ ++ ws₂) s = replay ws₂ (replay ws₁ s) :=
  List.foldl_append

theorem AgreeOff.replay (h : AgreeOff p s s') :
    AgreeOff p (PathMap.replay ws s) (PathMap.replay ws s') := by
  induction ws generalizing s s' with
  | nil => exact h
  | cons w ws ih => exact ih h.put

/-- A write that a later one covers can be left out. -/
theorem replay_of_covered (h : ∃ w' ∈ ws₂, w'.1 <+: w.1) :
    replay (ws₁ ++ w :: ws₂) s = replay (ws₁ ++ ws₂) s := by
  obtain ⟨w', hw', hcover⟩ := h
  obtain ⟨before, after, rfl⟩ := List.append_of_mem hw'
  simp only [replay_append, replay_cons]
  congr 1
  exact put_congr ((agreeOff_put hcover).replay)

/-- A path that none of the writes is comparable to keeps what it holds. -/
theorem replay_of_not_comparable (h : ∀ w ∈ ws, ¬ Comparable w.1 q) : replay ws s q = s q := by
  induction ws generalizing s with
  | nil => rfl
  | cons w ws ih =>
    rw [List.forall_mem_cons] at h
    rw [replay_cons, ih h.2, put_of_not_comparable h.1]

/-- A path that some of the writes lie below, and none at or above, holds nothing. -/
theorem replay_of_above (h : ∀ w ∈ ws, ¬ w.1 <+: q) (hex : ∃ w ∈ ws, q <+: w.1) :
    replay ws s q = none := by
  induction ws using List.reverseRecOn with
  | nil => simp at hex
  | append_singleton ws w ih =>
    rw [replay_append, replay_cons, replay_nil]
    have hw : ¬ w.1 <+: q := h w (by simp)
    by_cases hq : q <+: w.1
    · refine put_of_above hq ?_
      rintro rfl
      exact hw (List.prefix_refl _)
    · rw [put_of_not_comparable (not_or.mpr ⟨hw, hq⟩)]
      refine ih (fun w' hw' => h w' (List.mem_append_left _ hw')) ?_
      obtain ⟨w', hw', hqw'⟩ := hex
      rcases List.mem_append.mp hw' with hw' | hw'
      · exact ⟨w', hw', hqw'⟩
      · obtain rfl := List.mem_singleton.mp hw'
        exact absurd hqw' hq

/-- A write apart from all those after it can be made last. -/
theorem replay_put_comm (h : ∀ w ∈ ws, ¬ Comparable w.1 p) :
    replay ws (put p n s) = put p n (replay ws s) := by
  induction ws generalizing s with
  | nil => rfl
  | cons w ws ih =>
    rw [List.forall_mem_cons] at h
    rw [replay_cons, replay_cons, put_comm h.1, ih h.2]

end Replay

end PathMap
