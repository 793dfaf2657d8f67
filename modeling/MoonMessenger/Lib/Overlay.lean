import MoonMessenger.Lib.PathMap

/-!
# Overlays

Writes that are kept apart from the tree they are made to: at most one on every branch,
so that it does not matter in which order they are made.

* `Overlay.onto_add` — adding a write to an overlay, and then making its writes, is making
  its writes and then the one added;
* `Overlay.Represents` — the overlay stands for a list of writes. The rules say how it
  does so while writes are added to the list and taken out of it: one that a later write
  covers changes nothing (`Represents.erase_of_covered`), and one apart from all others
  just disappears (`Represents.erase_of_apart`).
-/

namespace PathMap

universe u v

/-- At most one write on every branch. -/
@[ext] structure Overlay (κ : Type u) (α : Type v) where
  /-- the tree written at a path -/
  value : List κ → Option (PathMap κ α)
  antichain : ∀ {p q}, (value p).isSome → (value q).isSome → p <+: q → p = q

namespace Overlay

variable {κ : Type u} {α : Type v}

/-- No write at all. -/
def empty : Overlay κ α := ⟨fun _ => none, by simp⟩

/-- Some write lies at the path or above it. -/
def Covers (V : Overlay κ α) (q : List κ) : Prop := ∃ p, p <+: q ∧ (V.value p).isSome

open Classical in
/-- The tree `s` with the writes made to it. -/
noncomputable def onto (V : Overlay κ α) (s : PathMap κ α) : PathMap κ α := fun q =>
  if h : V.Covers q then ((V.value h.choose).getD s) (q.drop h.choose.length)
  else if ∃ p, q <+: p ∧ (V.value p).isSome then none else s q

section Onto

variable {V : Overlay κ α} {s n : PathMap κ α} {p q : List κ}

theorem eq_of_covers (hp : V.value p = some n) : V.Covers q → q <+: p → q = p := by
  rintro ⟨r, hr, hrv⟩ hq
  obtain rfl := V.antichain hrv (hp ▸ rfl) (hr.trans hq)
  exact hq.eq_of_length_le hr.length_le

theorem onto_of_value (hp : V.value p = some n) (hpq : p <+: q) :
    V.onto s q = n (q.drop p.length) := by
  have hcov : V.Covers q := ⟨p, hpq, hp ▸ rfl⟩
  rw [onto, dif_pos hcov]
  obtain ⟨hr, hrv⟩ := hcov.choose_spec
  have heq : hcov.choose = p := by
    rcases List.prefix_or_prefix_of_prefix hr hpq with h | h
    · exact V.antichain hrv (hp ▸ rfl) h
    · exact (V.antichain (hp ▸ rfl) hrv h).symm
  rw [heq, hp]
  rfl

theorem onto_of_above (hp : (V.value p).isSome) (hqp : q <+: p) (hne : q ≠ p) :
    V.onto s q = none := by
  obtain ⟨n, hn⟩ := Option.isSome_iff_exists.mp hp
  rw [onto, dif_neg fun h => hne (eq_of_covers hn h hqp), if_pos ⟨p, hqp, hp⟩]

theorem onto_of_apart (h : ∀ p, (V.value p).isSome → ¬ Comparable p q) : V.onto s q = s q := by
  rw [onto, dif_neg, if_neg]
  · rintro ⟨p, hqp, hp⟩
    exact h p hp (Or.inr hqp)
  · rintro ⟨p, hpq, hp⟩
    exact h p hp (Or.inl hpq)

@[simp] theorem onto_empty : (empty : Overlay κ α).onto s = s := by
  funext q
  exact onto_of_apart fun p hp => by simp [empty] at hp

/-- Where a value is written, the rest does not matter. -/
theorem onto_eq_put [DecidableEq κ] (hp : V.value p = some n) : V.onto s = put p n (V.onto s) := by
  funext q
  by_cases hq : Comparable p q
  · rcases hq with hq | hq
    · rw [onto_of_value hp hq, put_of_extends hq]
    · rcases eq_or_ne q p with rfl | hne
      · rw [onto_of_value hp (List.prefix_refl q), put_of_extends (List.prefix_refl q)]
      · rw [onto_of_above (hp ▸ rfl) hq hne, put_of_above hq hne]
  · rw [put_of_not_comparable hq]

/-- What a path holds depends on the writes that it is comparable to. -/
theorem onto_congr {V' : Overlay κ α} (h : ∀ p, Comparable p q → V.value p = V'.value p) :
    V.onto s q = V'.onto s q := by
  by_cases hcov : V.Covers q
  · obtain ⟨p, hpq, hp⟩ := hcov
    obtain ⟨n, hn⟩ := Option.isSome_iff_exists.mp hp
    rw [onto_of_value hn hpq, onto_of_value ((h p (Or.inl hpq)).symm.trans hn) hpq]
  · by_cases habove : ∃ p, q <+: p ∧ (V.value p).isSome
    · obtain ⟨p, hqp, hp⟩ := habove
      have hne : q ≠ p := fun heq => hcov ⟨p, heq ▸ List.prefix_refl _, hp⟩
      rw [onto_of_above hp hqp hne, onto_of_above (h p (Or.inr hqp) ▸ hp) hqp hne]
    · have hapart (p : List κ) (hp : (V.value p).isSome) : ¬ Comparable p q := by
        rintro (hpq | hqp)
        · exact hcov ⟨p, hpq, hp⟩
        · exact habove ⟨p, hqp, hp⟩
      rw [onto_of_apart hapart, onto_of_apart]
      intro p hp hpq
      exact hapart p (h p hpq ▸ hp) hpq

end Onto

/-- **The writes of an overlay**, in whatever order they are listed. -/
theorem onto_eq_replay [DecidableEq κ] {V : Overlay κ α} {s : PathMap κ α}
    {ws : List (List κ × PathMap κ α)} (hpair : ws.Pairwise fun w w' => ¬ Comparable w.1 w'.1)
    (hmem : ∀ p n, V.value p = some n ↔ (p, n) ∈ ws) : V.onto s = replay ws s := by
  have hsome {p : List κ} (hp : (V.value p).isSome) : ∃ w ∈ ws, w.1 = p := by
    obtain ⟨n, hn⟩ := Option.isSome_iff_exists.mp hp
    exact ⟨(p, n), (hmem p n).mp hn, rfl⟩
  have hvalue {w : List κ × PathMap κ α} (hw : w ∈ ws) : V.value w.1 = some w.2 :=
    (hmem w.1 w.2).mpr hw
  funext q
  by_cases hcov : ∃ w ∈ ws, w.1 <+: q
  · obtain ⟨w, hw, hle⟩ := hcov
    rw [onto_of_value (hvalue hw) hle]
    obtain ⟨before, after, rfl⟩ := List.append_of_mem hw
    have hafter (w' : List κ × PathMap κ α) (hw' : w' ∈ after) : ¬ Comparable w'.1 w.1 :=
      fun h => (List.pairwise_cons.mp (List.pairwise_append.mp hpair).2.1).1 w' hw' h.symm
    rw [replay_append, replay_cons, replay_put_comm hafter, put_of_extends hle]
  · have hnone : ∀ w ∈ ws, ¬ w.1 <+: q := fun w hw hle => hcov ⟨w, hw, hle⟩
    by_cases habove : ∃ w ∈ ws, q <+: w.1
    · rw [replay_of_above hnone habove]
      obtain ⟨w, hw, hle⟩ := habove
      refine onto_of_above (hvalue hw ▸ rfl) hle ?_
      rintro rfl
      exact hnone w hw (List.prefix_refl _)
    · have hoff (w : List κ × PathMap κ α) (hw : w ∈ ws) : ¬ Comparable w.1 q := by
        rintro (hle | hle)
        · exact hnone w hw hle
        · exact habove ⟨w, hw, hle⟩
      rw [replay_of_not_comparable hoff, onto_of_apart]
      intro p hp
      obtain ⟨w, hw, rfl⟩ := hsome hp
      exact hoff w hw

/-! ### Below a path -/

/-- The writes below a path. -/
def below (V : Overlay κ α) (p : List κ) : Overlay κ α where
  value q := V.value (p ++ q)
  antichain hq hr hqr := by
    have heq := V.antichain hq hr ((List.prefix_append_right_inj p).mpr hqr)
    exact List.append_cancel_left heq

/-- Where nothing is written at a path or above it, only what is written below it matters
there. -/
theorem below_onto {V : Overlay κ α} {s : PathMap κ α} {p : List κ} (h : ¬ V.Covers p) :
    PathMap.below p (V.onto s) = (V.below p).onto (PathMap.below p s) := by
  have hbelow {q r : List κ} (hr : (V.value r).isSome) (hq : Comparable r (p ++ q)) :
      ∃ t, r = p ++ t := by
    have hpr : p <+: r := by
      rcases hq with hq | hq
      · exact (List.prefix_or_prefix_of_prefix hq (List.prefix_append p q)).resolve_left
          fun hle => h ⟨r, hle, hr⟩
      · exact (List.prefix_append p q).trans hq
    exact hpr.imp fun t ht => ht.symm
  funext q
  rw [below_apply]
  by_cases hcov : (V.below p).Covers q
  · obtain ⟨r, hrq, hr⟩ := hcov
    obtain ⟨n, hn⟩ := Option.isSome_iff_exists.mp hr
    have hn' : V.value (p ++ r) = some n := hn
    rw [onto_of_value hn hrq, onto_of_value hn' ((List.prefix_append_right_inj p).mpr hrq)]
    congr 1
    rw [List.length_append, ← List.drop_drop, List.drop_left]
  · by_cases habove : ∃ r, q <+: r ∧ ((V.below p).value r).isSome
    · obtain ⟨r, hqr, hr⟩ := habove
      have hne : q ≠ r := by
        rintro rfl
        exact hcov ⟨q, List.prefix_refl _, hr⟩
      rw [onto_of_above hr hqr hne]
      refine onto_of_above (p := p ++ r) hr ((List.prefix_append_right_inj p).mpr hqr) ?_
      exact fun heq => hne (List.append_cancel_left heq)
    · have hoff (r : List κ) (hr : ((V.below p).value r).isSome) : ¬ Comparable r q := by
        rintro (hle | hle)
        · exact hcov ⟨r, hle, hr⟩
        · exact habove ⟨r, hle, hr⟩
      rw [onto_of_apart hoff, onto_of_apart]
      · rfl
      · intro r hr hcomp
        obtain ⟨t, rfl⟩ := hbelow hr hcomp
        refine hoff t hr (hcomp.imp ?_ ?_)
        · exact (List.prefix_append_right_inj p).mp
        · exact (List.prefix_append_right_inj p).mp

/-! ## Adding a write -/

section Add

variable [DecidableEq κ] {V : Overlay κ α} {s m : PathMap κ α} {p q : List κ}

open Classical in
/-- The tree written at `q` once `m` is written at `p`: into the write above `p`, if there
is one, else in place of those below. -/
noncomputable def addValue (V : Overlay κ α) (p : List κ) (m : PathMap κ α) (q : List κ) :
    Option (PathMap κ α) :=
  if V.Covers p then
    if q <+: p then (V.value q).map fun n => put (p.drop q.length) m n else V.value q
  else if q = p then some m
  else if p <+: q then none
  else V.value q

theorem isSome_addValue_of_covers (h : V.Covers p) :
    (V.addValue p m q).isSome = (V.value q).isSome := by
  rw [addValue, if_pos h]
  split
  · exact Option.isSome_map
  · rfl

theorem isSome_addValue_of_not_covers (h : ¬ V.Covers p) :
    (V.addValue p m q).isSome ↔ q = p ∨ ¬ p <+: q ∧ (V.value q).isSome := by
  rw [addValue, if_neg h]
  by_cases hq : q = p
  · simp [hq]
  · by_cases hpq : p <+: q
    · simp [hq, hpq]
    · simp [hq, hpq]

/-- Add a write. -/
noncomputable def add (V : Overlay κ α) (p : List κ) (m : PathMap κ α) : Overlay κ α where
  value := V.addValue p m
  antichain {q r} hq hr hqr := by
    by_cases h : V.Covers p
    · rw [isSome_addValue_of_covers h] at hq hr
      exact V.antichain hq hr hqr
    · rw [isSome_addValue_of_not_covers h] at hq hr
      rcases hq with rfl | ⟨hpq, hq⟩
      · rcases hr with rfl | ⟨hqr', -⟩
        · rfl
        · exact absurd hqr hqr'
      · rcases hr with rfl | ⟨-, hr⟩
        · exact absurd ⟨q, hqr, hq⟩ h
        · exact V.antichain hq hr hqr

/-- **Adding a write** is making it last. -/
theorem onto_add : (V.add p m).onto s = put p m (V.onto s) := by
  by_cases h : V.Covers p
  · obtain ⟨r, ⟨t, rfl⟩, hr⟩ := h
    obtain ⟨n, hn⟩ := Option.isSome_iff_exists.mp hr
    have hcov : V.Covers (r ++ t) := ⟨r, List.prefix_append r t, hr⟩
    have hvalue : (V.add (r ++ t) m).value r = some (put t m n) := by
      change V.addValue (r ++ t) m r = _
      rw [addValue, if_pos hcov, if_pos (List.prefix_append r t), hn, List.drop_left]
      rfl
    rw [onto_eq_put hvalue, onto_eq_put hn, put_put_append]
    refine put_congr fun q hq => onto_congr fun q' hq' => ?_
    change V.addValue (r ++ t) m q' = _
    rw [addValue, if_pos hcov]
    split
    · -- `r` is the only write above
      rename_i hq't
      have hnone : V.value q' = none := by
        rw [← Option.not_isSome_iff_eq_none]
        intro hsome
        rcases List.prefix_or_prefix_of_prefix hq't (List.prefix_append r t) with hle | hle
        · exact hq (V.antichain hsome hr hle ▸ hq')
        · exact hq (V.antichain hr hsome hle ▸ hq')
      rw [hnone]
      rfl
    · rfl
  · have hvalue : (V.add p m).value p = some m := by
      change V.addValue p m p = _
      rw [addValue, if_neg h, if_pos rfl]
    rw [onto_eq_put hvalue]
    refine put_congr fun q hq => onto_congr fun q' hq' => ?_
    change V.addValue p m q' = _
    rw [addValue, if_neg h, if_neg, if_neg]
    · intro hpq'
      rcases hq' with hq' | hq'
      · exact hq (Or.inl (hpq'.trans hq'))
      · exact hq (List.prefix_or_prefix_of_prefix hpq' hq')
    · rintro rfl
      exact hq hq'

end Add

/-! ## Taking a write out -/

section Erase

variable [DecidableEq κ] {V : Overlay κ α} {s m : PathMap κ α} {p q : List κ}

/-- Take out what is written at `p` and below it. -/
def erase (V : Overlay κ α) (p : List κ) : Overlay κ α where
  value q := if p <+: q then none else V.value q
  antichain {q r} hq hr hqr := by
    split at hq
    · cases hq
    · split at hr
      · cases hr
      · exact V.antichain hq hr hqr

theorem isSome_erase : ((V.erase p).value q).isSome ↔ ¬ p <+: q ∧ (V.value q).isSome := by
  change (if p <+: q then none else V.value q).isSome ↔ _
  split <;> simp [*]

theorem onto_erase_of_not_comparable (h : ¬ Comparable p q) :
    (V.erase p).onto s q = V.onto s q := by
  refine onto_congr fun r hr => if_neg fun hpr => ?_
  rcases hr with hr | hr
  · exact h (Or.inl (hpr.trans hr))
  · exact h (List.prefix_or_prefix_of_prefix hpr hr)

end Erase

/-! ## Standing for a list of writes -/

/-- Making the writes of the overlay is making these writes one after the other. -/
structure Represents [DecidableEq κ] (V : Overlay κ α) (ws : List (List κ × PathMap κ α)) :
    Prop where
  onto_eq : ∀ s, V.onto s = replay ws s
  exists_of_value : ∀ {p}, (V.value p).isSome → ∃ w ∈ ws, w.1 = p
  covers : ∀ w ∈ ws, V.Covers w.1

section Represents

variable [DecidableEq κ] {V : Overlay κ α} {ws ws₁ ws₂ : List (List κ × PathMap κ α)}
  {w : List κ × PathMap κ α}

theorem represents_empty : Represents (empty : Overlay κ α) [] where
  onto_eq s := onto_empty
  exists_of_value h := by simp [empty] at h
  covers w hw := absurd hw List.not_mem_nil

/-- One more write. -/
theorem Represents.add (h : V.Represents ws) (w : List κ × PathMap κ α) :
    (V.add w.1 w.2).Represents (ws ++ [w]) where
  onto_eq s := by
    rw [onto_add, h.onto_eq, replay_append]
    rfl
  exists_of_value {p} hp := by
    have hp' : (V.addValue w.1 w.2 p).isSome := hp
    by_cases hcov : V.Covers w.1
    · rw [isSome_addValue_of_covers hcov] at hp'
      obtain ⟨w', hw', heq⟩ := h.exists_of_value hp'
      exact ⟨w', List.mem_append_left _ hw', heq⟩
    · rcases (isSome_addValue_of_not_covers hcov).mp hp' with rfl | ⟨-, hp'⟩
      · exact ⟨w, by simp, rfl⟩
      · obtain ⟨w', hw', heq⟩ := h.exists_of_value hp'
        exact ⟨w', List.mem_append_left _ hw', heq⟩
  covers w' hw' := by
    by_cases hcov : V.Covers w.1
    · have hvalue (p : List κ) : ((V.add w.1 w.2).value p).isSome = (V.value p).isSome :=
        isSome_addValue_of_covers hcov
      have hw'' : V.Covers w'.1 := by
        rcases List.mem_append.mp hw' with hw' | hw'
        · exact h.covers w' hw'
        · rwa [List.mem_singleton.mp hw']
      obtain ⟨p, hp, hpv⟩ := hw''
      exact ⟨p, hp, (hvalue p).trans hpv⟩
    · have hself : ((V.add w.1 w.2).value w.1).isSome :=
        (isSome_addValue_of_not_covers hcov).mpr (Or.inl rfl)
      rcases List.mem_append.mp hw' with hw' | hw'
      · obtain ⟨p, hp, hpv⟩ := h.covers w' hw'
        by_cases hwp : w.1 <+: p
        · exact ⟨w.1, hwp.trans hp, hself⟩
        · exact ⟨p, hp, (isSome_addValue_of_not_covers hcov).mpr (Or.inr ⟨hwp, hpv⟩)⟩
      · obtain rfl := List.mem_singleton.mp hw'
        exact ⟨w'.1, List.prefix_refl _, hself⟩

/-- A write that a later one covers leaves no trace. -/
theorem Represents.erase_of_covered (h : V.Represents (ws₁ ++ w :: ws₂))
    (hcov : ∃ w' ∈ ws₂, w'.1 <+: w.1) : V.Represents (ws₁ ++ ws₂) where
  onto_eq s := by rw [h.onto_eq, replay_of_covered hcov]
  exists_of_value {p} hp := by
    obtain ⟨w', hw', rfl⟩ := h.exists_of_value hp
    rw [List.mem_append, List.mem_cons] at hw'
    rcases hw' with hw' | rfl | hw'
    · exact ⟨w', List.mem_append_left _ hw', rfl⟩
    · -- what is written there is what the later write put there
      obtain ⟨w'', hw'', hle⟩ := hcov
      obtain ⟨r, hr, hrv⟩ := h.covers w'' (by simp [hw''])
      obtain rfl := V.antichain hrv hp (hr.trans hle)
      refine ⟨w'', List.mem_append_right _ hw'', ?_⟩
      exact hle.eq_of_length_le hr.length_le
    · exact ⟨w', List.mem_append_right _ hw', rfl⟩
  covers w' hw' := by
    refine h.covers w' ?_
    rw [List.mem_append] at hw' ⊢
    exact hw'.imp_right (List.mem_cons_of_mem w)

/-- A write apart from all others disappears. -/
theorem Represents.erase_of_apart (h : V.Represents (ws₁ ++ w :: ws₂))
    (hapart : ∀ w' ∈ ws₁ ++ ws₂, ¬ Comparable w'.1 w.1) :
    (V.erase w.1).Represents (ws₁ ++ ws₂) := by
  have hothers {p : List κ} (hp : (V.value p).isSome) (hne : p ≠ w.1) :
      ∃ w' ∈ ws₁ ++ ws₂, w'.1 = p := by
    obtain ⟨w', hw', rfl⟩ := h.exists_of_value hp
    rw [List.mem_append, List.mem_cons] at hw'
    rcases hw' with hw' | rfl | hw'
    · exact ⟨w', List.mem_append_left _ hw', rfl⟩
    · exact absurd rfl hne
    · exact ⟨w', List.mem_append_right _ hw', rfl⟩
  have hvalue {p : List κ} (hp : ((V.erase w.1).value p).isSome) :
      ∃ w' ∈ ws₁ ++ ws₂, w'.1 = p := by
    obtain ⟨hwp, hp⟩ := isSome_erase.mp hp
    exact hothers hp fun heq => hwp (heq ▸ List.prefix_refl _)
  have hcovers {w' : List κ × PathMap κ α} (hw' : w' ∈ ws₁ ++ ws₂) :
      (V.erase w.1).Covers w'.1 := by
    obtain ⟨p, hp, hpv⟩ := h.covers w' <| by
      rw [List.mem_append] at hw' ⊢
      exact hw'.imp_right (List.mem_cons_of_mem w)
    refine ⟨p, hp, isSome_erase.mpr ⟨fun hwp => ?_, hpv⟩⟩
    exact hapart w' hw' (Or.inr (hwp.trans hp))
  refine ⟨fun s => ?_, hvalue, fun w' hw' => hcovers hw'⟩
  have hlast : V.onto s = put w.1 w.2 (replay (ws₁ ++ ws₂) s) := by
    rw [h.onto_eq, replay_append, replay_cons, replay_append, replay_put_comm]
    intro w' hw'
    exact hapart w' (List.mem_append_right _ hw')
  funext q
  by_cases hq : Comparable w.1 q
  · rcases hq with hq | hq
    · -- at the write and below it nothing else is written
      have hoff (w' : List κ × PathMap κ α) (hw' : w' ∈ ws₁ ++ ws₂) : ¬ Comparable w'.1 q :=
        fun hcomp => not_comparable_of_extends (fun h' => hapart w' hw' h'.symm) hq hcomp.symm
      rw [replay_of_not_comparable hoff, onto_of_apart]
      intro p hp
      obtain ⟨w', hw', rfl⟩ := hvalue hp
      exact hoff w' hw'
    · have hnone (w' : List κ × PathMap κ α) (hw' : w' ∈ ws₁ ++ ws₂) : ¬ w'.1 <+: q :=
        fun hle => hapart w' hw' (Or.inl (hle.trans hq))
      by_cases hex : ∃ w' ∈ ws₁ ++ ws₂, q <+: w'.1
      · rw [replay_of_above hnone hex]
        obtain ⟨w', hw', hle⟩ := hex
        obtain ⟨p, hp, hpv⟩ := hcovers hw'
        obtain ⟨w'', hw'', rfl⟩ := hvalue hpv
        have hqp : q <+: w''.1 :=
          (List.prefix_or_prefix_of_prefix hle hp).resolve_right (hnone w'' hw'')
        refine onto_of_above hpv hqp fun heq => ?_
        exact hnone w'' hw'' (heq ▸ List.prefix_refl _)
      · have hoff (w' : List κ × PathMap κ α) (hw' : w' ∈ ws₁ ++ ws₂) : ¬ Comparable w'.1 q := by
          rintro (hle | hle)
          · exact hnone w' hw' hle
          · exact hex ⟨w', hw', hle⟩
        rw [replay_of_not_comparable hoff, onto_of_apart]
        intro p hp
        obtain ⟨w', hw', rfl⟩ := hvalue hp
        exact hoff w' hw'
  · rw [onto_erase_of_not_comparable hq, hlast, put_of_not_comparable hq]

end Represents

end Overlay

end PathMap
