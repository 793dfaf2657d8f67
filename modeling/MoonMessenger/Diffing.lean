import MoonMessenger.Message

/-!
# Two snapshots

The diffable data source takes items of two snapshots for one item when they are equal,
that is when they have the same id. `Agree f`: on such items, `f` gives the same. How far
the items of a snapshot and those of the next one agree decides what the diff between
them gets wrong.
-/

namespace MoonMessenger

variable {β : Type} {f : Message → β} {xs xs' ys ys' zs : List Message}

/-- Messages of the two lists that are equal agree on `f`. -/
def Agree (f : Message → β) (xs ys : List Message) : Prop :=
  ∀ a ∈ xs, ∀ b ∈ ys, (a == b) = true → f a = f b

instance [DecidableEq β] (f : Message → β) (xs ys : List Message) : Decidable (Agree f xs ys) :=
  inferInstanceAs (Decidable (∀ a ∈ xs, ∀ b ∈ ys, (a == b) = true → f a = f b))

/-- Only ids and values count. -/
theorem agree_congr (hx : xs.map (fun m => (m.id, f m)) = xs'.map fun m => (m.id, f m))
    (hy : ys.map (fun m => (m.id, f m)) = ys'.map fun m => (m.id, f m)) :
    Agree f xs ys ↔ Agree f xs' ys' := by
  have hpairs (xs ys : List Message) : Agree f xs ys ↔
      ∀ p ∈ xs.map (fun m => (m.id, f m)), ∀ q ∈ ys.map (fun m => (m.id, f m)),
        p.1 = q.1 → p.2 = q.2 := by
    simp only [Agree, List.forall_mem_map, Message.beq_eq_true]
  rw [hpairs, hx, hy, ← hpairs]

/-- Messages with distinct ids agree among themselves. -/
theorem agree_self (hnd : (xs.map Message.id).Nodup) : Agree f xs xs := by
  intro a ha b hb hab
  rw [List.inj_on_of_nodup_map hnd ha hb (Message.beq_eq_true.mp hab)]

theorem agree_append : Agree f xs (ys ++ zs) ↔ Agree f xs ys ∧ Agree f xs zs := by
  simp only [Agree, List.forall_mem_append, forall_and]

/-- Messages with other ids do not matter. -/
theorem agree_of_disjoint (h : (xs.map Message.id).Disjoint (ys.map Message.id)) :
    Agree f xs ys := by
  intro a ha b hb hab
  rw [Message.beq_eq_true] at hab
  exact absurd (hab ▸ List.mem_map_of_mem hb) (h (List.mem_map_of_mem ha))

/-- Of a list whose last message is replaced by a copy, only the copy matters. -/
theorem agree_replaceLast {init : List Message} {a prev : Message} (hid : prev.id = a.id)
    (hnd : ((init ++ [a]).map Message.id).Nodup) :
    Agree f (init ++ [a]) (init ++ [prev]) ↔ f prev = f a := by
  refine ⟨fun h => ?_, fun hf => ?_⟩
  · exact (h a (by simp) prev (by simp) (Message.beq_eq_true.mpr hid.symm)).symm
  · have hpair : (prev.id, f prev) = (a.id, f a) := Prod.ext hid hf
    refine (agree_congr rfl ?_).mpr (agree_self hnd)
    rw [List.map_append, List.map_append, List.map_singleton, List.map_singleton, hpair]

end MoonMessenger
