import MoonMessenger.DataBuilder
import MoonMessenger.Lib.Segments

/-!
# The layout of a conversation

What the chat view is for, without the builder: a list of messages is cut into
segments wherever two neighbours do not belong together (`sameRun`), and each
segment is shown as one section whose bubbles are rounded by their place in it
(`rounded`). `layout_append_singleton` is how the layout grows by one message.
-/

namespace MoonMessenger

/-- May `b` stand right after `a` in one section? Same side, same sender and at
most two whole hours apart. -/
def sameRun (a b : Message) : Bool :=
  decide (a.origin = b.origin) && decide (DataBuilder.delta a.date b.date ≤ 2) &&
    decide (a.userId = b.userId)

/-- The corners of a section of `n` bubbles. -/
def roundings : ℕ → List Rounding
  | 0 => []
  | 1 => [.basic]
  | n + 2 => .top :: (List.replicate n .middle ++ [.bottom])

/-- A segment with the corners of a section. -/
def rounded (seg : List Message) : List Message :=
  seg.zipWith Message.withCorners (roundings seg.length)

/-- The sections that show `shown`. -/
def layout (shown : List Message) : List (List Message) := (shown.splitBy sameRun).map rounded

/-! ## Rounding -/

@[simp] theorem length_roundings (n : ℕ) : (roundings n).length = n := by
  match n with
  | 0 => rfl
  | 1 => rfl
  | n + 2 => simp [roundings]

theorem map_zipWith_withCorners {β : Type} (f : Message → β)
    (hf : ∀ m c, f (m.withCorners c) = f m) (seg : List Message) (cs : List Rounding)
    (h : seg.length = cs.length) :
    (seg.zipWith Message.withCorners cs).map f = seg.map f := by
  induction seg generalizing cs with
  | nil => rfl
  | cons m seg ih =>
    cases cs with
    | nil => simp at h
    | cons c cs =>
      rw [List.length_cons, List.length_cons, Nat.add_right_cancel_iff] at h
      simp only [List.zipWith_cons_cons, List.map_cons, hf, ih cs h]

/-- Rounding changes nothing but corners. -/
theorem map_rounded {β : Type} (f : Message → β) (hf : ∀ m c, f (m.withCorners c) = f m)
    (seg : List Message) : (rounded seg).map f = seg.map f :=
  map_zipWith_withCorners f hf seg _ (length_roundings _).symm

@[simp] theorem length_rounded (seg : List Message) : (rounded seg).length = seg.length := by
  simp [rounded]

theorem rounded_eq_nil {seg : List Message} : rounded seg = [] ↔ seg = [] := by
  rw [← List.length_eq_zero_iff, length_rounded, List.length_eq_zero_iff]

theorem map_corners_rounded (seg : List Message) :
    (rounded seg).map Message.corners = roundings seg.length := by
  suffices h : ∀ (seg : List Message) (cs : List Rounding), seg.length = cs.length →
      (seg.zipWith Message.withCorners cs).map Message.corners = cs from
    h seg _ (length_roundings _).symm
  intro seg
  induction seg with
  | nil =>
    intro cs h
    exact (List.length_eq_zero_iff.mp h.symm).symm
  | cons m seg ih =>
    intro cs h
    cases cs with
    | nil => simp at h
    | cons c cs =>
      rw [List.length_cons, List.length_cons, Nat.add_right_cancel_iff] at h
      simp only [List.zipWith_cons_cons, List.map_cons, Message.corners_withCorners, ih cs h]

theorem zipWith_replicate (seg : List Message) (c : Rounding) (last : Message) (d : Rounding) :
    (seg ++ [last]).zipWith Message.withCorners (List.replicate seg.length c ++ [d]) =
      seg.map (fun m => m.withCorners c) ++ [last.withCorners d] := by
  induction seg with
  | nil => rfl
  | cons m seg ih =>
    simp only [List.cons_append, List.length_cons, List.replicate_succ, List.zipWith_cons_cons, ih,
      List.map_cons]

/-- A section of at least two bubbles. -/
theorem rounded_cons_concat (first : Message) (seg : List Message) (last : Message) :
    rounded (first :: (seg ++ [last])) =
      first.withCorners .top ::
        (seg.map (fun m => m.withCorners .middle) ++ [last.withCorners .bottom]) := by
  rw [rounded, List.length_cons, List.length_append, List.length_singleton, roundings,
    List.zipWith_cons_cons, zipWith_replicate]

/-- How the rounding of a section that ends in `a` changes when `m` joins it: the
last bubble, whether it is `a` itself or a copy `prev` of it, is rounded again. -/
theorem rounded_concat_concat (seg : List Message) (a prev m : Message) :
    rounded (seg ++ [prev, m]) =
      (rounded (seg ++ [a])).dropLast ++
        [prev.withCorners (if (seg ++ [a]).length = 1 then .top else .middle),
          m.withCorners .bottom] := by
  cases seg with
  | nil => rfl
  | cons first seg =>
    have hlen : ¬ (first :: seg ++ [a]).length = 1 := by simp
    have hcons : first :: seg ++ [prev, m] = first :: ((seg ++ [prev]) ++ [m]) := by simp
    rw [if_neg hlen, hcons, rounded_cons_concat, List.cons_append, rounded_cons_concat]
    simp [List.dropLast_cons_of_ne_nil]

/-- The last bubble of a section. -/
theorem rounded_concat (seg : List Message) (a : Message) :
    rounded (seg ++ [a]) = (rounded (seg ++ [a])).dropLast ++
      [a.withCorners (if (seg ++ [a]).length = 1 then .basic else .bottom)] := by
  cases seg with
  | nil => rfl
  | cons first seg =>
    have hlen : ¬ (first :: seg ++ [a]).length = 1 := by simp
    rw [if_neg hlen, List.cons_append, rounded_cons_concat, ← List.cons_append,
      List.dropLast_concat]

/-! ## The layout -/

theorem nil_notMem_layout (shown : List Message) : [] ∉ layout shown := by
  intro h
  obtain ⟨seg, hseg, hnil⟩ := List.mem_map.mp h
  exact List.ne_nil_of_mem_splitBy hseg (rounded_eq_nil.mp hnil)

/-- The layout holds the messages in their order, with everything but corners as
it was. -/
theorem map_flatten_layout {β : Type} (f : Message → β) (hf : ∀ m c, f (m.withCorners c) = f m)
    (shown : List Message) : (layout shown).flatten.map f = shown.map f := by
  have h : (layout shown).map (List.map f) = (shown.splitBy sameRun).map (List.map f) := by
    rw [layout, List.map_map]
    exact List.map_congr_left fun seg _ => map_rounded f hf seg
  rw [List.map_flatten, h, ← List.map_flatten, List.flatten_splitBy]

theorem sameRun_congr {a a' b b' : Message} (ha : a.core = a'.core) (hb : b.core = b'.core) :
    sameRun a b = sameRun a' b' := by
  simp only [sameRun, Message.origin_eq_of_core ha, Message.origin_eq_of_core hb,
    Message.date_eq_of_core ha, Message.date_eq_of_core hb, Message.userId_eq_of_core ha,
    Message.userId_eq_of_core hb]

/-- Up to seen flags, the layout depends on the messages up to seen flags and
corners. -/
theorem layout_map_core (shown : List Message) :
    layout (shown.map Message.core) =
      (layout shown).map (List.map fun m => { m with seen := false }) := by
  have hcut : (shown.map Message.core).splitBy sameRun =
      (shown.splitBy sameRun).map (List.map Message.core) :=
    Segments.splitBy_map Message.core (fun a b => sameRun_congr rfl rfl) shown
  have hround (seg : List Message) : rounded (seg.map Message.core) =
      (rounded seg).map fun m => { m with seen := false } := by
    rw [rounded, rounded, List.length_map, List.zipWith_map_left, List.map_zipWith]
    rfl
  rw [layout, hcut, layout, List.map_map, List.map_map]
  exact List.map_congr_left fun seg _ => hround seg

/-- The list shown after `m` is appended, when `prev` is the working list's copy of
the message before it: a message that joins the last section brings `prev` along. -/
def extend (shown : List Message) (prev? : Option Message) (m : Message) : List Message :=
  match prev? with
  | none => shown ++ [m]
  | some prev => if sameRun prev m then shown.dropLast ++ [prev, m] else shown ++ [m]

/-- The end of a non-empty layout, and what it becomes when a message is appended. -/
theorem layout_append_singleton (shown : List Message) (a : Message) :
    ∃ before seg, layout (shown ++ [a]) = before ++ [rounded (seg ++ [a])] ∧
      ∀ prev m, prev.core = a.core →
        (sameRun prev m = true →
          layout (shown ++ [prev, m]) = before ++ [rounded (seg ++ [prev, m])]) ∧
        (sameRun prev m = false →
          layout (shown ++ [a] ++ [m]) =
            before ++ [rounded (seg ++ [a])] ++ [[m.withCorners .basic]]) := by
  obtain ⟨l₀, seg', hsplit, hne, hchain, hbreak⟩ :=
    Segments.exists_lastSegment (r := sameRun) (l := shown ++ [a]) (by simp)
  -- the last segment ends in `a`
  obtain ⟨seg, a', rfl⟩ : ∃ seg a', seg' = seg ++ [a'] :=
    ⟨seg'.dropLast, seg'.getLast hne, (List.dropLast_append_getLast hne).symm⟩
  rw [← List.append_assoc] at hsplit
  obtain ⟨rfl, ha⟩ := List.append_inj' hsplit rfl
  obtain rfl : a = a' := by simpa using ha
  have hcut := Segments.splitBy_append_of_isChain hne hchain hbreak
  have hlayout : layout (l₀ ++ seg ++ [a]) = layout l₀ ++ [rounded (seg ++ [a])] := by
    rw [List.append_assoc, layout, hcut, List.map_append, List.map_singleton, ← layout]
  refine ⟨layout l₀, seg, hlayout, fun prev m hprev => ⟨fun hrun => ?_, fun hrun => ?_⟩⟩
  · have hlike : ∀ x, sameRun x prev = sameRun x a := fun x => sameRun_congr rfl hprev
    have hcut' := Segments.splitBy_append_of_isChain (by simp)
      (Segments.isChain_replaceLast hlike hrun hchain) (hbreak.replaceLast hlike [m])
    rw [List.append_assoc, layout, hcut', List.map_append, List.map_singleton, ← layout]
  · have hend : ∀ x ∈ (l₀ ++ seg ++ [a]).getLast?, sameRun x m = false := by
      intro x hx
      obtain rfl : a = x := by simpa using hx
      rw [← sameRun_congr hprev rfl]
      exact hrun
    rw [layout, List.splitBy_append_cons [] hend, List.map_append, ← layout, hlayout]
    rfl

/-! ## Growing a layout -/

theorem length_flatten_layout (shown : List Message) :
    (layout shown).flatten.length = shown.length := by
  have h := congrArg List.length (map_flatten_layout Message.id Message.id_withCorners shown)
  rwa [List.length_map, List.length_map] at h

/-- One more message rounds the bubble before it again if it joins its section, and no
other. -/
theorem flatten_layout_concat (shown : List Message) (a m : Message) :
    ∃ init c c' d, (layout (shown ++ [a])).flatten = init ++ [a.withCorners c] ∧
      (layout (shown ++ [a] ++ [m])).flatten = init ++ [a.withCorners c'] ++ [m.withCorners d] ∧
      (c' = c ↔ sameRun a m = false) := by
  obtain ⟨before, seg, hlayout, hnext⟩ := layout_append_singleton shown a
  obtain ⟨hjoins, hbreaks⟩ := hnext a m rfl
  set c : Rounding := if (seg ++ [a]).length = 1 then .basic else .bottom with hc
  have hlast : rounded (seg ++ [a]) = (rounded (seg ++ [a])).dropLast ++ [a.withCorners c] :=
    rounded_concat seg a
  have hflatten : (layout (shown ++ [a])).flatten =
      before.flatten ++ (rounded (seg ++ [a])).dropLast ++ [a.withCorners c] := by
    rw [hlayout, List.flatten_append, List.flatten_singleton, List.append_assoc, ← hlast]
  cases hrun : sameRun a m with
  | true =>
    refine ⟨_, c, if (seg ++ [a]).length = 1 then .top else .middle, .bottom, hflatten, ?_, ?_⟩
    · rw [List.append_assoc, List.singleton_append, hjoins hrun, List.flatten_append,
        List.flatten_singleton, rounded_concat_concat seg a a m]
      simp
    · refine iff_of_false ?_ Bool.true_eq_false.mp
      rw [hc]
      split <;> exact Rounding.noConfusion
  | false =>
    refine ⟨_, c, c, .basic, hflatten, ?_, iff_of_true rfl rfl⟩
    rw [hbreaks hrun, List.flatten_append, List.flatten_singleton, ← hlayout, hflatten]

/-- Of what is displayed, all but the last bubble stays whatever is added. -/
theorem dropLast_flatten_layout_isPrefix (shown batch : List Message) :
    (layout shown).flatten.dropLast <+: (layout (shown ++ batch)).flatten := by
  induction batch using List.reverseRecOn with
  | nil =>
    rw [List.append_nil]
    exact List.dropLast_prefix _
  | append_singleton batch m ih =>
    rcases List.eq_nil_or_concat' (shown ++ batch) with hnil | ⟨before, a, hsplit⟩
    · rw [(List.append_eq_nil_iff.mp hnil).1]
      exact List.nil_prefix
    · obtain ⟨init, c, c', d, hold, hnew, -⟩ := flatten_layout_concat before a m
      rw [← List.append_assoc, hsplit, hnew, List.append_assoc]
      rw [hsplit, hold] at ih
      have hlen : (layout shown).flatten.dropLast.length ≤ init.length := by
        have hshown := congrArg List.length hsplit
        have hinit := congrArg List.length hold
        rw [length_flatten_layout] at hinit
        rw [List.length_dropLast, length_flatten_layout]
        simp only [List.length_append, List.length_singleton] at hshown hinit
        omega
      exact (List.prefix_of_prefix_length_le ih (List.prefix_append init _) hlen).trans
        (List.prefix_append init _)

/-- **Growing a layout.** A batch rounds the bubble before it again if its first message
joins the last section, and no other. -/
theorem flatten_layout_append_cons (shown : List Message) (a first : Message)
    (rest : List Message) :
    ∃ init c c' tail, (layout (shown ++ [a])).flatten = init ++ [a.withCorners c] ∧
      (layout (shown ++ [a] ++ first :: rest)).flatten = init ++ [a.withCorners c'] ++ tail ∧
      (c' = c ↔ sameRun a first = false) := by
  obtain ⟨init, c, c', d, hold, hnew, hrun⟩ := flatten_layout_concat shown a first
  have hprefix := dropLast_flatten_layout_isPrefix (shown ++ [a] ++ [first]) rest
  rw [hnew, List.dropLast_concat, List.append_assoc _ [first], List.singleton_append] at hprefix
  obtain ⟨tail, htail⟩ := hprefix
  exact ⟨init, c, c', tail, hold, htail.symm, hrun⟩

end MoonMessenger
