import MoonMessenger.ChatView
import MoonMessenger.Layout

/-!
# The builder computes the layout

`Laid data drawn shown`: the snapshot shows the list `shown` in its layout. One
iteration of the builder's loop takes a snapshot laid out for `shown` to one laid
out for `extend shown prev m` (`DataBuilder.step_laid`); by the loop rule, `build` lays out
the old items followed by the batch (`Laid.build`). What is shown of the old items
can differ from the builder's working list in seen flags, except for the last one
if the batch joins its section: `attach` says exactly how.

Conversely an iteration goes through only if it has a new message to append
(`DataBuilder.id_notMem_of_step`): so whatever `build` is given, if it does not trap it
leaves a layout (`Laid.of_build`).
-/

namespace MoonMessenger

/-- `data` shows the messages `shown`, up to their corners, in their layout; the
section ids are among the first `drawn`. -/
structure Laid (data : Snapshot Section Message) (drawn : ℕ) (shown : List Message) : Prop where
  sections : data.sections.map Prod.snd = layout shown
  origin : ∀ p ∈ data.sections, ∀ m ∈ p.2, m.origin = p.1.origin
  fresh : ∀ sec ∈ data.sectionIdentifiers, sec.id < drawn

namespace Laid

variable {data : Snapshot Section Message} {drawn : ℕ} {shown : List Message}

theorem empty (drawn : ℕ) : Laid .empty drawn [] where
  sections := rfl
  origin _ hp := absurd hp List.not_mem_nil
  fresh _ hsec := absurd hsec List.not_mem_nil

theorem itemIdentifiers (h : Laid data drawn shown) :
    data.itemIdentifiers = (layout shown).flatten := by
  rw [← h.sections, Snapshot.itemIdentifiers, List.flatMap_def]

/-- The snapshot and the list agree on every field but the corners. -/
theorem map_itemIdentifiers {β : Type} (f : Message → β)
    (hf : ∀ m c, f (m.withCorners c) = f m) (h : Laid data drawn shown) :
    data.itemIdentifiers.map f = shown.map f := by
  rw [h.itemIdentifiers, map_flatten_layout f hf]

theorem length_itemIdentifiers (h : Laid data drawn shown) :
    data.itemIdentifiers.length = shown.length := by
  have := congrArg List.length (h.map_itemIdentifiers Message.core Message.core_withCorners)
  rwa [List.length_map, List.length_map] at this

theorem pairwise_distinct_iff {ms : List Message} :
    ms.Pairwise Distinct ↔ (ms.map Message.id).Nodup := by
  rw [List.Nodup, List.pairwise_map]
  exact ⟨List.Pairwise.imp fun h => Message.beq_eq_false.mp h,
    List.Pairwise.imp fun h => Message.beq_eq_false.mpr h⟩

theorem nodup_ids (h : Laid data drawn shown) : (shown.map Message.id).Nodup := by
  rw [← h.map_itemIdentifiers Message.id Message.id_withCorners]
  exact pairwise_distinct_iff.mp data.distinct_items

/-- A non-empty laid out snapshot ends in a section that ends in the last message. -/
theorem exists_last {a : Message} (h : Laid data drawn (shown ++ [a]))
    {before : List (List Message)} {seg : List Message}
    (hlayout : layout (shown ++ [a]) = before ++ [rounded (seg ++ [a])]) :
    ∃ rest sec, data.sections = rest ++ [(sec, rounded (seg ++ [a]))] ∧
      rest.map Prod.snd = before ∧ ∀ x ∈ seg ++ [a], x.origin = sec.origin := by
  have hs := h.sections
  rw [hlayout] at hs
  obtain ⟨rest, last, hsplit, hrest, hlast⟩ := List.map_eq_append_iff.mp hs
  obtain ⟨⟨sec, items⟩, rfl, hitems⟩ := List.map_eq_singleton_iff.mp hlast
  obtain rfl : items = rounded (seg ++ [a]) := hitems
  refine ⟨rest, sec, hsplit, hrest, fun x hx => ?_⟩
  -- the section holds a rounded copy of `x`
  have hmem : x.origin ∈ (rounded (seg ++ [a])).map Message.origin := by
    rw [map_rounded Message.origin Message.origin_withCorners]
    exact List.mem_map_of_mem hx
  obtain ⟨m, hm, hmx⟩ := List.mem_map.mp hmem
  rw [← hmx]
  exact h.origin (sec, rounded (seg ++ [a])) (by rw [hsplit]; simp) m hm

/-- A new section, under the next section id, for one more message. -/
theorem newSection (h : Laid data drawn shown) {data' : Snapshot Section Message}
    {shown' : List Message} {m : Message}
    (hs : data'.sections = data.sections ++ [(⟨drawn, m.origin⟩, [m.withCorners .basic])])
    (hlayout : layout shown' = layout shown ++ [[m.withCorners .basic]]) :
    Laid data' (drawn + 1) shown' where
  sections := by
    rw [hs, List.map_append, h.sections, hlayout]
    rfl
  origin := by
    rw [hs]
    intro p hp m' hm'
    rcases List.mem_append.mp hp with hp | hp
    · exact h.origin p hp m' hm'
    · obtain rfl := List.mem_singleton.mp hp
      obtain rfl := List.mem_singleton.mp hm'
      rfl
  fresh := by
    rw [Snapshot.sectionIdentifiers, hs, List.map_append]
    intro sec hsec
    rcases List.mem_append.mp hsec with hsec | hsec
    · exact Nat.lt_succ_of_lt (h.fresh sec hsec)
    · obtain rfl := List.mem_singleton.mp hsec
      exact Nat.lt_succ_self _

/-- The last section grows from `seg` to `seg'`. -/
theorem grow (h : Laid data drawn shown) {data' : Snapshot Section Message}
    {shown' : List Message} {rest : List (Section × List Message)} {sec : Section}
    {items seg' : List Message} (hlast : data.sections = rest ++ [(sec, items)])
    (hs : data'.sections = rest ++ [(sec, rounded seg')])
    (horigin : ∀ x ∈ seg', x.origin = sec.origin)
    (hlayout : layout shown' = rest.map Prod.snd ++ [rounded seg']) :
    Laid data' drawn shown' where
  sections := by
    rw [hs, hlayout, List.map_append]
    rfl
  origin := by
    rw [hs]
    intro p hp m hm
    rcases List.mem_append.mp hp with hp | hp
    · exact h.origin p (by rw [hlast]; exact List.mem_append_left _ hp) m hm
    · obtain rfl := List.mem_singleton.mp hp
      have hmem := List.mem_map_of_mem (f := Message.origin) hm
      rw [map_rounded Message.origin Message.origin_withCorners] at hmem
      obtain ⟨x, hx, hxm⟩ := List.mem_map.mp hmem
      rw [← hxm]
      exact horigin x hx
  fresh := by
    have hids : data'.sectionIdentifiers = data.sectionIdentifiers := by
      rw [Snapshot.sectionIdentifiers, Snapshot.sectionIdentifiers, hs, hlast, List.map_append,
        List.map_append]
      rfl
    rw [hids]
    exact h.fresh

end Laid

/-! ## One iteration -/

namespace DataBuilder

variable {b : DataBuilder} {shown : List Message} {m : Message} {i : ℕ}

/-- The loop skips what the snapshot already holds. -/
theorem step_skip (h : i < b.data.itemIdentifiers.length) : b.step i = some b := by
  rw [step, if_pos h]
  rfl

/-- The branch that opens a new section. -/
theorem step_newSection (hlaid : Laid b.data b.drawn shown)
    (hi : b.data.itemIdentifiers.length ≤ i) (hm : b.messages[i]? = some m)
    (hnew : m.id ∉ shown.map Message.id)
    (hcond : b.continuesLastSection i m = some false) :
    ∃ b', b.step i = some b' ∧ b'.messages = b.messages ∧ b'.drawn = b.drawn + 1 ∧
      b'.data.sections = b.data.sections ++ [(⟨b.drawn, m.origin⟩, [m.withCorners .basic])] := by
  have hfresh : (b.data.sectionIdentifiers ++ [Section.init b.drawn m.origin]).Nodup := by
    rw [List.nodup_append]
    refine ⟨b.data.nodup_sections, List.nodup_singleton _, ?_⟩
    intro sec hsec sec' hsec' heq
    obtain rfl := List.mem_singleton.mp hsec'
    have := hlaid.fresh sec hsec
    rw [heq] at this
    exact absurd this (Nat.lt_irrefl _)
  obtain ⟨d₁, hd₁, hs₁⟩ := Snapshot.appendSections_eq_some hfresh
  rw [List.map_singleton] at hs₁
  have hitems : d₁.itemIdentifiers = b.data.itemIdentifiers := by
    rw [Snapshot.itemIdentifiers_of_last hs₁, List.append_nil]
    rfl
  have hdistinct : (d₁.itemIdentifiers ++ [m.withCorners .basic]).Pairwise Distinct := by
    rw [Laid.pairwise_distinct_iff, hitems, List.map_append,
      hlaid.map_itemIdentifiers Message.id Message.id_withCorners]
    exact List.nodup_append_comm.mp (List.nodup_cons.mpr ⟨hnew, hlaid.nodup_ids⟩)
  obtain ⟨d₂, hd₂, hs₂⟩ := Snapshot.appendItems_last hs₁ hdistinct
    d₁.sectionIdentifiers.getLast? (by rw [Snapshot.getLast?_sectionIdentifiers hs₁]; rfl)
  refine ⟨{ b with data := d₂, drawn := b.drawn + 1 }, ?_, rfl, rfl, hs₂⟩
  simp [step, Nat.not_lt.mpr hi, hm, hcond, hd₁, hd₂]

/-- The last bubble, `x`, is replaced by the working list's copy `prev` of it. -/
theorem replaceLast_last {rest : List (Section × List Message)} {sec : Section}
    {init : List Message} {x prev : Message}
    (hlast : b.data.sections = rest ++ [(sec, init ++ [x])]) (hx : x.id = prev.id)
    (hprev : b.messages[i - 1]? = some prev) (c : Rounding) :
    ∃ data, b.replaceLast i c = some data ∧
      data.sections = rest ++ [(sec, init ++ [prev.withCorners c])] := by
  have hitems : b.data.itemIdentifiers = rest.flatMap Prod.snd ++ init ++ [x] := by
    rw [Snapshot.itemIdentifiers_of_last hlast, List.append_assoc]
  have hids : ((rest.flatMap Prod.snd ++ init).map Message.id ++ [x.id]).Nodup := by
    have := Laid.pairwise_distinct_iff.mp b.data.distinct_items
    rwa [← Snapshot.itemIdentifiers, hitems, List.map_append] at this
  have hdel := Snapshot.deleteItems_last hlast
  have hdistinct : ((b.data.deleteItems [x]).itemIdentifiers ++ [prev.withCorners c]).Pairwise
      Distinct := by
    rw [Laid.pairwise_distinct_iff, Snapshot.itemIdentifiers_of_last hdel, List.map_append]
    simpa [hx] using hids
  obtain ⟨data, hdata, hs⟩ := Snapshot.appendItems_last hdel hdistinct
    b.data.sectionIdentifiers.getLast? (by rw [Snapshot.getLast?_sectionIdentifiers hlast]; rfl)
  exact ⟨data, by simp [replaceLast, hitems, hprev, hdata], hs⟩

/-- The last bubble of a section that ends in `a`, and the section without it. -/
theorem exists_rounded_last (seg : List Message) {a prev : Message} (hcore : prev.core = a.core) :
    ∃ init x, rounded (seg ++ [a]) = init ++ [x] ∧ x.id = prev.id := by
  have hne : rounded (seg ++ [a]) ≠ [] := by rw [Ne, rounded_eq_nil]; simp
  refine ⟨_, _, (List.dropLast_append_getLast hne).symm, ?_⟩
  have h := map_rounded Message.id Message.id_withCorners (seg ++ [a])
  rw [← List.dropLast_append_getLast hne, List.map_append, List.map_append] at h
  have := (List.append_inj' h rfl).2
  rw [Message.id_eq_of_core hcore]
  simpa using this

/-- The branch that joins the last section, which ends in `a`; `prev` is the working
list's copy of `a`. -/
theorem step_joins {rest : List (Section × List Message)} {sec : Section} {seg : List Message}
    {a prev : Message} (hlast : b.data.sections = rest ++ [(sec, rounded (seg ++ [a]))])
    (hi : b.data.itemIdentifiers.length ≤ i) (hm : b.messages[i]? = some m)
    (hprev : b.messages[i - 1]? = some prev) (hcore : prev.core = a.core)
    (hnew : m.id ∉ b.data.itemIdentifiers.map Message.id)
    (hcond : b.continuesLastSection i m = some true) :
    ∃ b', b.step i = some b' ∧ b'.messages = b.messages ∧ b'.drawn = b.drawn ∧
      b'.data.sections = rest ++ [(sec, rounded (seg ++ [prev, m]))] := by
  set c : Rounding := if (seg ++ [a]).length = 1 then .top else .middle with hc
  obtain ⟨init, x, hsplit, hx⟩ := exists_rounded_last seg hcore
  rw [hsplit] at hlast
  have hsec := Snapshot.getLast?_sectionIdentifiers hlast
  have hcount : b.count sec = some (seg ++ [a]).length := by
    rw [count, Snapshot.itemIdentifiersInSection_last hlast, ← hsplit, Option.map_some,
      length_rounded]
  obtain ⟨d₁, hreplace, hs₁⟩ := replaceLast_last hlast hx hprev c
  -- append the new bubble
  have hdistinct : (d₁.itemIdentifiers ++ [m.withCorners .bottom]).Pairwise Distinct := by
    have hids : d₁.itemIdentifiers.map Message.id = b.data.itemIdentifiers.map Message.id := by
      rw [Snapshot.itemIdentifiers_of_last hs₁, Snapshot.itemIdentifiers_of_last hlast]
      simp [hx]
    rw [Laid.pairwise_distinct_iff, List.map_append, hids]
    exact List.nodup_append_comm.mp
      (List.nodup_cons.mpr ⟨hnew, Laid.pairwise_distinct_iff.mp b.data.distinct_items⟩)
  obtain ⟨d₂, hd₂, hs₂⟩ := Snapshot.appendItems_last hs₁ hdistinct
    d₁.sectionIdentifiers.getLast? (by rw [Snapshot.getLast?_sectionIdentifiers hs₁]; rfl)
  refine ⟨{ b with data := d₂ }, ?_, rfl, rfl, ?_⟩
  · by_cases hlen : (seg ++ [a]).length = 1
    · rw [hc, if_pos hlen] at hreplace
      rw [hlen] at hcount
      simp [step, Nat.not_lt.mpr hi, hm, hcond, hsec, hcount, hreplace, hd₂]
    · rw [hc, if_neg hlen] at hreplace
      simp only [step, Nat.not_lt.mpr hi, hm, hcond, hsec, hcount, hlen, hreplace,
        Message.changing_corners, hd₂, if_true, if_false, Option.bind_eq_bind, Option.bind_some,
        Option.pure_def]
  · rw [hs₂, rounded_concat_concat seg a prev m, hsplit, List.dropLast_concat]
    simp [hc]

/-- Nothing continues an empty snapshot. -/
theorem continuesLastSection_nil (hlaid : Laid b.data b.drawn []) :
    b.continuesLastSection i m = some false := by
  have hs : b.data.sections = [] := List.map_eq_nil_iff.mp hlaid.sections
  simp [continuesLastSection, Snapshot.sectionIdentifiers, hs]

/-- Where there is a message before, the loop decides by `sameRun`: the origin of the
last section is that of its last message. -/
theorem continuesLastSection_concat {a prev : Message}
    (hlaid : Laid b.data b.drawn (shown ++ [a])) (hi : 1 ≤ i)
    (hprev : b.messages[i - 1]? = some prev) (hcore : prev.core = a.core) :
    b.continuesLastSection i m = some (sameRun prev m) := by
  obtain ⟨before, seg, hlayout, -⟩ := layout_append_singleton shown a
  obtain ⟨rest, sec, hs, -, horigin⟩ := hlaid.exists_last hlayout
  have ha : sec.origin = prev.origin := by
    rw [Message.origin_eq_of_core hcore, horigin a (by simp)]
  rw [continuesLastSection, Snapshot.getLast?_sectionIdentifiers hs, Option.map_some, ha, hprev,
    sameRun]
  by_cases ho : prev.origin = m.origin
  · simp [ho, hi]
  · simp [ho]

/-- The working list's copy of the last message shown. -/
theorem exists_prev {a : Message} (hi : 1 ≤ i) (hlt : i < b.messages.length)
    (hcore : (b.messages.take i).map Message.core = (shown ++ [a]).map Message.core) :
    ∃ prev, (b.messages.take i).getLast? = some prev ∧ b.messages[i - 1]? = some prev ∧
      prev.core = a.core := by
  obtain ⟨msgs, prev, hsplit, hprev⟩ := exists_last_of_map hcore.symm List.getLast?_concat
  refine ⟨prev, by rw [hsplit, List.getLast?_concat], ?_, hprev⟩
  have h := congrArg List.getLast? hsplit
  rw [List.getLast?_concat, List.getLast?_take, if_neg (by omega),
    List.getElem?_eq_getElem (by omega), Option.some_or] at h
  rw [List.getElem?_eq_getElem (by omega)]
  exact h

/-- A section that a message joins still has the origin of its messages. -/
theorem origin_of_joins {seg : List Message} {a prev : Message} {o : Origin}
    (ho : ∀ x ∈ seg ++ [a], x.origin = o) (hcore : prev.core = a.core)
    (hrun : sameRun prev m = true) : ∀ x ∈ seg ++ [prev, m], x.origin = o := by
  have hprev : prev.origin = o := by rw [Message.origin_eq_of_core hcore, ho a (by simp)]
  have hm : prev.origin = m.origin := by
    rw [sameRun, Bool.and_eq_true, Bool.and_eq_true, decide_eq_true_eq] at hrun
    exact hrun.1.1
  intro x hx
  rcases List.mem_append.mp hx with hx | hx
  · exact ho x (List.mem_append_left _ hx)
  · rcases List.mem_pair.mp hx with rfl | rfl
    · exact hprev
    · rw [← hm, hprev]

/-- **One iteration.** The body of the loop appends the first message that the
snapshot does not show yet. -/
theorem step_laid (hlaid : Laid b.data b.drawn shown)
    (hcore : (b.messages.take i).map Message.core = shown.map Message.core)
    (hm : b.messages[i]? = some m) (hnew : m.id ∉ shown.map Message.id) :
    ∃ b', b.step i = some b' ∧ b'.messages = b.messages ∧
      Laid b'.data b'.drawn (extend shown (b.messages.take i).getLast? m) := by
  have hlt : i < b.messages.length := (List.getElem?_eq_some_iff.mp hm).1
  have hlen : shown.length = i := by
    have := congrArg List.length hcore
    rw [List.length_map, List.length_map, List.length_take_of_le hlt.le] at this
    exact this.symm
  have hi : b.data.itemIdentifiers.length ≤ i := by rw [hlaid.length_itemIdentifiers, hlen]
  rcases List.eq_nil_or_concat' shown with rfl | ⟨shown, a, rfl⟩
  · -- the first message of the conversation
    obtain rfl : i = 0 := hlen.symm
    obtain ⟨b', hb', hmsgs, hdrawn, hs⟩ :=
      step_newSection hlaid hi hm hnew (continuesLastSection_nil hlaid)
    exact ⟨b', hb', hmsgs, by rw [hdrawn]; exact hlaid.newSection hs rfl⟩
  · obtain ⟨before, seg, hlayout, hnext⟩ := layout_append_singleton shown a
    obtain ⟨rest, sec, hlast, hrest, horigin⟩ := hlaid.exists_last hlayout
    have hpos : 1 ≤ i := by rw [← hlen]; simp
    obtain ⟨prev, hgetLast, hprev, hprevcore⟩ := exists_prev hpos hlt hcore
    have hcond := continuesLastSection_concat (m := m) hlaid hpos hprev hprevcore
    rw [hgetLast, extend]
    rcases hrun : sameRun prev m with - | -
    · rw [hrun] at hcond
      obtain ⟨b', hb', hmsgs', hdrawn, hs⟩ := step_newSection hlaid hi hm hnew hcond
      refine ⟨b', hb', hmsgs', ?_⟩
      rw [hdrawn, if_neg Bool.false_ne_true]
      exact hlaid.newSection hs (by rw [(hnext prev m hprevcore).2 hrun, hlayout])
    · rw [hrun] at hcond
      have hnew' : m.id ∉ b.data.itemIdentifiers.map Message.id := by
        rwa [hlaid.map_itemIdentifiers Message.id Message.id_withCorners]
      obtain ⟨b', hb', hmsgs', hdrawn, hs⟩ :=
        step_joins hlast hi hm hprev hprevcore hnew' hcond
      have horigins := origin_of_joins horigin hprevcore hrun
      refine ⟨b', hb', hmsgs', ?_⟩
      rw [hdrawn, if_pos rfl, List.dropLast_concat]
      exact hlaid.grow hlast hs horigins (by rw [(hnext prev m hprevcore).1 hrun, hrest])

/-- The two ways to append a message. -/
theorem step_cases {b' : DataBuilder} (hi : b.data.itemIdentifiers.length ≤ i)
    (hm : b.messages[i]? = some m) (h : b.step i = some b') :
    (b.continuesLastSection i m = some true ∧ ∃ c data data', b.replaceLast i c = some data ∧
      data.appendItems [m.withCorners .bottom] data.sectionIdentifiers.getLast? = some data' ∧
      b' = { b with data := data' }) ∨
    (b.continuesLastSection i m = some false ∧ ∃ data data',
      b.data.appendSections [Section.init b.drawn m.origin] = some data ∧
      data.appendItems [m.withCorners .basic] data.sectionIdentifiers.getLast? = some data' ∧
      b' = { b with data := data', drawn := b.drawn + 1 }) := by
  simp only [step, if_neg (Nat.not_lt.mpr hi), hm, Option.bind_eq_bind, Option.bind_some,
    Message.changing_corners, Option.pure_def] at h
  obtain ⟨joins, hjoins, h⟩ := Option.bind_eq_some_iff.mp h
  cases joins with
  | true =>
    simp only [if_true] at h
    obtain ⟨sec, -, h⟩ := Option.bind_eq_some_iff.mp h
    obtain ⟨n, -, h⟩ := Option.bind_eq_some_iff.mp h
    refine Or.inl ⟨hjoins, ?_⟩
    split at h
    · obtain ⟨data, hdata, h⟩ := Option.bind_eq_some_iff.mp h
      obtain ⟨data', hdata', h⟩ := Option.bind_eq_some_iff.mp h
      exact ⟨.top, data, data', hdata, hdata', (Option.some.inj h).symm⟩
    · obtain ⟨data, hdata, h⟩ := Option.bind_eq_some_iff.mp h
      obtain ⟨data', hdata', h⟩ := Option.bind_eq_some_iff.mp h
      exact ⟨.middle, data, data', hdata, hdata', (Option.some.inj h).symm⟩
  | false =>
    simp only [Bool.false_eq_true, if_false] at h
    obtain ⟨data, hdata, h⟩ := Option.bind_eq_some_iff.mp h
    obtain ⟨data', hdata', h⟩ := Option.bind_eq_some_iff.mp h
    exact Or.inr ⟨hjoins, data, data', hdata, hdata', (Option.some.inj h).symm⟩

/-- The last bubble is the working list's copy of it, rounded again: the ids stay. -/
theorem map_id_replaceLast {a prev : Message} {data : Snapshot Section Message} {c : Rounding}
    (hlaid : Laid b.data b.drawn (shown ++ [a])) (hprev : b.messages[i - 1]? = some prev)
    (hcore : prev.core = a.core) (h : b.replaceLast i c = some data) :
    data.itemIdentifiers.map Message.id = b.data.itemIdentifiers.map Message.id := by
  obtain ⟨before, seg, hlayout, -⟩ := layout_append_singleton shown a
  obtain ⟨rest, sec, hlast, -, -⟩ := hlaid.exists_last hlayout
  obtain ⟨init, x, hsplit, hx⟩ := exists_rounded_last seg hcore
  rw [hsplit] at hlast
  obtain ⟨data', hdata', hs⟩ := replaceLast_last hlast hx hprev c
  obtain rfl := Option.some.inj (h.symm.trans hdata')
  rw [Snapshot.itemIdentifiers_of_last hs, Snapshot.itemIdentifiers_of_last hlast]
  simp [hx]

/-- An iteration that goes through had a new message to append. -/
theorem id_notMem_of_step {b' : DataBuilder} (hlaid : Laid b.data b.drawn shown)
    (hcore : (b.messages.take i).map Message.core = shown.map Message.core)
    (hm : b.messages[i]? = some m) (h : b.step i = some b') : m.id ∉ shown.map Message.id := by
  have hlt : i < b.messages.length := (List.getElem?_eq_some_iff.mp hm).1
  have hlen : shown.length = i := by
    have := congrArg List.length hcore
    rw [List.length_map, List.length_map, List.length_take_of_le hlt.le] at this
    exact this.symm
  have hi : b.data.itemIdentifiers.length ≤ i := by rw [hlaid.length_itemIdentifiers, hlen]
  rw [← hlaid.map_itemIdentifiers Message.id Message.id_withCorners]
  -- what is appended differs from the items there are
  have hnotMem {data data' : Snapshot Section Message} {c : Rounding} {sec : Option Section}
      (happend : data.appendItems [m.withCorners c] sec = some data')
      (hids : data.itemIdentifiers.map Message.id = b.data.itemIdentifiers.map Message.id) :
      m.id ∉ b.data.itemIdentifiers.map Message.id := by
    have hnd := Laid.pairwise_distinct_iff.mp (Snapshot.pairwise_of_appendItems happend)
    rw [List.map_append, hids, List.map_singleton, Message.id_withCorners, List.nodup_append] at hnd
    exact fun hmem => hnd.2.2 m.id hmem m.id (List.mem_singleton_self _) rfl
  rcases step_cases hi hm h with ⟨hjoins, c, data, data', hreplace, happend, -⟩ |
    ⟨-, data, data', hsections, happend, -⟩
  · rcases List.eq_nil_or_concat' shown with rfl | ⟨shown, a, rfl⟩
    · rw [continuesLastSection_nil hlaid] at hjoins
      cases hjoins
    · have hpos : 1 ≤ i := by rw [← hlen]; simp
      obtain ⟨prev, -, hprev, hprevcore⟩ := exists_prev hpos hlt hcore
      exact hnotMem happend (map_id_replaceLast hlaid hprev hprevcore hreplace)
  · exact hnotMem happend (by rw [Snapshot.itemIdentifiers_of_appendSections hsections])

end DataBuilder

/-! ## A whole batch -/

/-- The list shown after the batch `new`, where `old` is the working list's copy of
what was shown: a batch that joins the last section brings the copy of its last
message along, the other old messages stay as they were. -/
def attach (shown old : List Message) : List Message → List Message
  | [] => shown
  | m :: rest => extend shown old.getLast? m ++ rest

/-- The flag a message has after `markLastSeen`, when `last` is the last seen id. -/
def markSeen (last : Option UUID) (m : Message) : Message :=
  { m with seen := decide (some m.id = last) }

/-- The id of the last seen message. -/
def lastSeen (ms : List Message) : Option UUID :=
  (ms.filter fun m => m.seen == true).getLast?.map Message.id

/-- The part `ms` of the working list for old items `items` and the batch `batch`. -/
def flagged (items batch ms : List Message) : List Message :=
  if DataBuilder.atLeastOneMessageIsSeen batch then ms.map (markSeen (lastSeen (items ++ batch)))
  else ms

theorem markLastSeen_eq (b : DataBuilder) : b.markLastSeen =
    { b with messages := b.messages.map (markSeen (lastSeen b.messages)) } := by
  have hidx : b.lastSeenIdx = lastSeen b.messages := rfl
  rw [DataBuilder.markLastSeen, hidx]
  congr 1
  refine List.map_congr_left fun m _ => ?_
  by_cases hm : some m.id = lastSeen b.messages
  · rw [if_pos hm, markSeen, decide_eq_true hm]
    rfl
  · rw [if_neg hm, markSeen, decide_eq_false hm]
    rfl

@[simp] theorem core_markSeen (last : Option UUID) (m : Message) :
    (markSeen last m).core = m.core := rfl

theorem map_flagged {β : Type} (f : Message → β) (hf : ∀ last m, f (markSeen last m) = f m)
    (items batch ms : List Message) : (flagged items batch ms).map f = ms.map f := by
  rw [flagged]
  split
  · rw [List.map_map]
    exact List.map_congr_left fun m _ => hf _ m
  · rfl

theorem extend_of_getLast? {shown : List Message} {prev : Message}
    (h : shown.getLast? = some prev) (m : Message) :
    extend shown (some prev) m = shown ++ [m] := by
  obtain ⟨init, rfl⟩ := List.getLast?_eq_some_iff.mp h
  rw [extend]
  split
  · rw [List.dropLast_concat, List.append_assoc]
    rfl
  · rfl

theorem getLast?_extend (shown : List Message) (prev? : Option Message) (m : Message) :
    (extend shown prev? m).getLast? = some m := by
  cases prev? with
  | none => exact List.getLast?_concat
  | some prev =>
    rw [extend]
    split
    · rw [List.getLast?_append_of_ne_nil _ (by simp)]
      rfl
    · exact List.getLast?_concat

theorem map_extend {β : Type} (f : Message → β) {shown old : List Message}
    (h : old.map f = shown.map f) (m : Message) :
    (extend shown old.getLast? m).map f = old.map f ++ [f m] := by
  rcases List.eq_nil_or_concat' old with rfl | ⟨old, prev, rfl⟩
  · rw [List.map_nil, eq_comm, List.map_eq_nil_iff] at h
    subst h
    rfl
  · rw [List.getLast?_concat, extend]
    split
    · have hdrop := congrArg List.dropLast h
      rw [← List.map_dropLast, ← List.map_dropLast, List.dropLast_concat] at hdrop
      simp [← hdrop]
    · simp [← h]

/-- A batch is attached one message at a time. -/
theorem attach_concat (shown old new : List Message) (m : Message) :
    attach shown old (new ++ [m]) = extend (attach shown old new) (old ++ new).getLast? m := by
  cases new with
  | nil => simp [attach]
  | cons m₀ rest =>
    have hne : m₀ :: rest ≠ [] := by simp
    have hlast : (extend shown old.getLast? m₀ ++ rest).getLast? = (m₀ :: rest).getLast? := by
      rw [List.getLast?_append, getLast?_extend, List.getLast?_cons]
      cases rest.getLast? <;> rfl
    rw [List.getLast?_append_of_ne_nil _ hne]
    obtain ⟨prev, hprev⟩ : ∃ prev, (m₀ :: rest).getLast? = some prev :=
      ⟨_, List.getLast?_eq_some_getLast hne⟩
    rw [hprev] at hlast ⊢
    rw [attach, extend_of_getLast? hlast, List.cons_append, attach, List.append_assoc]

/-- What the working list agrees on with the screen is kept. -/
theorem map_attach {β : Type} (f : Message → β) {shown old : List Message}
    (h : old.map f = shown.map f) (new : List Message) :
    (attach shown old new).map f = shown.map f ++ new.map f := by
  cases new with
  | nil => simp [attach]
  | cons m rest => rw [attach, List.map_append, map_extend f h, h]; simp

theorem map_id_of_map_core {xs ys : List Message} (h : xs.map Message.core = ys.map Message.core) :
    xs.map Message.id = ys.map Message.id := by
  have := congrArg (List.map Message.id) h
  rwa [List.map_map, List.map_map] at this

/-- The loop over `old ++ new`, where `old` is a copy of what was shown, before its
iteration `i`: the first `i - old.length` messages of `new` are attached. -/
structure Attaching (shown old new : List Message) (i : ℕ) (b : DataBuilder) : Prop where
  messages : b.messages = old ++ new
  laid : Laid b.data b.drawn (attach shown old (new.take (i - old.length)))

namespace Attaching

variable {shown old new : List Message} {i k : ℕ} {b b' : DataBuilder}

/-- An old message is skipped. -/
theorem step_old (h : Attaching shown old new i b) (hlen : old.length = shown.length)
    (hi : i < old.length) : b.step i = some b ∧ Attaching shown old new (i + 1) b := by
  have hlaid := h.laid
  rw [Nat.sub_eq_zero_of_le hi.le, List.take_zero, attach] at hlaid
  refine ⟨DataBuilder.step_skip (by rw [hlaid.length_itemIdentifiers]; omega), h.messages, ?_⟩
  rwa [Nat.sub_eq_zero_of_le hi, List.take_zero, attach]

/-- The message at hand, and what the working list has before it. -/
theorem current (h : Attaching shown old new (old.length + k) b)
    (hold : old.map Message.core = shown.map Message.core) (hk : k < new.length) :
    b.messages[old.length + k]? = some new[k] ∧
      b.messages.take (old.length + k) = old ++ new.take k ∧
      (b.messages.take (old.length + k)).map Message.core =
        (attach shown old (new.take k)).map Message.core := by
  have htake : b.messages.take (old.length + k) = old ++ new.take k := by
    rw [h.messages, List.take_length_add_append]
  refine ⟨?_, htake, ?_⟩
  · rw [h.messages, List.getElem?_append_right (by omega), Nat.add_sub_cancel_left,
      List.getElem?_eq_getElem hk]
  · rw [htake, map_attach Message.core hold, List.map_append, hold]

/-- A new message is attached. -/
theorem step_new (h : Attaching shown old new (old.length + k) b)
    (hold : old.map Message.core = shown.map Message.core) (hk : k < new.length)
    (hnew : new[k].id ∉ (attach shown old (new.take k)).map Message.id) :
    ∃ b', b.step (old.length + k) = some b' ∧ Attaching shown old new (old.length + k + 1) b' := by
  have hlaid := h.laid
  rw [Nat.add_sub_cancel_left] at hlaid
  obtain ⟨hm, htake, hcore⟩ := h.current hold hk
  obtain ⟨b', hb', hmsgs, hlaid'⟩ := DataBuilder.step_laid hlaid hcore hm hnew
  refine ⟨b', hb', hmsgs.trans h.messages, ?_⟩
  rw [show old.length + k + 1 - old.length = k + 1 by omega, ← List.take_append_getElem hk,
    attach_concat, ← htake]
  exact hlaid'

/-- Every iteration that goes through keeps the invariant. -/
theorem step (h : Attaching shown old new i b)
    (hold : old.map Message.core = shown.map Message.core) (hi : i < (old ++ new).length)
    (hb' : b.step i = some b') : Attaching shown old new (i + 1) b' := by
  have hlen : old.length = shown.length := by simpa using congrArg List.length hold
  rcases Nat.lt_or_ge i old.length with hlt | hge
  · obtain ⟨hb, hnext⟩ := h.step_old hlen hlt
    rwa [← Option.some.inj (hb.symm.trans hb')]
  · obtain ⟨k, rfl⟩ := Nat.exists_eq_add_of_le hge
    rw [List.length_append, Nat.add_lt_add_iff_left] at hi
    have hlaid := h.laid
    rw [Nat.add_sub_cancel_left] at hlaid
    obtain ⟨hm, -, hcore⟩ := h.current hold hi
    have hnew := DataBuilder.id_notMem_of_step hlaid hcore hm hb'
    obtain ⟨b'', hb'', hnext⟩ := h.step_new hold hi hnew
    rwa [← Option.some.inj (hb''.symm.trans hb')]

end Attaching

namespace Laid

variable {data : Snapshot Section Message} {drawn : ℕ} {shown : List Message}

theorem attaching (hlaid : Laid data drawn shown) (old new : List Message) :
    Attaching shown old new 0 ⟨data, old ++ new, drawn⟩ :=
  ⟨rfl, by simpa [attach] using hlaid⟩

/-- **The loop.** Over the working list `old ++ new`, where `old` is a copy of what is
shown, the builder lays out `attach shown old new`. -/
theorem foldlM_step (hlaid : Laid data drawn shown) {old new : List Message}
    (hold : old.map Message.core = shown.map Message.core)
    (hnd : (shown.map Message.id ++ new.map Message.id).Nodup) :
    ∃ b', (List.range (old ++ new).length).foldlM DataBuilder.step ⟨data, old ++ new, drawn⟩ =
      some b' ∧ Laid b'.data b'.drawn (attach shown old new) := by
  have hlen : old.length = shown.length := by simpa using congrArg List.length hold
  have hstep : ∀ i b, i < (old ++ new).length → Attaching shown old new i b →
      ∃ b', b.step i = some b' ∧ Attaching shown old new (i + 1) b' := by
    intro i b hi hb
    rcases Nat.lt_or_ge i old.length with hlt | hge
    · exact ⟨b, hb.step_old hlen hlt⟩
    · obtain ⟨k, rfl⟩ := Nat.exists_eq_add_of_le hge
      rw [List.length_append, Nat.add_lt_add_iff_left] at hi
      refine hb.step_new hold hi ?_
      have hpre : (new.take k ++ [new[k]]).map Message.id <+: new.map Message.id := by
        rw [List.take_append_getElem hi]
        exact (List.take_prefix _ _).map _
      have hnd' := hnd.sublist (List.Sublist.append_left hpre.sublist _)
      rw [map_attach Message.id (map_id_of_map_core hold)]
      rw [List.map_append, ← List.append_assoc, List.map_singleton, List.nodup_append] at hnd'
      exact fun hmem => hnd'.2.2 _ hmem _ (List.mem_singleton_self _) rfl
  obtain ⟨b', hb', hattached⟩ :=
    Runs.foldlM_range_induction (Attaching shown old new) (hlaid.attaching old new) hstep
  have hlaid' := hattached.laid
  rw [List.length_append, Nat.add_sub_cancel_left, List.take_length] at hlaid'
  exact ⟨b', hb', hlaid'⟩

/-- Whenever the loop goes through, that is what it does. -/
theorem of_foldlM_step (hlaid : Laid data drawn shown) {old new : List Message}
    (hold : old.map Message.core = shown.map Message.core) {b' : DataBuilder}
    (h : (List.range (old ++ new).length).foldlM DataBuilder.step ⟨data, old ++ new, drawn⟩ =
      some b') : Laid b'.data b'.drawn (attach shown old new) := by
  have hattached := Runs.foldlM_range_invariant (Attaching shown old new)
    (hlaid.attaching old new) (fun i b b' hi hb => hb.step hold hi) h
  have hlaid' := hattached.laid
  rwa [List.length_append, Nat.add_sub_cancel_left, List.take_length] at hlaid'

/-- The working list's copy of what is shown. -/
theorem map_core_flagged (hlaid : Laid data drawn shown) (batch : List Message) :
    (flagged data.itemIdentifiers batch data.itemIdentifiers).map Message.core =
      shown.map Message.core := by
  rw [map_flagged Message.core core_markSeen,
    hlaid.map_itemIdentifiers Message.core Message.core_withCorners]

end Laid

/-- `build` is the loop over the flagged working list, unless that is empty. -/
theorem build_eq (data : Snapshot Section Message) (drawn : ℕ) (batch : List Message) :
    (DataBuilder.init data drawn).build batch =
      if data.itemIdentifiers ++ batch = [] then none
      else
        let old := flagged data.itemIdentifiers batch data.itemIdentifiers
        let new := flagged data.itemIdentifiers batch batch
        (List.range (old ++ new).length).foldlM DataBuilder.step ⟨data, old ++ new, drawn⟩ := by
  set items := data.itemIdentifiers with hitems
  rw [DataBuilder.build, DataBuilder.init, ← hitems, List.nil_append]
  by_cases hseen : DataBuilder.atLeastOneMessageIsSeen batch = true
  · simp only [flagged, if_pos hseen, ← List.map_append, markLastSeen_eq, List.length_eq_zero_iff,
      List.map_eq_nil_iff]
  · simp only [flagged, if_neg hseen, List.length_eq_zero_iff]

namespace Laid

variable {data : Snapshot Section Message} {drawn : ℕ} {shown batch : List Message}

theorem itemIdentifiers_append_eq_nil (hlaid : Laid data drawn shown) :
    data.itemIdentifiers ++ batch = [] ↔ shown ++ batch = [] := by
  rw [List.append_eq_nil_iff, List.append_eq_nil_iff, ← List.length_eq_zero_iff,
    hlaid.length_itemIdentifiers, List.length_eq_zero_iff]

/-- **`build`.** On a laid out snapshot, a batch of new messages is attached to what is
shown, unless there is nothing to show. -/
theorem build (hlaid : Laid data drawn shown) (hne : shown ++ batch ≠ [])
    (hnd : (shown.map Message.id ++ batch.map Message.id).Nodup) :
    ∃ b', (DataBuilder.init data drawn).build batch = some b' ∧
      Laid b'.data b'.drawn (attach shown (flagged data.itemIdentifiers batch data.itemIdentifiers)
        (flagged data.itemIdentifiers batch batch)) := by
  rw [build_eq, if_neg (mt hlaid.itemIdentifiers_append_eq_nil.mp hne)]
  refine hlaid.foldlM_step (hlaid.map_core_flagged batch) ?_
  rwa [map_flagged Message.id fun _ _ => rfl]

/-- Where there is nothing to show, `build` traps; whenever it does not, it attaches the
batch. -/
theorem of_build (hlaid : Laid data drawn shown) {b' : DataBuilder}
    (h : (DataBuilder.init data drawn).build batch = some b') :
    shown ++ batch ≠ [] ∧
      Laid b'.data b'.drawn (attach shown (flagged data.itemIdentifiers batch data.itemIdentifiers)
        (flagged data.itemIdentifiers batch batch)) := by
  rw [build_eq] at h
  split at h
  · cases h
  · rename_i hne
    exact ⟨mt hlaid.itemIdentifiers_append_eq_nil.mpr hne,
      hlaid.of_foldlM_step (hlaid.map_core_flagged batch) h⟩

end Laid

end MoonMessenger
