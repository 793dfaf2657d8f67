import MoonMessenger.Supplementary

/-!
# Date headers

Two components count the hours between messages: `DateStampBuilder` wants a header where
at least one has passed, but it is asked only at the beginning of a section, and
`DataBuilder` starts a section for the time alone only where more than two have passed.

`datesPauses_iff` says for which conversations they agree.
-/

namespace MoonMessenger

/-- A date header is shown above the message with this id: it is the first of its section,
and the provider makes the header for it. -/
def DateHeaderAbove (relativeTime : Date → String) (data : Snapshot Section Message) (id : UUID) :
    Prop :=
  ∃ sec m text, data.itemIdentifierFor ⟨0, sec⟩ = some m ∧ m.id = id ∧
    supplementaryViewProvider relativeTime data .sectionHeader ⟨0, sec⟩ = some (.dateHeader text)

/-- A date header is shown above the first message and above those that come at least one
whole hour apart from the message before them, and above no other. -/
def DatesPauses (relativeTime : Date → String) (messages : List Message)
    (data : Snapshot Section Message) : Prop :=
  ∀ before m after, messages = before ++ m :: after →
    (DateHeaderAbove relativeTime data m.id ↔
      ∀ prev ∈ before.getLast?, 1 ≤ prev.date.hoursApart m.date)

/-- The first message is not one of the system, and each that comes at least one whole hour
apart from the message before it is not one of the system and does not belong in one
section with it. -/
def PausesSplit (messages : List Message) : Prop :=
  (∀ m ∈ messages.head?, m.origin ≠ .system) ∧
    ∀ before a b after, messages = before ++ a :: b :: after →
      1 ≤ a.date.hoursApart b.date → b.origin ≠ .system ∧ ¬ BelongTogether a b

/-! ## The builder -/

section Builder

variable {relativeTime : Date → String} {data : Snapshot Section Message} {path : IndexPath}
  {m prev : Message} {before after : List Message} {cell : BubbleCell}

/-- What this builder computes are the whole hours between the dates as well. -/
theorem DateStampBuilder.delta_eq (a b : Date) : delta a b = some (a.hoursApart b) := by
  rw [delta, Date.hourComponent_eq]
  rfl

theorem DateStampBuilder.getMessages_first (hcell : data.cellForItem path = some (cell, m))
    (hitems : data.itemIdentifiers = m :: after) : getMessages data path = some none := by
  have hidx : data.indexOfItem m = some ([] : List Message).length :=
    Snapshot.indexOfItem_of_eq hitems
  simp [getMessages, hcell, hidx]

theorem DateStampBuilder.getMessages_later (hcell : data.cellForItem path = some (cell, m))
    (hitems : data.itemIdentifiers = before ++ [prev] ++ m :: after) :
    getMessages data path = some (some (prev, m)) := by
  have hidx := Snapshot.indexOfItem_of_eq hitems
  simp [getMessages, hcell, hidx, hitems]

/-- The builder looks at the message before the one at the path, if there is one. -/
theorem dateHeader_iff (h : data.itemIdentifierFor path = some m)
    (hitems : data.itemIdentifiers = before ++ m :: after) :
    (∃ text, supplementaryViewProvider relativeTime data .sectionHeader path =
        some (.dateHeader text)) ↔
      m.origin ≠ .system ∧ ∀ prev ∈ before.getLast?, 1 ≤ prev.date.hoursApart m.date := by
  by_cases ho : m.origin = .system
  · have hcell := (Snapshot.cellForItem_eq_none_iff h).mpr ho
    have hgetMessages : DateStampBuilder.getMessages data path = some none := by
      simp [DateStampBuilder.getMessages, hcell]
    simp [supplementaryViewProvider, DateStampBuilder.build, hgetMessages, hcell, ho]
  · obtain ⟨cell, hcell, -⟩ := Snapshot.exists_cellForItem h ho
    rcases List.eq_nil_or_concat' before with rfl | ⟨before, prev, rfl⟩
    · have hgetMessages := DateStampBuilder.getMessages_first hcell hitems
      simp [supplementaryViewProvider, DateStampBuilder.build, hgetMessages, hcell, ho]
    · have hgetMessages := DateStampBuilder.getMessages_later hcell hitems
      by_cases hdelta : 1 ≤ prev.date.hoursApart m.date
      · simp [supplementaryViewProvider, DateStampBuilder.build, hgetMessages,
          DateStampBuilder.delta_eq, ho, hdelta]
      · simp [supplementaryViewProvider, DateStampBuilder.build, hgetMessages,
          DateStampBuilder.delta_eq, hdelta]

/-- Of an item, the header depends on the item before it, and on whether it begins a
section. -/
theorem dateHeaderAbove_item_iff (hitems : data.itemIdentifiers = before ++ m :: after) :
    DateHeaderAbove relativeTime data m.id ↔
      (∃ sec x, data.itemIdentifierFor ⟨0, sec⟩ = some x ∧ x.id = m.id) ∧ m.origin ≠ .system ∧
        ∀ prev ∈ before.getLast?, 1 ≤ prev.date.hoursApart m.date := by
  have hmem : m ∈ data.itemIdentifiers := by
    rw [hitems]
    exact List.mem_append_right _ List.mem_cons_self
  have hsame {path : IndexPath} {x : Message} (hx : data.itemIdentifierFor path = some x)
      (hid : x.id = m.id) : x = m :=
    Snapshot.eq_of_id (Snapshot.mem_of_itemIdentifierFor hx) hmem hid
  constructor
  · rintro ⟨sec, x, text, hx, hid, hview⟩
    obtain rfl := hsame hx hid
    exact ⟨⟨sec, x, hx, hid⟩, (dateHeader_iff hx hitems).mp ⟨text, hview⟩⟩
  · rintro ⟨⟨sec, x, hx, hid⟩, hheader⟩
    obtain rfl := hsame hx hid
    obtain ⟨text, hview⟩ := (dateHeader_iff hx hitems).mpr hheader
    exact ⟨sec, x, text, hx, hid, hview⟩

end Builder

/-! ## Beginnings of sections -/

namespace Laid

variable {data : Snapshot Section Message} {drawn : ℕ} {shown messages before after : List Message}
  {m : Message} {relativeTime : Date → String}

/-- A message is the first of its section exactly when it is the first of its segment. -/
theorem exists_first_iff (h : Laid data drawn shown)
    (hcore : shown.map Message.core = messages.map Message.core) (hm : m ∈ messages) :
    (∃ sec x, data.itemIdentifierFor ⟨0, sec⟩ = some x ∧ x.id = m.id) ↔
      ∃ seg ∈ messages.splitBy sameRun, seg.head? = some m := by
  have hnd : (messages.map Message.id).Nodup := by
    rw [← map_id_of_map_core hcore]
    exact h.nodup_ids
  have hmap := h.map_map_id hcore
  constructor
  · rintro ⟨sec, x, hx, hid⟩
    obtain ⟨i, -, p, hp, hfirst⟩ := Snapshot.itemIdentifierFor_first.mp hx
    have hids := List.mem_map_of_mem (f := fun p => p.2.map Message.id) (List.mem_of_getElem? hp)
    rw [hmap] at hids
    obtain ⟨seg, hseg, heq⟩ := List.mem_map.mp hids
    have hhead : seg.head?.map Message.id = some m.id := by
      rw [← List.head?_map, heq, List.head?_map, hfirst, Option.map_some, hid]
    obtain ⟨m', hm', hid'⟩ := Option.map_eq_some_iff.mp hhead
    have hmem : m' ∈ messages := by
      rw [← List.flatten_splitBy sameRun messages]
      exact List.mem_flatten_of_mem hseg (List.mem_of_head? hm')
    obtain rfl := List.inj_on_of_nodup_map hnd hmem hm hid'
    exact ⟨seg, hseg, hm'⟩
  · rintro ⟨seg, hseg, hhead⟩
    have hids := List.mem_map_of_mem (f := List.map Message.id) hseg
    rw [← hmap] at hids
    obtain ⟨p, hp, heq⟩ := List.mem_map.mp hids
    obtain ⟨i, hi⟩ := List.getElem?_of_mem hp
    have hfirst : p.2.head?.map Message.id = some m.id := by
      rw [← List.head?_map, heq, List.head?_map, hhead, Option.map_some]
    obtain ⟨x, hx, hid⟩ := Option.map_eq_some_iff.mp hfirst
    exact ⟨i, x, Snapshot.itemIdentifierFor_first.mpr ⟨i, rfl, p, hi, hx⟩, hid⟩

/-- The items before and at the place of a message are those messages, laid out. -/
theorem exists_itemIdentifiers_eq (h : Laid data drawn shown)
    (hcore : shown.map Message.core = messages.map Message.core)
    (hmessages : messages = before ++ m :: after) :
    ∃ before' x after', data.itemIdentifiers = before' ++ x :: after' ∧
      before'.map Message.core = before.map Message.core ∧ x.core = m.core := by
  have hitems := h.map_itemIdentifiers Message.core Message.core_withCorners
  rw [hcore, hmessages, List.map_append, List.map_cons] at hitems
  obtain ⟨before', rest, hsplit, hbefore, hrest⟩ := List.map_eq_append_iff.mp hitems
  obtain ⟨x, after', rfl, hx, -⟩ := List.map_eq_cons_iff.mp hrest
  exact ⟨before', x, after', hsplit, hbefore, hx⟩

/-- What is asked of the date of the message before depends on the contents only. -/
theorem forall_getLast?_date_iff {before' : List Message}
    (hbefore : before'.map Message.core = before.map Message.core) (P : Date → Prop) :
    (∀ prev ∈ before'.getLast?, P prev.date) ↔ ∀ prev ∈ before.getLast?, P prev.date := by
  have hdates : before'.map Message.date = before.map Message.date := by
    have := congrArg (List.map Message.date) hbefore
    rwa [List.map_map, List.map_map] at this
  have hlast := congrArg List.getLast? hdates
  rw [List.getLast?_map, List.getLast?_map] at hlast
  have hall (ms : List Message) : (∀ prev ∈ ms.getLast?, P prev.date) ↔
      ∀ date ∈ ms.getLast?.map Message.date, P date := by
    simp
  rw [hall, hall, hlast]

/-- **One message.** A header is shown above it exactly if it begins a section, has a cell
and comes an hour apart from the message before it, if there is one. -/
theorem dateHeaderAbove_iff (h : Laid data drawn shown)
    (hcore : shown.map Message.core = messages.map Message.core)
    (hmessages : messages = before ++ m :: after) :
    DateHeaderAbove relativeTime data m.id ↔
      (∀ prev ∈ before.getLast?, ¬ BelongTogether prev m) ∧ m.origin ≠ .system ∧
        ∀ prev ∈ before.getLast?, 1 ≤ prev.date.hoursApart m.date := by
  have hnd : (before ++ m :: after).Nodup := by
    have hids := h.nodup_ids
    rw [map_id_of_map_core hcore, hmessages] at hids
    exact List.Nodup.of_map _ hids
  simp only [← sameRun_eq_false_iff]
  rw [← Segments.exists_head?_mem_splitBy_iff hnd, ← hmessages,
    ← h.exists_first_iff hcore (by simp [hmessages])]
  obtain ⟨before', x, after', hitems, hbefore, hx⟩ := h.exists_itemIdentifiers_eq hcore hmessages
  have hdelta : (∀ prev ∈ before'.getLast?, 1 ≤ prev.date.hoursApart x.date) ↔
      ∀ prev ∈ before.getLast?, 1 ≤ prev.date.hoursApart m.date := by
    rw [Message.date_eq_of_core hx]
    exact forall_getLast?_date_iff hbefore fun date => 1 ≤ date.hoursApart m.date
  rw [← hdelta, ← Message.origin_eq_of_core hx, ← Message.id_eq_of_core hx]
  exact dateHeaderAbove_item_iff hitems

/-- The pauses are dated exactly if they split. -/
theorem datesPauses_iff_pausesSplit (h : Laid data drawn shown)
    (hcore : shown.map Message.core = messages.map Message.core) :
    DatesPauses relativeTime messages data ↔ PausesSplit messages := by
  have hiff (before : List Message) (m : Message) (after : List Message)
      (hmessages : messages = before ++ m :: after) :
      (DateHeaderAbove relativeTime data m.id ↔
        ∀ prev ∈ before.getLast?, 1 ≤ prev.date.hoursApart m.date) ↔
      ((∀ prev ∈ before.getLast?, 1 ≤ prev.date.hoursApart m.date) →
        (∀ prev ∈ before.getLast?, ¬ BelongTogether prev m) ∧ m.origin ≠ .system) := by
    rw [h.dateHeaderAbove_iff hcore hmessages]
    tauto
  refine ⟨fun hdates => ⟨fun m hm => ?_, fun before a b after hmessages hdelta => ?_⟩,
    fun ⟨hfirst, hlater⟩ before m after hmessages => (hiff before m after hmessages).mpr ?_⟩
  · obtain ⟨after, hmessages⟩ := List.head?_eq_some_iff.mp hm
    exact ((hiff [] m after hmessages).mp (hdates [] m after hmessages) (by simp)).2
  · have hmessages' : messages = before ++ [a] ++ b :: after := by simpa using hmessages
    obtain ⟨hrun, ho⟩ := (hiff _ b after hmessages').mp (hdates _ b after hmessages')
      (by simpa using hdelta)
    exact ⟨ho, hrun a (by simp)⟩
  · intro hdelta
    rcases List.eq_nil_or_concat' before with rfl | ⟨before, a, rfl⟩
    · exact ⟨by simp, hfirst m (by simp [hmessages])⟩
    · obtain ⟨ho, hrun⟩ := hlater before a m after (by simpa using hmessages)
        (by simpa using hdelta)
      exact ⟨by simpa using hrun, ho⟩

end Laid

/-- **Every pause of an hour is dated, if every pause splits.** For every non-empty list of
messages with pairwise distinct ids, `diffMessages` does not trap, whatever was shown
before; and there is a date header above the first message, above each that comes at least
a whole hour apart from the one before it, and above no other, if and only if every such
message has a cell and does not belong in one section with the message before it. -/
theorem datesPauses_iff (relativeTime : Date → String) (v : ChatView) {messages : List Message}
    (hne : messages ≠ []) (hnd : (messages.map Message.id).Nodup) :
    ∃ v', v.diffMessages messages = some v' ∧
      (DatesPauses relativeTime messages v'.data ↔ PausesSplit messages) := by
  obtain ⟨v', hv', hshows⟩ := v.shows_diffMessages hne hnd
  exact ⟨v', hv', hshows.datesPauses_iff_pausesSplit (map_flagged Message.core core_markSeen _ _ _)⟩

theorem datesPauses_iff_two :
    ∃ v', ChatView.new.diffMessages [sampleMessage 0 0, sampleMessage 1 5400] = some v' ∧
      (DatesPauses (fun _ => "") [sampleMessage 0 0, sampleMessage 1 5400] v'.data ↔
        PausesSplit [sampleMessage 0 0, sampleMessage 1 5400]) :=
  datesPauses_iff _ _ (by simp) (by decide)

/-- Two messages of one sender, ninety minutes apart: they share a section, so nobody is
asked for a header between them. -/
theorem not_always_datesPauses :
    ¬ ∀ (relativeTime : Date → String) (v : ChatView) (messages : List Message), messages ≠ [] →
      (messages.map Message.id).Nodup → ∀ v', v.diffMessages messages = some v' →
      DatesPauses relativeTime messages v'.data := by
  intro hall
  have hrun : (ChatView.new.diffMessages [sampleMessage 0 0, sampleMessage 1 5400]).map (fun v =>
      v.data.sections.map fun p => p.2.map Message.id) =
      some [[.replicate 0, .replicate 1]] := by
    decide +kernel
  obtain ⟨v, hv, hsections⟩ := Option.map_eq_some_iff.mp hrun
  have hdates := hall (fun _ => "") .new [sampleMessage 0 0, sampleMessage 1 5400] (by simp)
    (by decide) v hv [sampleMessage 0 0] (sampleMessage 1 5400) [] rfl
  obtain ⟨sec, m, text, hm, hid, -⟩ := hdates.mpr (by decide +kernel)
  -- the first item of every section is the first message
  obtain ⟨i, -, p, hp, hm⟩ := Snapshot.itemIdentifierFor_first.mp hm
  have hids := List.mem_map_of_mem (f := fun p => p.2.map Message.id) (List.mem_of_getElem? hp)
  rw [hsections, List.mem_singleton] at hids
  have hfirst := congrArg List.head? hids
  rw [List.head?_map, hm, Option.map_some, hid] at hfirst
  exact absurd hfirst (by decide)

end MoonMessenger
