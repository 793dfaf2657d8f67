import MoonMessenger.Building

/-!
# Batches, increments and sections

The operations of the chat view in terms of layouts, and what follows for the
sections on screen:

* `diffMessages_meetsGrouping` — a full build groups, orders and rounds the messages
  as the layout prescribes;
* `addMessages_eq_diffMessages` — adding a conversation in batches, cut anywhere,
  shows the same as building it at once.
-/

namespace MoonMessenger

namespace ChatView

variable {v : ChatView} {shown : List Message}

/-- The chat view shows `shown` in its layout. -/
def Shows (v : ChatView) (shown : List Message) : Prop := Laid v.data v.drawn shown

theorem shows_new : new.Shows [] := Laid.empty 0

theorem shows_clear (v : ChatView) : v.clear.Shows [] := Laid.empty v.drawn

/-- `addMessages` attaches the batch to what is shown. -/
theorem shows_addMessages (h : v.Shows shown) {batch : List Message} (hne : shown ++ batch ≠ [])
    (hnd : (shown.map Message.id ++ batch.map Message.id).Nodup) :
    ∃ v', v.addMessages batch = some v' ∧
      v'.Shows (attach shown (flagged v.data.itemIdentifiers batch v.data.itemIdentifiers)
        (flagged v.data.itemIdentifiers batch batch)) := by
  obtain ⟨b, hb, hlaid⟩ := Laid.build h hne hnd
  exact ⟨⟨b.data, b.drawn⟩, by rw [addMessages, hb]; rfl, hlaid⟩

/-- Whenever `addMessages` does not trap, that is what it does, and there is something
to show. -/
theorem Shows.of_addMessages (h : v.Shows shown) {batch : List Message} {v' : ChatView}
    (hv' : v.addMessages batch = some v') : shown ++ batch ≠ [] ∧
      v'.Shows (attach shown (flagged v.data.itemIdentifiers batch v.data.itemIdentifiers)
        (flagged v.data.itemIdentifiers batch batch)) := by
  obtain ⟨b, hb, hv'⟩ := Option.bind_eq_some_iff.mp hv'
  obtain rfl := Option.some.inj hv'
  exact Laid.of_build h hb

/-- `diffMessages` builds on an empty snapshot. -/
theorem attach_nil_flagged (batch : List Message) :
    attach [] (flagged [] batch []) (flagged [] batch batch) = flagged [] batch batch := by
  have hnil : flagged [] batch [] = [] := by rw [flagged, List.map_nil, ite_self]
  rw [hnil]
  cases flagged [] batch batch with
  | nil => rfl
  | cons m rest => rfl

/-- `diffMessages` shows the batch and nothing else. -/
theorem shows_diffMessages (v : ChatView) {batch : List Message} (hne : batch ≠ [])
    (hnd : (batch.map Message.id).Nodup) :
    ∃ v', v.diffMessages batch = some v' ∧ v'.Shows (flagged [] batch batch) := by
  obtain ⟨b, hb, hlaid⟩ := (Laid.empty v.drawn).build hne hnd
  refine ⟨⟨b.data, b.drawn⟩, by rw [diffMessages, Snapshot.deleteAllItems, hb]; rfl, ?_⟩
  rw [← attach_nil_flagged]
  exact hlaid

/-- Whenever `diffMessages` does not trap, that is what it does, and the batch is not
empty. -/
theorem of_diffMessages {v v' : ChatView} {batch : List Message}
    (hv' : v.diffMessages batch = some v') :
    batch ≠ [] ∧ v'.Shows (flagged [] batch batch) := by
  obtain ⟨b, hb, hv'⟩ := Option.bind_eq_some_iff.mp hv'
  obtain rfl := Option.some.inj hv'
  obtain ⟨hne, hlaid⟩ := (Laid.empty v.drawn).of_build hb
  rw [← attach_nil_flagged]
  exact ⟨hne, hlaid⟩

/-- A call that goes through shows what has been passed. -/
theorem Shows.step (h : v.Shows shown) {ms : List Message}
    (hcore : shown.map Message.core = ms.map Message.core) {op : Op} {v' : ChatView}
    (hv' : v.step op = some v') :
    ∃ shown', v'.Shows shown' ∧ shown'.map Message.core = (op.after ms).map Message.core := by
  cases op with
  | clear =>
    obtain rfl := Option.some.inj hv'
    exact ⟨[], shows_clear v, rfl⟩
  | addMessages batch =>
    refine ⟨_, (h.of_addMessages hv').2, ?_⟩
    rw [map_attach Message.core (Laid.map_core_flagged h batch),
      map_flagged Message.core core_markSeen, hcore, ← List.map_append]
    rfl
  | diffMessages batch =>
    exact ⟨_, (of_diffMessages hv').2, map_flagged Message.core core_markSeen _ _ _⟩

/-- A call that goes through and builds has something to show. -/
theorem Shows.after_ne_nil (h : v.Shows shown) {op : Op} {v' : ChatView}
    (hv' : v.step op = some v') (hop : op ≠ .clear) : op.after shown ≠ [] := by
  cases op with
  | clear => exact absurd rfl hop
  | addMessages batch => exact (h.of_addMessages hv').1
  | diffMessages batch => exact (of_diffMessages hv').1

/-- **Every reachable chat view shows what has been passed to it**, whatever that was. -/
theorem shows_of_run {ops : List Op} (hv : Runs.run step .new ops = some v) :
    ∃ shown, v.Shows shown ∧ shown.map Message.core = (passed ops).map Message.core := by
  refine Runs.run_history (fun hist v => ∃ shown, v.Shows shown ∧
    shown.map Message.core = (passed hist).map Message.core) ⟨[], shows_new, rfl⟩ ?_
    (List.prefix_refl ops) hv
  rintro hist op v v' - - ⟨shown, h, hcore⟩ hv'
  rw [passed_concat]
  exact h.step hcore hv'

end ChatView

/-! ## A full build -/

/-- Two neighbours belong together: same side, same sender and at most two whole hours
apart, by their dates. -/
def BelongTogether (a b : Message) : Prop :=
  a.origin = b.origin ∧ a.userId = b.userId ∧ a.date.hoursApart b.date ≤ 2

/-- What a snapshot that shows the conversation `messages` has to look like. -/
structure MeetsGrouping (messages : List Message) (data : Snapshot Section Message) : Prop where
  /-- nothing is lost, duplicated, reordered or changed, corners and seen flags aside -/
  items : data.itemIdentifiers.map Message.core = messages.map Message.core
  /-- no section is empty -/
  nonempty : ∀ p ∈ data.sections, p.2 ≠ []
  /-- a section has the origin of its messages -/
  origin : ∀ p ∈ data.sections, ∀ m ∈ p.2, m.origin = p.1.origin
  /-- neighbours share a section exactly when they belong together -/
  neighbours : ∀ before a b after, messages = before ++ a :: b :: after →
    ((∃ p ∈ data.sections, a.id ∈ p.2.map Message.id ∧ b.id ∈ p.2.map Message.id) ↔
      BelongTogether a b)
  /-- the bubbles are rounded by their place in the section -/
  corners : ∀ p ∈ data.sections, p.2.map Message.corners = roundings p.2.length

/-- What the builder computes are the whole hours between the dates. -/
theorem DataBuilder.delta_eq (a b : Date) : delta a b = a.hoursApart b := by
  rw [delta, Date.hourComponent_eq]
  rfl

/-- The builder keeps messages together that are less than three hours apart. -/
theorem DataBuilder.delta_le_two_iff (a b : Date) : delta a b ≤ 2 ↔ |a.elapsed b| < 3 * 3600 := by
  rw [delta_eq, ← Int.lt_add_one_iff, Date.hoursApart_lt_iff (by norm_num)]
  norm_num

theorem sameRun_iff {a b : Message} : sameRun a b = true ↔ BelongTogether a b := by
  rw [sameRun, Bool.and_eq_true, Bool.and_eq_true, decide_eq_true_eq, decide_eq_true_eq,
    decide_eq_true_eq, and_assoc, and_comm (a := _ ≤ _), DataBuilder.delta_eq, BelongTogether]

theorem sameRun_eq_false_iff {a b : Message} : sameRun a b = false ↔ ¬ BelongTogether a b := by
  rw [← sameRun_iff, Bool.not_eq_true]

namespace Laid

variable {data : Snapshot Section Message} {drawn : ℕ} {shown messages : List Message}

theorem ne_nil_of_mem (h : Laid data drawn shown) {p : Section × List Message}
    (hp : p ∈ data.sections) : p.2 ≠ [] := by
  intro hnil
  have hmem := List.mem_map_of_mem (f := Prod.snd) hp
  rw [h.sections, hnil] at hmem
  exact nil_notMem_layout shown hmem

/-- The ids of the sections are those of the segments, whatever the flags. -/
theorem map_map_id (h : Laid data drawn shown)
    (hcore : shown.map Message.core = messages.map Message.core) :
    data.sections.map (fun p => p.2.map Message.id) =
      (messages.splitBy sameRun).map (List.map Message.id) := by
  have hcut (ms : List Message) : (ms.map Message.core).splitBy sameRun =
      (ms.splitBy sameRun).map (List.map Message.core) :=
    Segments.splitBy_map Message.core (fun a b => sameRun_congr rfl rfl) ms
  have hids (ms : List Message) : (ms.splitBy sameRun).map (List.map Message.id) =
      ((ms.map Message.core).splitBy sameRun).map (List.map Message.id) := by
    rw [hcut, List.map_map]
    refine List.map_congr_left fun seg _ => ?_
    rw [Function.comp_apply, List.map_map]
    rfl
  have hsnd : data.sections.map (fun p => p.2.map Message.id) =
      (data.sections.map Prod.snd).map (List.map Message.id) := by
    rw [List.map_map]
    rfl
  rw [hsnd, h.sections, layout, List.map_map, hids messages, ← hcore, ← hids]
  exact List.map_congr_left fun seg _ => map_rounded Message.id Message.id_withCorners seg

/-- Where ids are distinct, they tell which segment a message is in. -/
theorem id_mem_iff (hnd : (messages.map Message.id).Nodup) {seg : List Message}
    (hseg : seg ∈ messages.splitBy sameRun) {m : Message} (hm : m ∈ messages) :
    m.id ∈ seg.map Message.id ↔ m ∈ seg := by
  refine ⟨fun hid => ?_, List.mem_map_of_mem⟩
  obtain ⟨m', hm', hid'⟩ := List.mem_map.mp hid
  have hm'' : m' ∈ messages := by
    rw [← List.flatten_splitBy sameRun messages]
    exact List.mem_flatten_of_mem hseg hm'
  rwa [← List.inj_on_of_nodup_map hnd hm'' hm hid']

/-- Two messages share a section exactly when they share a segment. -/
theorem exists_section_iff (h : Laid data drawn shown)
    (hcore : shown.map Message.core = messages.map Message.core)
    {a b : Message} (ha : a ∈ messages) (hb : b ∈ messages) :
    (∃ p ∈ data.sections, a.id ∈ p.2.map Message.id ∧ b.id ∈ p.2.map Message.id) ↔
      ∃ seg ∈ messages.splitBy sameRun, a ∈ seg ∧ b ∈ seg := by
  have hnd : (messages.map Message.id).Nodup := by
    rw [← map_id_of_map_core hcore]
    exact h.nodup_ids
  have hmap := h.map_map_id hcore
  refine ⟨fun ⟨p, hp, hpa, hpb⟩ => ?_, fun ⟨seg, hseg, hsa, hsb⟩ => ?_⟩
  · have hids := List.mem_map_of_mem (f := fun p => p.2.map Message.id) hp
    rw [hmap] at hids
    obtain ⟨seg, hseg, heq⟩ := List.mem_map.mp hids
    rw [← heq, id_mem_iff hnd hseg ha] at hpa
    rw [← heq, id_mem_iff hnd hseg hb] at hpb
    exact ⟨seg, hseg, hpa, hpb⟩
  · have hids := List.mem_map_of_mem (f := List.map Message.id) hseg
    rw [← hmap] at hids
    obtain ⟨p, hp, heq⟩ := List.mem_map.mp hids
    refine ⟨p, hp, ?_, ?_⟩
    · rw [heq]
      exact List.mem_map_of_mem hsa
    · rw [heq]
      exact List.mem_map_of_mem hsb

/-- A laid out snapshot meets the grouping specification. -/
theorem meetsGrouping (h : Laid data drawn shown)
    (hcore : shown.map Message.core = messages.map Message.core) :
    MeetsGrouping messages data where
  items := by rw [h.map_itemIdentifiers Message.core Message.core_withCorners, hcore]
  nonempty _ hp := h.ne_nil_of_mem hp
  origin := h.origin
  neighbours := by
    intro before a b after heq
    have hnd : messages.Nodup := by
      have hids := h.nodup_ids
      rw [map_id_of_map_core hcore] at hids
      exact List.Nodup.of_map _ hids
    rw [h.exists_section_iff hcore (by rw [heq]; simp) (by rw [heq]; simp)]
    subst heq
    rw [Segments.exists_mem_splitBy_iff hnd, sameRun_iff]
  corners := by
    intro p hp
    have hmem := List.mem_map_of_mem (f := Prod.snd) hp
    rw [h.sections] at hmem
    obtain ⟨seg, -, hseg⟩ := List.mem_map.mp hmem
    rw [← hseg, map_corners_rounded, length_rounded]

end Laid

/-- **A full build groups the conversation.** For every non-empty list of messages with
pairwise distinct ids, `diffMessages` does not trap, whatever was shown before, and
its snapshot meets the grouping specification. -/
theorem diffMessages_meetsGrouping (v : ChatView) {messages : List Message} (hne : messages ≠ [])
    (hnd : (messages.map Message.id).Nodup) :
    ∃ v', v.diffMessages messages = some v' ∧ MeetsGrouping messages v'.data := by
  obtain ⟨v', hv', hshows⟩ := v.shows_diffMessages hne hnd
  exact ⟨v', hv', hshows.meetsGrouping (map_flagged Message.core core_markSeen _ _ _)⟩

/-- A message with the id `replicate d`, sent `t` seconds after the epoch. -/
def sampleMessage (d : ℕ) (t : TimeInterval) : Message where
  origin := .outgoing
  text := "Hello"
  id := .replicate d
  date := ⟨t⟩
  corners := .basic
  delivered := true
  seen := false
  error := false
  username := "User"
  userId := "u"

theorem diffMessages_meetsGrouping_three :
    ∃ v', ChatView.new.diffMessages [sampleMessage 0 0, sampleMessage 1 60, sampleMessage 2 90000] =
      some v' ∧
      MeetsGrouping [sampleMessage 0 0, sampleMessage 1 60, sampleMessage 2 90000] v'.data :=
  diffMessages_meetsGrouping _ (by simp) (by decide)

/-! ## Increments -/

namespace ChatView

/-- What the user sees: the sections with their origins, and the messages in them with
their corners. Section ids and seen flags are left out. -/
def appearance (v : ChatView) : List (Origin × List Message) :=
  v.data.sections.map fun p => (p.1.origin, p.2.map fun m => { m with seen := false })

/-- The origin a section of these messages has. -/
def originOf (items : List Message) : Origin := (items.head?.map Message.origin).getD .outgoing

/-- The appearance depends on the shown messages only, up to flags and corners. -/
theorem Shows.appearance_eq {v : ChatView} {shown : List Message} (h : v.Shows shown) :
    v.appearance = (layout (shown.map Message.core)).map fun items => (originOf items, items) := by
  rw [layout_map_core, ← h.sections, List.map_map, List.map_map, appearance]
  refine List.map_congr_left fun p hp => ?_
  obtain ⟨m, items, hitems⟩ := List.exists_cons_of_ne_nil (h.ne_nil_of_mem hp)
  have horigin := h.origin p hp m (by rw [hitems]; exact List.mem_cons_self ..)
  rw [Function.comp_apply, Function.comp_apply, hitems, List.map_cons, originOf, List.head?_cons,
    ← horigin]
  rfl

/-- Adding batches one after the other shows them one after the other. -/
theorem shows_batches (v : ChatView) (batches : List (List Message))
    (hne : ∀ batch ∈ batches, batch ≠ []) (hnd : (batches.flatten.map Message.id).Nodup) :
    ∃ v', Runs.run addMessages v.clear batches = some v' ∧
      ∃ shown, v'.Shows shown ∧ shown.map Message.core = batches.flatten.map Message.core := by
  refine Runs.run_induction
    (fun (done : List (List Message)) (v' : ChatView) => ∃ shown, v'.Shows shown ∧
      shown.map Message.core = done.flatten.map Message.core)
    (fun done => (∀ batch ∈ done, batch ≠ []) ∧ (done.flatten.map Message.id).Nodup)
    ?_ ⟨[], shows_clear v, rfl⟩ ?_ batches ⟨hne, hnd⟩
  · rintro done batch ⟨hne', hnd'⟩
    rw [List.flatten_append, List.map_append] at hnd'
    exact ⟨fun b hb => hne' b (List.mem_append_left _ hb), (List.nodup_append.mp hnd').1⟩
  · rintro done v' batch ⟨shown, hshows, hcore⟩ ⟨hne', hnd'⟩
    rw [List.flatten_append, List.map_append, List.flatten_singleton] at hnd'
    have hids : (shown.map Message.id ++ batch.map Message.id).Nodup := by
      rwa [map_id_of_map_core hcore]
    obtain ⟨v'', hv'', hshows'⟩ := shows_addMessages hshows
      (List.append_ne_nil_of_right_ne_nil _ (hne' batch (by simp))) hids
    refine ⟨v'', hv'', _, hshows', ?_⟩
    rw [map_attach Message.core (Laid.map_core_flagged hshows batch),
      map_flagged Message.core core_markSeen, hcore, ← List.map_append, List.flatten_append,
      List.flatten_singleton]

end ChatView

/-- **Increments agree with a full build.** However a conversation with pairwise
distinct ids is cut into consecutive non-empty batches, adding them one by one to a
cleared chat view shows the same as one `diffMessages` of the whole. -/
theorem addMessages_eq_diffMessages (v w : ChatView) {batches : List (List Message)}
    (hbatches : batches ≠ []) (hne : ∀ batch ∈ batches, batch ≠ [])
    (hnd : (batches.flatten.map Message.id).Nodup) :
    ∃ v' w', Runs.run ChatView.addMessages v.clear batches = some v' ∧
      w.diffMessages batches.flatten = some w' ∧ v'.appearance = w'.appearance := by
  have hflat : batches.flatten ≠ [] := by
    obtain ⟨batch, rest, rfl⟩ := List.exists_cons_of_ne_nil hbatches
    rw [List.flatten_cons]
    exact List.append_ne_nil_of_left_ne_nil (hne batch (List.mem_cons_self ..)) _
  obtain ⟨v', hv', shown, hshows, hcore⟩ := v.shows_batches batches hne hnd
  obtain ⟨w', hw', hshows'⟩ := w.shows_diffMessages hflat hnd
  refine ⟨v', w', hv', hw', ?_⟩
  rw [hshows.appearance_eq, hshows'.appearance_eq, hcore, map_flagged Message.core core_markSeen]

theorem addMessages_eq_diffMessages_cut :
    ∃ v' w', Runs.run ChatView.addMessages ChatView.new.clear
        [[sampleMessage 0 0], [sampleMessage 1 60, sampleMessage 2 90000]] = some v' ∧
      ChatView.new.diffMessages
        [[sampleMessage 0 0], [sampleMessage 1 60, sampleMessage 2 90000]].flatten = some w' ∧
      v'.appearance = w'.appearance :=
  addMessages_eq_diffMessages _ _ (by simp) (by simp) (by decide)

end MoonMessenger
