import MoonMessenger.Seen

/-!
# Delivery flags

The mark operations of a message state two rules: what is seen has been delivered, and what
has been delivered is in no error. Each checks the flag that it could break, but for
`markDelivered`; the initialiser checks nothing, and the builder sets and clears `seen`
in whole lists.

`Working.step` says what the builder makes of a message on any snapshot, in a list of any
others: the same message, not seen if it was not. `consistent_iff` is the exact condition
under which the two rules hold over the life of a message.
-/

namespace MoonMessenger

namespace Message

/-- The two rules: seen messages have been delivered, and no message that was delivered is in
error. -/
def Consistent (m : Message) : Prop :=
  (m.seen = true → m.delivered = true) ∧ ¬ (m.delivered = true ∧ m.error = true)

/-- What can happen to a message. -/
inductive Event where
  | markDelivered
  | markSeen
  | markError
  /-- the message, in the snapshot or among the messages, goes through `build` -/
  | build (data : Snapshot Section Message) (drawn : ℕ) (messages : List Message)

/-- One event. After `build`, the message is the item of the new snapshot that is equal
to it. -/
def step (m : Message) : Event → Option Message
  | .markDelivered => some m.markDelivered
  | .markSeen => some m.markSeen
  | .markError => some m.markError
  | .build data drawn messages =>
    if ∃ item ∈ data.itemIdentifiers ++ messages, item = m then do
      let builder ← (DataBuilder.init data drawn).build messages
      builder.data.itemIdentifiers.find? fun item => item == m
    else none

end Message

/-! ## Any snapshot -/

/-- A snapshot that the builder makes of one with the items `items`, from the working list
`working`: by their ids, the items are the first of the working list, and each was there
before or comes from that list. -/
structure Working (items working : List Message) (data : Snapshot Section Message) : Prop where
  ids : data.itemIdentifiers.map Message.id =
    (working.take data.itemIdentifiers.length).map Message.id
  origin : ∀ x ∈ data.itemIdentifiers, x ∈ items ∨ ∃ m ∈ working, ∃ c, x = m.withCorners c

namespace Working

variable {items working : List Message} {data data' : Snapshot Section Message} {m : Message}
  {c : Rounding} {i : ℕ}

/-- The next message of the working list is appended. -/
theorem append (h : Working items working data)
    (hm : working[data.itemIdentifiers.length]? = some m)
    (hdata' : data.appendItems [m.withCorners c] data.sectionIdentifiers.getLast? = some data') :
    Working items working data' ∧
      data'.itemIdentifiers.length = data.itemIdentifiers.length + 1 := by
  have hitems := Snapshot.itemIdentifiers_of_appendItems hdata'
  have hlen : data'.itemIdentifiers.length = data.itemIdentifiers.length + 1 := by
    rw [hitems, List.length_append, List.length_singleton]
  refine ⟨⟨?_, fun x hx => ?_⟩, hlen⟩
  · rw [hlen, List.take_add_one, hm, hitems, List.map_append, List.map_append, h.ids]
    rfl
  · rw [hitems, List.mem_append, List.mem_singleton] at hx
    rcases hx with hx | rfl
    · exact h.origin x hx
    · exact Or.inr ⟨m, List.mem_of_getElem? hm, c, rfl⟩

/-- The last item makes way for the working list's copy of it. -/
theorem replaceLast {b : DataBuilder} (h : Working items b.messages b.data)
    (hi : b.data.itemIdentifiers.length = i) (hdata : b.replaceLast i c = some data) :
    Working items b.messages data ∧ data.itemIdentifiers.length = i := by
  obtain ⟨last, hlast, hdata⟩ := Option.bind_eq_some_iff.mp hdata
  obtain ⟨prev, hprev, hdata⟩ := Option.bind_eq_some_iff.mp hdata
  obtain ⟨init, hinit⟩ := List.getLast?_eq_some_iff.mp hlast
  rw [← Snapshot.sectionIdentifiers_deleteItems b.data [last], Message.changing_corners] at hdata
  have hitems := Snapshot.itemIdentifiers_of_appendItems hdata
  rw [Snapshot.itemIdentifiers_deleteItems_last hinit] at hitems
  have hlen : data.itemIdentifiers.length = i := by
    rw [← hi, hitems, hinit, List.length_append, List.length_append]
    rfl
  -- the ids agree in the last place, too
  have hid : last.id = prev.id := by
    have hids := h.ids
    have hpos : i - 1 = init.length := by
      rw [← hi, hinit]
      simp
    rw [hpos] at hprev
    rw [hinit, List.length_append, List.length_singleton, List.take_add_one, hprev,
      List.map_append, List.map_append] at hids
    exact List.singleton_inj.mp (List.append_inj' hids rfl).2
  refine ⟨⟨?_, fun x hx => ?_⟩, hlen⟩
  · rw [hlen, ← hi, ← h.ids, hitems, hinit, List.map_append, List.map_append, List.map_singleton,
      List.map_singleton, Message.id_withCorners, hid]
  · rw [hitems, List.mem_append, List.mem_singleton] at hx
    rcases hx with hx | rfl
    · exact h.origin x (by rw [hinit]; exact List.mem_append_left _ hx)
    · exact Or.inr ⟨prev, List.mem_of_getElem? hprev, c, rfl⟩

end Working

/-- The loop over the working list, before its iteration `i`. -/
structure Looping (items working : List Message) (i : ℕ) (b : DataBuilder) : Prop where
  messages : b.messages = working
  built : Working items working b.data
  ge : i ≤ b.data.itemIdentifiers.length
  le : b.data.itemIdentifiers.length ≤ working.length

/-- One iteration skips what is there, or appends the next message of the working list. -/
theorem Looping.step {items working : List Message} {i : ℕ} {b b' : DataBuilder}
    (h : Looping items working i b) (hi : i < working.length) (hb' : b.step i = some b') :
    Looping items working (i + 1) b' := by
  rcases Nat.lt_or_ge i b.data.itemIdentifiers.length with hlt | hge
  · obtain rfl := Option.some.inj ((DataBuilder.step_skip hlt).symm.trans hb')
    exact ⟨h.messages, h.built, hlt, h.le⟩
  · have hlen : b.data.itemIdentifiers.length = i := Nat.le_antisymm hge h.ge
    obtain ⟨m, hm⟩ : ∃ m, working[i]? = some m := ⟨_, List.getElem?_eq_getElem hi⟩
    obtain ⟨hmessages, hbuilt, -, -⟩ := h
    subst hmessages
    rcases DataBuilder.step_cases hge hm hb' with ⟨-, c, data, data', hreplace, happend, rfl⟩ |
      ⟨-, data, data', hsections, happend, rfl⟩
    · obtain ⟨hreplaced, hlen'⟩ := hbuilt.replaceLast hlen hreplace
      obtain ⟨happended, hlen''⟩ := hreplaced.append (by rw [hlen']; exact hm) happend
      rw [hlen'] at hlen''
      exact ⟨rfl, happended, hlen''.ge, hlen''.le.trans hi⟩
    · have hitems := Snapshot.itemIdentifiers_of_appendSections hsections
      have hopened : Working items b.messages data :=
        ⟨by rw [hitems]; exact hbuilt.ids, by rw [hitems]; exact hbuilt.origin⟩
      obtain ⟨happended, hlen'⟩ := hopened.append (by rw [hitems, hlen]; exact hm) happend
      rw [hitems, hlen] at hlen'
      exact ⟨rfl, happended, hlen'.ge, hlen'.le.trans hi⟩

section Build

variable {data : Snapshot Section Message} {drawn : ℕ} {batch : List Message} {b' : DataBuilder}

/-- **`build` on any snapshot.** The items of the new snapshot are, by their ids, the old
ones and the batch; each is an old item or comes from the flagged working list. -/
theorem items_of_build (h : (DataBuilder.init data drawn).build batch = some b') :
    b'.data.itemIdentifiers.map Message.id = (data.itemIdentifiers ++ batch).map Message.id ∧
      ∀ x ∈ b'.data.itemIdentifiers, x ∈ data.itemIdentifiers ∨
        ∃ m ∈ flagged data.itemIdentifiers batch (data.itemIdentifiers ++ batch), ∃ c,
          x = m.withCorners c := by
  rw [build_eq] at h
  split at h
  · cases h
  set items := data.itemIdentifiers with hitems
  have hworking : flagged items batch items ++ flagged items batch batch =
      flagged items batch (items ++ batch) := by
    simp only [flagged]
    split <;> simp
  dsimp only at h
  rw [hworking] at h
  have hids : (flagged items batch (items ++ batch)).map Message.id =
      (items ++ batch).map Message.id := map_flagged Message.id (fun _ _ => rfl) _ _ _
  have hlength : (flagged items batch (items ++ batch)).length = (items ++ batch).length := by
    simpa using congrArg List.length hids
  have hloop := Runs.foldlM_range_invariant
    (Looping items (flagged items batch (items ++ batch))) ?_ (fun i b b' hi hb => hb.step hi) h
  · have hlen := Nat.le_antisymm hloop.le hloop.ge
    refine ⟨?_, hloop.built.origin⟩
    rw [hloop.built.ids, hlen, List.take_length, hids]
  · refine ⟨rfl, ⟨?_, fun x hx => Or.inl hx⟩, Nat.zero_le _, ?_⟩
    · rw [List.map_take, hids, ← List.map_take, ← hitems, List.take_left]
    · rw [hlength, List.length_append]
      exact Nat.le_add_right _ _

/-- What the builder makes of a message: the same one, which is not seen if it was not. -/
theorem core_of_build (h : (DataBuilder.init data drawn).build batch = some b') {m x : Message}
    (hm : m ∈ data.itemIdentifiers ++ batch) (hx : x ∈ b'.data.itemIdentifiers)
    (hid : x.id = m.id) : x.core = m.core ∧ (x.seen = true → m.seen = true) := by
  obtain ⟨hids, horigin⟩ := items_of_build h
  have hnd : ((data.itemIdentifiers ++ batch).map Message.id).Nodup := by
    rw [← hids]
    exact Laid.pairwise_distinct_iff.mp b'.data.distinct_items
  rcases horigin x hx with hold | ⟨y, hy, c, rfl⟩
  · obtain rfl := List.inj_on_of_nodup_map hnd (List.mem_append_left _ hold) hm hid
    exact ⟨rfl, fun hseen => hseen⟩
  · rw [flagged] at hy
    split at hy
    · obtain ⟨z, hz, rfl⟩ := List.mem_map.mp hy
      obtain rfl : z = m := List.inj_on_of_nodup_map hnd hz hm hid
      refine ⟨rfl, fun hseen => ?_⟩
      -- the flag is put on the last seen message
      have hlast : some z.id = lastSeen (data.itemIdentifiers ++ batch) := of_decide_eq_true hseen
      rw [lastSeen_eq] at hlast
      obtain ⟨w, hw, hws, hwid⟩ := mem_seenIn.mp (List.mem_of_getLast? hlast.symm)
      rwa [← List.inj_on_of_nodup_map hnd hw hm hwid]
    · obtain rfl := List.inj_on_of_nodup_map hnd hy hm hid
      exact ⟨rfl, fun hseen => hseen⟩

end Build

/-! ## The life of a message -/

namespace Message

variable {m m' : Message} {e : Event}

theorem step_build {data : Snapshot Section Message} {drawn : ℕ} {messages : List Message}
    (h : m.step (.build data drawn messages) = some m') :
    m'.core = m.core ∧ (m'.seen = true → m.seen = true) := by
  rw [step] at h
  split at h
  · rename_i hmem
    obtain ⟨item, hitem, rfl⟩ := hmem
    obtain ⟨b, hb, hfind⟩ := Option.bind_eq_some_iff.mp h
    exact core_of_build hb hitem (List.mem_of_find?_eq_some hfind)
      (beq_eq_true.mp (List.find?_some hfind :))
  · cases h

/-- **One event.** A consistent message stays so, unless it is marked delivered while in
error. -/
theorem consistent_step_iff (hm : m.Consistent) (h : m.step e = some m') :
    m'.Consistent ↔ (e = .markDelivered → m.error = false) := by
  obtain ⟨hseen, herror⟩ := hm
  cases e with
  | markDelivered =>
    obtain rfl := Option.some.inj h
    simp [Consistent, markDelivered]
  | markSeen =>
    obtain rfl := Option.some.inj h
    refine iff_of_true ?_ (fun h => nomatch h)
    rw [Message.markSeen]
    split
    · rename_i hdelivered
      exact ⟨fun _ => hdelivered, herror⟩
    · exact ⟨hseen, herror⟩
  | markError =>
    obtain rfl := Option.some.inj h
    refine iff_of_true ?_ (fun h => nomatch h)
    rw [Message.markError]
    split
    · exact ⟨hseen, herror⟩
    · rename_i hdelivered
      exact ⟨hseen, fun hboth => hdelivered hboth.1⟩
  | build data drawn messages =>
    refine iff_of_true ?_ (fun h => nomatch h)
    obtain ⟨hcore, hseen'⟩ := step_build h
    rw [Consistent, delivered_eq_of_core hcore, error_eq_of_core hcore]
    exact ⟨fun h => hseen (hseen' h), herror⟩

theorem consistent_init_iff (uuid id : UUID) (text : String) (origin : Origin) (date : Date)
    (delivered seen error : Bool) (username userId : String) :
    (init uuid id text origin date delivered seen error username userId).Consistent ↔
      delivered = true ∨ origin = .outgoing ∧ seen = false := by
  simp only [Consistent, init]
  cases delivered <;> cases seen <;> cases origin <;> simp

end Message

/-- **The delivery flags are consistent but for two ways in.** For all arguments of the
initialiser and every sequence of mark operations and of builds, on any snapshots and with
any other messages: the message is consistent at every point if and only if it is made
delivered, or outgoing and unseen, and it is never marked delivered while it is in error. -/
theorem consistent_iff (uuid id : UUID) (text : String) (origin : Origin) (date : Date)
    (delivered seen error : Bool) (username userId : String) (es : List Message.Event) :
    ((Message.init uuid id text origin date delivered seen error username userId).Consistent ∧
      Runs.Always Message.step (fun _ _ _ m' => m'.Consistent)
        (.init uuid id text origin date delivered seen error username userId) es) ↔
    ((delivered = true ∨ origin = .outgoing ∧ seen = false) ∧
      Runs.Always Message.step (fun _ m e _ => e = .markDelivered → m.error = false)
        (.init uuid id text origin date delivered seen error username userId) es) := by
  rw [← Message.consistent_init_iff uuid id text origin date delivered seen error username userId]
  refine and_congr_right fun hinit => Runs.always_state_iff hinit ?_
  exact fun hist e m m' _ _ h hm => Message.consistent_step_iff hm h

/-- An incoming message that has not been delivered is made seen. -/
theorem not_always_consistent :
    ¬ ∀ (uuid id : UUID) (text : String) (origin : Origin) (date : Date)
        (delivered seen error : Bool) (username userId : String) (es : List Message.Event),
      (Message.init uuid id text origin date delivered seen error username userId).Consistent ∧
        Runs.Always Message.step (fun _ _ _ m' => m'.Consistent)
          (.init uuid id text origin date delivered seen error username userId) es := by
  intro hall
  obtain ⟨⟨hseen, -⟩, -⟩ := hall (.replicate 0) (.replicate 0) "Hello" .incoming ⟨0⟩ false false
    false "User" "u" []
  exact absurd (hseen rfl) (by decide)

end MoonMessenger
