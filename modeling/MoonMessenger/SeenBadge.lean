import MoonMessenger.Seen
import MoonMessenger.Supplementary

/-!
# The seen badge

The builder of the badge looks for the last seen flag on screen. The flags there are what
all batches so far have left behind, stale ones included (see `Seen`); but the last of
them is on the right message after every call (`step_lastSeen`), and that is all that the
builder reads.

`seenBadge_iff`: in every reachable state the badge sits on the last message that was
passed in as seen, and on no other, unless that is a system message, which has no cell.
-/

namespace MoonMessenger

namespace ChatView

variable {v : ChatView} {shown : List Message} {hist : List Op} {op : Op}

theorem getLast?_seenIds (v : ChatView) : v.seenIds.getLast? = lastSeen v.data.itemIdentifiers :=
  (lastSeen_eq _).symm

/-- However a batch is flagged, its last flag is where it was. -/
theorem lastSeen_flagged {batch : List Message} (hnd : (batch.map Message.id).Nodup)
    (items : List Message) : lastSeen (flagged items batch batch) = lastSeen batch := by
  by_cases hseen : ∃ m ∈ batch, m.seen = true
  · obtain ⟨i, hi, hlast, hflagged⟩ := exists_flagged_of_seen hseen
    have hbatch : lastSeen batch = some i := hlast []
    rw [lastSeen_eq, hflagged, seenIn_map_markSeen_of_mem hnd hi, hbatch]
    rfl
  · rw [flagged_of_unseen]
    simpa using hseen

/-- A batch puts the last flag on its last seen message, or leaves it where it is. -/
theorem lastSeen_addMessages (h : v.Shows shown) {batch : List Message} (hne : batch ≠ [])
    (hnd : (shown.map Message.id ++ batch.map Message.id).Nodup) {before : List Message}
    (hlast : v.seenIds.getLast? = lastSeen before) :
    ∃ v' shown', v.addMessages batch = some v' ∧ v'.Shows shown' ∧
      shown'.map Message.core = shown.map Message.core ++ batch.map Message.core ∧
      v'.seenIds.getLast? = lastSeen (before ++ batch) := by
  obtain ⟨v', shown', hv', hshows, hcore, hunseen, hseen⟩ := seenIds_addMessages h hne hnd
  refine ⟨v', shown', hv', hshows, hcore, ?_⟩
  by_cases hs : ∃ m ∈ batch, m.seen = true
  · obtain ⟨i, -, hbefore⟩ := exists_lastSeen hs
    obtain ⟨first, rest, rfl⟩ := List.exists_cons_of_ne_nil hne
    rw [hseen i hs (hbefore []) first rfl, hbefore before, List.getLast?_concat]
  · have hbatch : ∀ m ∈ batch, m.seen = false := by simpa using hs
    rw [hunseen hbatch, hlast, lastSeen_eq, lastSeen_eq, seenIn_append, seenIn_eq_nil.mpr hbatch,
      List.append_nil]

/-- **One call.** It keeps the last flag on the last message passed in as seen. -/
theorem step_lastSeen (h : v.Shows shown)
    (hcore : shown.map Message.core = (passed hist).map Message.core)
    (hlast : v.seenIds.getLast? = lastSeen (passed hist)) (hne : op ≠ .clear → op.messages ≠ [])
    (hnd : ((passed hist ++ op.messages).map Message.id).Nodup) :
    ∃ v', v.step op = some v' ∧ ∃ shown', v'.Shows shown' ∧
      shown'.map Message.core = (passed (hist ++ [op])).map Message.core ∧
      v'.seenIds.getLast? = lastSeen (passed (hist ++ [op])) := by
  rw [List.map_append, ← map_id_of_map_core hcore] at hnd
  rw [passed_concat]
  cases op with
  | clear => exact ⟨v.clear, rfl, [], shows_clear v, rfl, rfl⟩
  | addMessages batch =>
    obtain ⟨v', shown', hv', hshows, hcore', hlast'⟩ :=
      lastSeen_addMessages h (hne Op.noConfusion) hnd hlast
    refine ⟨v', hv', shown', hshows, ?_, hlast'⟩
    rw [hcore', hcore, ← List.map_append]
    rfl
  | diffMessages batch =>
    have hnd' := (List.nodup_append.mp hnd).2.1
    obtain ⟨v', hv', hshows⟩ := v.shows_diffMessages (hne Op.noConfusion) hnd'
    refine ⟨v', hv', _, hshows, map_flagged Message.core core_markSeen _ _ _, ?_⟩
    rw [hshows.seenIds_eq, ← lastSeen_eq, lastSeen_flagged hnd']
    rfl

/-- **The last flag of a run.** It is on the last message that was passed in as seen and is
still shown. -/
theorem exists_run_lastSeen {ops : List Op} (h : PassesOnce ops) :
    ∃ v, Runs.run step .new ops = some v ∧ ∃ shown, v.Shows shown ∧
      shown.map Message.core = (passed ops).map Message.core ∧
      v.seenIds.getLast? = lastSeen (passed ops) := by
  refine Runs.run_induction
    (fun hist (v : ChatView) => ∃ shown, v.Shows shown ∧
      shown.map Message.core = (passed hist).map Message.core ∧
      v.seenIds.getLast? = lastSeen (passed hist))
    PassesOnce (fun hist op h => h.init) ⟨[], shows_new, rfl, rfl⟩ ?_ ops h
  rintro hist v op ⟨shown, hshows, hcore, hlast⟩ h
  exact step_lastSeen hshows hcore hlast h.last_messages h.last_nodup

end ChatView

/-- An item gets the badge if its id is that of the last flag and it has a cell. -/
theorem SeenBadgeBuilder.build_eq_seenBadge_iff {data : Snapshot Section Message}
    {path : IndexPath} {m : Message} (h : data.itemIdentifierFor path = some m) :
    build data path = .seenBadge ↔
      lastSeen data.itemIdentifiers = some m.id ∧ m.origin ≠ .system := by
  have hlast : isLastSeenMessage data m ↔ lastSeen data.itemIdentifiers = some m.id := by
    have heq : (data.itemIdentifiers.filter fun m => m.seen == true).getLast?.map Message.id =
        lastSeen data.itemIdentifiers := rfl
    rw [isLastSeenMessage, heq]
    cases lastSeen data.itemIdentifiers <;> simp
  -- the message with the last flag has the flag
  have hseen : lastSeen data.itemIdentifiers = some m.id → m.seen = true := by
    intro hid
    rw [lastSeen_eq] at hid
    obtain ⟨m', hm', hms, hid'⟩ := mem_seenIn.mp (List.mem_of_getLast? hid)
    rwa [← Snapshot.eq_of_id hm' (Snapshot.mem_of_itemIdentifierFor h) hid']
  by_cases ho : m.origin = .system
  · have hnone := (Snapshot.cellForItem_eq_none_iff h).mpr ho
    simp [build, getMessage, hnone, ho]
  · obtain ⟨cell, hcell, -⟩ := Snapshot.exists_cellForItem h ho
    rw [← hlast] at hseen ⊢
    simp only [build, getMessage, hcell, Option.map_some, Bool.and_eq_true]
    by_cases hm : isLastSeenMessage data m = true
    · simp [hm, hseen hm, ho]
    · simp [hm]

/-- **The seen badge sits on the last message that was passed in as seen.** A run of
`clear`, `addMessages` and `diffMessages` on non-empty lists, with pairwise distinct ids
over the run, never traps; and of the items on screen the builder gives the badge to the
last that was passed in as seen, if that is not a system message, and to no other. There
is one place for this item. -/
theorem seenBadge_iff {ops : List ChatView.Op} (hne : ∀ op ∈ ops, op ≠ .clear → op.messages ≠ [])
    (hnd : ((ops.flatMap ChatView.Op.messages).map Message.id).Nodup) :
    ∃ v, Runs.run ChatView.step .new ops = some v ∧
      (∀ path m, v.data.itemIdentifierFor path = some m →
        (SeenBadgeBuilder.build v.data path = .seenBadge ↔
          v.lastPassedSeen (passed ops) = some m.id ∧ m.origin ≠ .system)) ∧
      ∀ i, v.lastPassedSeen (passed ops) = some i →
        ∃! path, (v.data.itemIdentifierFor path).map Message.id = some i := by
  obtain ⟨v, hv, shown, hshows, hcore, hlast⟩ := ChatView.exists_run_lastSeen ⟨hne, hnd⟩
  refine ⟨v, hv, ?_⟩
  rw [hshows.lastPassedSeen_eq hcore, ← hlast, ChatView.getLast?_seenIds]
  refine ⟨fun path m h => SeenBadgeBuilder.build_eq_seenBadge_iff h, fun i hi => ?_⟩
  rw [lastSeen_eq] at hi
  obtain ⟨m, hm, -, rfl⟩ := mem_seenIn.mp (List.mem_of_getLast? hi)
  obtain ⟨path, hpath⟩ := Snapshot.exists_itemIdentifierFor hm
  refine ⟨path, by simp [hpath], fun path' hpath' => ?_⟩
  obtain ⟨m', hm', hid⟩ := Option.map_eq_some_iff.mp hpath'
  obtain rfl := Snapshot.eq_of_id (Snapshot.mem_of_itemIdentifierFor hm') hm hid
  exact Snapshot.path_unique hm' hpath

/-- Two seen messages of two senders, in two batches: both carry a flag, one the badge. -/
theorem seenBadge_iff_twoSeen :
    ∃ v, Runs.run ChatView.step .new twoSeen = some v ∧
      (∀ path m, v.data.itemIdentifierFor path = some m →
        (SeenBadgeBuilder.build v.data path = .seenBadge ↔
          v.lastPassedSeen (passed twoSeen) = some m.id ∧ m.origin ≠ .system)) ∧
      ∀ i, v.lastPassedSeen (passed twoSeen) = some i →
        ∃! path, (v.data.itemIdentifierFor path).map Message.id = some i :=
  seenBadge_iff (by simp [twoSeen, ChatView.Op.messages]) (by decide)

/-- A seen message of the system has no cell, hence no badge. -/
theorem not_always_seenBadge :
    ¬ ∀ ops : List ChatView.Op, (∀ op ∈ ops, op ≠ .clear → op.messages ≠ []) →
      ((ops.flatMap ChatView.Op.messages).map Message.id).Nodup →
      ∀ v, Runs.run ChatView.step .new ops = some v →
      ∀ path m, v.data.itemIdentifierFor path = some m →
        (SeenBadgeBuilder.build v.data path = .seenBadge ↔
          v.lastPassedSeen (passed ops) = some m.id) := by
  intro hall
  let ops : List ChatView.Op :=
    [.addMessages [{ sampleMessage 0 0 with seen := true, origin := .system }]]
  have hrun : (Runs.run ChatView.step .new ops).map (fun v =>
      ((v.data.itemIdentifierFor ⟨0, 0⟩).map Message.id, SeenBadgeBuilder.build v.data ⟨0, 0⟩,
        v.lastPassedSeen (passed ops))) =
      some (some (.replicate 0), .emptySeenBadge, some (.replicate 0)) := by
    decide +kernel
  obtain ⟨v, hv, hvalues⟩ := Option.map_eq_some_iff.mp hrun
  obtain ⟨hitem, hbuild, hlast⟩ : _ ∧ _ ∧ _ := by simpa only [Prod.mk.injEq] using hvalues
  obtain ⟨m, hm, hid⟩ := Option.map_eq_some_iff.mp hitem
  have hiff := hall ops (by simp [ops, ChatView.Op.messages]) (by decide) v hv ⟨0, 0⟩ m hm
  rw [hbuild, hlast, hid] at hiff
  exact absurd (hiff.mpr rfl) (by decide)

end MoonMessenger
