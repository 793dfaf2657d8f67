import MoonMessenger.Grouping

/-!
# The seen flag

`build` rewrites the seen flags of its whole working list, so that the last seen
message alone keeps the flag, but puts only the new messages back into the snapshot,
and the last old one if the batch joins its section. Whatever other message on screen
carried the flag keeps it (`seenIds_addMessages`).

`oneSeen_iff_noStaleFlag` says, for whole runs, when the snapshot shows what the
builder meant: exactly if no batch with a seen message comes while a flag stands
elsewhere than on a last message that the batch joins.
-/

namespace MoonMessenger

/-- The ids of the seen messages of a list, in order. -/
def seenIn (ms : List Message) : List UUID := (ms.filter fun m => m.seen == true).map Message.id

/-- The ids of the messages on screen that carry the seen flag, in display order. -/
def ChatView.seenIds (v : ChatView) : List UUID := seenIn v.data.itemIdentifiers

/-- Of the messages on screen, the last that was passed in as seen. -/
def ChatView.lastPassedSeen (v : ChatView) (ms : List Message) : Option UUID :=
  ((v.data.itemIdentifiers.map Message.id).filter fun i => i ∈ seenIn ms).getLast?

/-- What the call `op`, from `v` to `v'` after the calls `hist`, has to do to the seen
flags. -/
def OneSeen (hist : List ChatView.Op) (v : ChatView) (op : ChatView.Op) (v' : ChatView) : Prop :=
  ((∃ m ∈ op.messages, m.seen = true) →
    ∃ i, v'.lastPassedSeen (passed (hist ++ [op])) = some i ∧ v'.seenIds = [i]) ∧
  ∀ batch, op = .addMessages batch → (∀ m ∈ batch, m.seen = false) →
    ∀ i, i ∈ v'.seenIds ↔ i ∈ v.seenIds

/-- A batch with a seen message comes only when no message on screen carries the flag,
the last one excepted if the batch joins its section. -/
def NoStaleFlag (v : ChatView) : ChatView.Op → Prop
  | .addMessages batch => DataBuilder.atLeastOneMessageIsSeen batch = true →
      ∀ m ∈ v.data.itemIdentifiers, m.seen = true →
        v.data.itemIdentifiers.getLast? = some m ∧ ∃ first ∈ batch.head?, sameRun m first = true
  | _ => True

/-! ## Seen messages of a list -/

theorem atLeastOneMessageIsSeen_iff {ms : List Message} :
    DataBuilder.atLeastOneMessageIsSeen ms = true ↔ ∃ m ∈ ms, m.seen = true := by
  rw [DataBuilder.atLeastOneMessageIsSeen, Bool.not_eq_true', List.isEmpty_eq_false_iff_exists_mem]
  simp only [List.mem_filter, beq_iff_eq]

@[simp] theorem seenIn_nil : seenIn [] = [] := rfl

@[simp] theorem seenIn_append (xs ys : List Message) :
    seenIn (xs ++ ys) = seenIn xs ++ seenIn ys := by
  rw [seenIn, List.filter_append, List.map_append]
  rfl

theorem seenIn_eq_nil {ms : List Message} : seenIn ms = [] ↔ ∀ m ∈ ms, m.seen = false := by
  rw [seenIn, List.map_eq_nil_iff, List.filter_eq_nil_iff]
  simp only [beq_iff_eq, Bool.not_eq_true]

theorem mem_seenIn {ms : List Message} {i : UUID} :
    i ∈ seenIn ms ↔ ∃ m ∈ ms, m.seen = true ∧ m.id = i := by
  simp only [seenIn, List.mem_map, List.mem_filter, beq_iff_eq, and_assoc]

/-- Only ids and flags matter. -/
theorem seenIn_congr {xs ys : List Message}
    (h : xs.map (fun m => (m.id, m.seen)) = ys.map fun m => (m.id, m.seen)) :
    seenIn xs = seenIn ys := by
  have hpairs (ms : List Message) : seenIn ms =
      ((ms.map fun m => (m.id, m.seen)).filter fun p => p.2 == true).map Prod.fst := by
    rw [List.filter_map, List.map_map]
    rfl
  rw [hpairs, h, ← hpairs]

theorem lastSeen_eq (ms : List Message) : lastSeen ms = (seenIn ms).getLast? := by
  rw [lastSeen, seenIn, List.getLast?_map]

theorem exists_lastSeen {batch : List Message} (hseen : ∃ m ∈ batch, m.seen = true) :
    ∃ i ∈ batch.map Message.id, ∀ before, lastSeen (before ++ batch) = some i := by
  have hne : seenIn batch ≠ [] := by
    obtain ⟨m, hm, hms⟩ := hseen
    exact List.ne_nil_of_mem (mem_seenIn.mpr ⟨m, hm, hms, rfl⟩)
  obtain ⟨m, hm, -, hid⟩ := mem_seenIn.mp (List.getLast_mem hne)
  refine ⟨(seenIn batch).getLast hne, by rw [← hid]; exact List.mem_map_of_mem hm, fun before => ?_⟩
  rw [lastSeen_eq, seenIn_append, List.getLast?_append_of_ne_nil _ hne,
    List.getLast?_eq_some_getLast hne]

/-- Marking the last seen message takes every other flag away. -/
theorem seenIn_map_markSeen (last : Option UUID) (ms : List Message) :
    seenIn (ms.map (markSeen last)) = (ms.map Message.id).filter fun i => some i = last := by
  rw [seenIn, List.filter_map, List.map_map, List.filter_map]
  congr 1
  refine List.filter_congr fun m _ => ?_
  rw [Function.comp_apply, Function.comp_apply, markSeen, beq_true]

theorem seenIn_map_markSeen_of_mem {ms : List Message} {i : UUID} (hnd : (ms.map Message.id).Nodup)
    (hi : i ∈ ms.map Message.id) : seenIn (ms.map (markSeen (some i))) = [i] := by
  simp only [seenIn_map_markSeen, Option.some.injEq]
  rw [List.filter_eq, List.count_eq_one_of_mem hnd hi, List.replicate_one]

theorem seenIn_map_markSeen_of_notMem {ms : List Message} {i : UUID}
    (hi : i ∉ ms.map Message.id) : seenIn (ms.map (markSeen (some i))) = [] := by
  rw [seenIn_map_markSeen, List.filter_eq_nil_iff]
  intro j hj hij
  rw [decide_eq_true_eq, Option.some.injEq] at hij
  exact hi (hij ▸ hj)

/-! ## The working list -/

/-- A batch without a seen message leaves the flags alone. -/
theorem flagged_of_unseen {batch : List Message} (hunseen : ∀ m ∈ batch, m.seen = false)
    (items ms : List Message) : flagged items batch ms = ms := by
  refine if_neg fun hseen => ?_
  obtain ⟨m, hm, hms⟩ := atLeastOneMessageIsSeen_iff.mp hseen
  rw [hunseen m hm] at hms
  cases hms

/-- Any other leaves the flag of its last seen message only. -/
theorem exists_flagged_of_seen {batch : List Message} (hseen : ∃ m ∈ batch, m.seen = true) :
    ∃ i ∈ batch.map Message.id, (∀ before, lastSeen (before ++ batch) = some i) ∧
      ∀ items ms, flagged items batch ms = ms.map (markSeen (some i)) := by
  obtain ⟨i, hi, hlast⟩ := exists_lastSeen hseen
  refine ⟨i, hi, hlast, fun items ms => ?_⟩
  rw [flagged, if_pos (atLeastOneMessageIsSeen_iff.mpr hseen), hlast]

/-! ## One call -/

/-- The old messages that `build` leaves as they are when the batch starts with
`first`. -/
def kept (items : List Message) (first : Message) : List Message :=
  if items.getLast?.any (fun prev => sameRun prev first) then items.dropLast else items

/-- The condition on a batch, in terms of what it leaves alone. -/
theorem seenIn_kept_eq_nil {items : List Message} {first : Message}
    (hnd : (items.map Message.id).Nodup) :
    seenIn (kept items first) = [] ↔
      ∀ m ∈ items, m.seen = true → items.getLast? = some m ∧ sameRun m first = true := by
  rcases List.eq_nil_or_concat' items with rfl | ⟨init, prev, rfl⟩
  · simp [kept]
  have hprev : prev ∉ init := by
    intro hmem
    have hnd' := List.Nodup.of_map _ hnd
    exact (List.nodup_append.mp hnd').2.2 prev hmem prev (List.mem_singleton_self _) rfl
  rw [kept, List.getLast?_concat, Option.any_some, List.dropLast_concat, seenIn_eq_nil]
  cases hrun : sameRun prev first with
  | true =>
    rw [if_pos rfl]
    refine ⟨fun h m hm hms => ?_, fun h m hm => ?_⟩
    · rcases List.mem_append.mp hm with hm | hm
      · rw [h m hm] at hms
        cases hms
      · obtain rfl := List.mem_singleton.mp hm
        exact ⟨rfl, hrun⟩
    · by_contra hms
      obtain ⟨heq, -⟩ := h m (List.mem_append_left _ hm) (by simpa using hms)
      exact hprev (Option.some.inj heq ▸ hm)
  | false =>
    rw [if_neg Bool.false_ne_true]
    refine ⟨fun h m hm hms => ?_, fun h m hm => ?_⟩
    · rw [h m hm] at hms
      cases hms
    · by_contra hms
      obtain ⟨heq, hrun'⟩ := h m hm (by simpa using hms)
      rw [← Option.some.inj heq, hrun] at hrun'
      cases hrun'

theorem map_kept {β : Type} (f : Message → β) {xs ys : List Message}
    (hcore : xs.map Message.core = ys.map Message.core) (hf : xs.map f = ys.map f)
    {first first' : Message} (hfirst : first.core = first'.core) :
    (kept xs first).map f = (kept ys first').map f := by
  have hany : xs.getLast?.any (fun prev => sameRun prev first) =
      ys.getLast?.any (fun prev => sameRun prev first') := by
    rcases List.eq_nil_or_concat' xs with rfl | ⟨xs, x, rfl⟩
    · rw [List.map_eq_nil_iff.mp hcore.symm]
      rfl
    · obtain ⟨ys, y, rfl, hyx⟩ := exists_last_of_map hcore List.getLast?_concat
      rw [List.getLast?_concat, List.getLast?_concat, Option.any_some, Option.any_some,
        sameRun_congr hyx.symm hfirst]
  rw [kept, kept, hany]
  split
  · rw [List.map_dropLast, List.map_dropLast, hf]
  · exact hf

/-- Attaching a batch adds its flags to those of the messages left alone, when the
working list has no other flag. -/
theorem seenIn_attach {shown old : List Message}
    (hcore : old.map Message.core = shown.map Message.core) (hold : seenIn old = [])
    (first : Message) (rest : List Message) :
    seenIn (attach shown old (first :: rest)) =
      seenIn (kept shown first) ++ seenIn (first :: rest) := by
  have hattach : seenIn (attach shown old (first :: rest)) =
      seenIn (extend shown old.getLast? first) ++ seenIn rest := by
    rw [attach, seenIn_append]
  rw [hattach, ← List.singleton_append, seenIn_append, ← List.append_assoc]
  congr 1
  rcases List.eq_nil_or_concat' old with rfl | ⟨old, prev, rfl⟩
  · rw [List.map_nil, eq_comm, List.map_eq_nil_iff] at hcore
    subst hcore
    rfl
  · have hprev : seenIn [prev] = [] := by
      rw [seenIn_append, List.append_eq_nil_iff] at hold
      exact hold.2
    obtain ⟨init, a, rfl, ha⟩ := exists_last_of_map hcore List.getLast?_concat
    rw [List.getLast?_concat, extend, kept, List.getLast?_concat, Option.any_some,
      sameRun_congr ha.symm rfl]
    split
    · have hpair : seenIn [prev, first] = seenIn [first] := by
        rw [← List.singleton_append, seenIn_append, hprev, List.nil_append]
      rw [seenIn_append, List.dropLast_concat, hpair]
    · rw [seenIn_append]

namespace ChatView

variable {v : ChatView} {shown : List Message}

theorem Shows.seenIds_eq (h : v.Shows shown) : v.seenIds = seenIn shown :=
  seenIn_congr (Laid.map_itemIdentifiers _ (fun _ _ => rfl) h)

/-- **What `addMessages` does to the seen flags.** A batch with a seen message adds the
last of them to the flags of the messages left alone; a batch without one changes
nothing. -/
theorem seenIds_addMessages (h : v.Shows shown) {batch : List Message} (hne : batch ≠ [])
    (hnd : (shown.map Message.id ++ batch.map Message.id).Nodup) :
    ∃ v' shown', v.addMessages batch = some v' ∧ v'.Shows shown' ∧
      shown'.map Message.core = shown.map Message.core ++ batch.map Message.core ∧
      ((∀ m ∈ batch, m.seen = false) → v'.seenIds = v.seenIds) ∧
      ∀ i, (∃ m ∈ batch, m.seen = true) → lastSeen batch = some i → ∀ first ∈ batch.head?,
        v'.seenIds = seenIn (kept v.data.itemIdentifiers first) ++ [i] := by
  set items := v.data.itemIdentifiers with hitems
  have hcore : items.map Message.core = shown.map Message.core :=
    Laid.map_itemIdentifiers _ Message.core_withCorners h
  have hpair : items.map (fun m => (m.id, m.seen)) = shown.map fun m => (m.id, m.seen) :=
    Laid.map_itemIdentifiers _ (fun _ _ => rfl) h
  have hold : (flagged items batch items).map Message.core = shown.map Message.core :=
    Laid.map_core_flagged h batch
  obtain ⟨v', hv', hshows⟩ :=
    shows_addMessages h (List.append_ne_nil_of_right_ne_nil shown hne) hnd
  refine ⟨v', _, hv', hshows, ?_, ?_, ?_⟩
  · rw [map_attach Message.core hold, map_flagged Message.core core_markSeen]
  · intro hunseen
    rw [hshows.seenIds_eq, flagged_of_unseen hunseen, flagged_of_unseen hunseen, h.seenIds_eq]
    have hattach : seenIn (attach shown items batch) = seenIn (shown ++ batch) :=
      seenIn_congr (by rw [map_attach _ hpair, List.map_append])
    rw [hattach, seenIn_append, seenIn_eq_nil.mpr hunseen, List.append_nil]
  · intro i hseen hlast first hfirst
    obtain ⟨rest, rfl⟩ : ∃ rest, batch = first :: rest := List.head?_eq_some_iff.mp hfirst
    obtain ⟨j, hj, hbefore, hflagged⟩ := exists_flagged_of_seen hseen
    obtain rfl : i = j := by simpa [hlast] using hbefore []
    have hi : i ∉ items.map Message.id := by
      rw [map_id_of_map_core hcore]
      exact fun hmem => (List.nodup_append.mp hnd).2.2 i hmem i hj rfl
    rw [hflagged] at hold
    rw [hshows.seenIds_eq, hflagged, hflagged, List.map_cons,
      seenIn_attach hold (seenIn_map_markSeen_of_notMem hi), ← List.map_cons,
      seenIn_map_markSeen_of_mem (List.nodup_append.mp hnd).2.1 hj]
    congr 1
    exact seenIn_congr (map_kept _ hcore.symm hpair.symm (core_markSeen _ first))

/-- On screen, the last message passed as seen is the last seen message passed. -/
theorem Shows.lastPassedSeen_eq (h : v.Shows shown) {ms : List Message}
    (hcore : shown.map Message.core = ms.map Message.core) :
    v.lastPassedSeen ms = lastSeen ms := by
  have hids : v.data.itemIdentifiers.map Message.id = ms.map Message.id := by
    rw [Laid.map_itemIdentifiers _ Message.id_withCorners h, map_id_of_map_core hcore]
  have hnd : (ms.map Message.id).Nodup := by
    rw [← map_id_of_map_core hcore]
    exact Laid.nodup_ids h
  have hfilter : ms.filter ((fun i => i ∈ seenIn ms) ∘ Message.id) =
      ms.filter fun m => m.seen == true := by
    refine List.filter_congr fun m hm => ?_
    rw [Function.comp_apply, Bool.eq_iff_iff, decide_eq_true_eq, mem_seenIn, beq_iff_eq]
    refine ⟨?_, fun hms => ⟨m, hm, hms, rfl⟩⟩
    rintro ⟨m', hm', hms, hid⟩
    rwa [← List.inj_on_of_nodup_map hnd hm' hm hid]
  rw [lastPassedSeen, hids, List.filter_map, hfilter, lastSeen_eq, seenIn]

/-- A full build takes every stale flag away. -/
theorem diffMessages_oneSeen (v : ChatView) (hist : List Op) {batch : List Message}
    (hne : batch ≠ []) (hnd : (batch.map Message.id).Nodup) :
    ∃ v', v.diffMessages batch = some v' ∧
      (∃ shown', v'.Shows shown' ∧
        shown'.map Message.core = (passed (hist ++ [.diffMessages batch])).map Message.core) ∧
      OneSeen hist v (.diffMessages batch) v' := by
  obtain ⟨v', hv', hshows⟩ := v.shows_diffMessages hne hnd
  have hcore : (flagged [] batch batch).map Message.core =
      (passed (hist ++ [.diffMessages batch])).map Message.core := by
    rw [map_flagged Message.core core_markSeen, passed_concat]
    rfl
  refine ⟨v', hv', ⟨_, hshows, hcore⟩, fun (hseen : ∃ m ∈ batch, m.seen = true) => ?_,
    fun batch' hop => Op.noConfusion hop⟩
  obtain ⟨i, hi, hlast, hflagged⟩ := exists_flagged_of_seen hseen
  refine ⟨i, ?_, ?_⟩
  · rw [hshows.lastPassedSeen_eq hcore, passed_concat]
    exact hlast []
  · rw [hshows.seenIds_eq, hflagged, seenIn_map_markSeen_of_mem hnd hi]

/-- With a seen message, a batch meets no stale flag exactly if the messages it leaves
alone have none. -/
theorem Shows.noStaleFlag_iff (h : v.Shows shown) {first : Message} {rest : List Message}
    (hseen : ∃ m ∈ first :: rest, m.seen = true) :
    NoStaleFlag v (.addMessages (first :: rest)) ↔
      seenIn (kept v.data.itemIdentifiers first) = [] := by
  have hnd : (v.data.itemIdentifiers.map Message.id).Nodup := by
    rw [Laid.map_itemIdentifiers _ Message.id_withCorners h]
    exact Laid.nodup_ids h
  rw [seenIn_kept_eq_nil hnd, NoStaleFlag]
  simp [atLeastOneMessageIsSeen_iff.mpr hseen]

/-- A batch leaves no stale flag exactly when it meets none. -/
theorem addMessages_oneSeen_iff {hist : List Op} (h : v.Shows shown)
    (hcore : shown.map Message.core = (passed hist).map Message.core) {batch : List Message}
    (hne : batch ≠ []) (hnd : (shown.map Message.id ++ batch.map Message.id).Nodup) :
    ∃ v', v.addMessages batch = some v' ∧
      (∃ shown', v'.Shows shown' ∧
        shown'.map Message.core = (passed (hist ++ [.addMessages batch])).map Message.core) ∧
      (OneSeen hist v (.addMessages batch) v' ↔ NoStaleFlag v (.addMessages batch)) := by
  obtain ⟨v', shown', hv', hshows, hcore', hunseen, hseen⟩ := seenIds_addMessages h hne hnd
  have hpassed : shown'.map Message.core =
      (passed (hist ++ [.addMessages batch])).map Message.core := by
    rw [hcore', hcore, passed_concat, ← List.map_append]
    rfl
  refine ⟨v', hv', ⟨shown', hshows, hpassed⟩, ?_⟩
  obtain ⟨first, rest, rfl⟩ := List.exists_cons_of_ne_nil hne
  by_cases hs : ∃ m ∈ first :: rest, m.seen = true
  · obtain ⟨i, hi, hlast⟩ := exists_lastSeen hs
    have hlast' :
        v'.lastPassedSeen (passed (hist ++ [.addMessages (first :: rest)])) = some i := by
      rw [hshows.lastPassedSeen_eq hpassed, passed_concat]
      exact hlast _
    have hids := hseen i hs (hlast []) first rfl
    rw [h.noStaleFlag_iff hs]
    refine ⟨fun hone => ?_, fun hnil => ⟨fun _ => ?_, fun batch hop hunseen' => ?_⟩⟩
    · obtain ⟨j, -, hj⟩ := hone.1 hs
      rw [hids] at hj
      simpa using congrArg List.length hj
    · exact ⟨i, hlast', by rw [hids, hnil, List.nil_append]⟩
    · obtain rfl := Op.addMessages.inj hop
      obtain ⟨m, hm, hms⟩ := hs
      rw [hunseen' m hm] at hms
      cases hms
  · refine iff_of_true ⟨fun hs' => absurd hs' hs, ?_⟩ fun hs' => ?_
    · rintro batch hop hunseen' i
      obtain rfl := Op.addMessages.inj hop
      rw [hunseen hunseen']
    · exact absurd (atLeastOneMessageIsSeen_iff.mp hs') hs

/-- **One call.** It does what it has to do to the flags exactly when no flag on screen
is stale. -/
theorem step_oneSeen {hist : List Op} (h : v.Shows shown)
    (hcore : shown.map Message.core = (passed hist).map Message.core) {op : Op}
    (hne : op ≠ .clear → op.messages ≠ [])
    (hnd : ((passed hist ++ op.messages).map Message.id).Nodup) :
    ∃ v', v.step op = some v' ∧
      (∃ shown', v'.Shows shown' ∧
        shown'.map Message.core = (passed (hist ++ [op])).map Message.core) ∧
      (OneSeen hist v op v' ↔ NoStaleFlag v op) := by
  rw [List.map_append, ← map_id_of_map_core hcore] at hnd
  cases op with
  | clear =>
    refine ⟨v.clear, rfl, ⟨[], shows_clear v, by rw [passed_concat]; rfl⟩, ?_⟩
    refine iff_of_true ⟨?_, fun batch hop => Op.noConfusion hop⟩ trivial
    rintro ⟨m, hm, -⟩
    cases hm
  | diffMessages batch =>
    obtain ⟨v', hv', hshows, hone⟩ :=
      v.diffMessages_oneSeen hist (hne (by simp)) (List.nodup_append.mp hnd).2.1
    exact ⟨v', hv', hshows, iff_of_true hone trivial⟩
  | addMessages batch => exact addMessages_oneSeen_iff h hcore (hne (by simp)) hnd

end ChatView

/-- **At most one seen flag, as long as no flag is stale.** A run of `clear`,
`addMessages` and `diffMessages` on non-empty lists, with pairwise distinct ids over
the run, never traps; and each of its calls does what it has to do to the seen flags
if and only if no batch with a seen message meets a flag on screen that it does not
take away. -/
theorem oneSeen_iff_noStaleFlag {ops : List ChatView.Op}
    (hne : ∀ op ∈ ops, op ≠ .clear → op.messages ≠ [])
    (hnd : ((ops.flatMap ChatView.Op.messages).map Message.id).Nodup) :
    (∃ v, Runs.run ChatView.step .new ops = some v) ∧
      (Runs.Always ChatView.step OneSeen .new ops ↔
        Runs.Always ChatView.step (fun _ v op _ => NoStaleFlag v op) .new ops) := by
  have hrun := Runs.run_always ChatView.step .new
    (fun hist v => ∃ shown, v.Shows shown ∧ shown.map Message.core = (passed hist).map Message.core)
    PassesOnce (fun hist v op v' => OneSeen hist v op v' ↔ NoStaleFlag v op)
    (fun hist op h => h.init) ⟨[], Laid.empty 0, rfl⟩ ?_ ⟨hne, hnd⟩
  · obtain ⟨⟨v, hv, -⟩, halways⟩ := hrun
    exact ⟨⟨v, hv⟩, Runs.always_congr halways⟩
  · rintro hist v op ⟨shown, hshows, hcore⟩ h
    exact ChatView.step_oneSeen hshows hcore h.last_messages h.last_nodup

/-- Two seen messages of two senders, added one by one. -/
def twoSeen : List ChatView.Op :=
  [.addMessages [{ sampleMessage 0 0 with seen := true }],
    .addMessages [{ sampleMessage 1 60 with seen := true, userId := "v" }]]

theorem oneSeen_iff_noStaleFlag_twoSeen :
    (∃ v, Runs.run ChatView.step .new twoSeen = some v) ∧
      (Runs.Always ChatView.step OneSeen .new twoSeen ↔
        Runs.Always ChatView.step (fun _ v op _ => NoStaleFlag v op) .new twoSeen) :=
  oneSeen_iff_noStaleFlag (by simp [twoSeen, ChatView.Op.messages]) (by decide)

/-- Both of them keep the flag: the calls do not always do what they have to do. -/
theorem not_always_oneSeen :
    ¬ ∀ ops : List ChatView.Op, (∀ op ∈ ops, op ≠ .clear → op.messages ≠ []) →
      ((ops.flatMap ChatView.Op.messages).map Message.id).Nodup →
      Runs.Always ChatView.step OneSeen .new ops := by
  intro hall
  have htwo := hall twoSeen (by simp [twoSeen, ChatView.Op.messages]) (by decide)
  have hrun : (Runs.run ChatView.step .new twoSeen).map ChatView.seenIds =
      some [.replicate 0, .replicate 1] := by
    decide +kernel
  obtain ⟨v, hv, hids⟩ := Option.map_eq_some_iff.mp hrun
  obtain ⟨_, -, hone⟩ := Runs.Always.last [twoSeen[0]] twoSeen[1] htwo hv
  obtain ⟨i, -, hi⟩ := hone.1 ⟨_, List.mem_singleton_self _, rfl⟩
  rw [hids] at hi
  cases hi

end MoonMessenger
