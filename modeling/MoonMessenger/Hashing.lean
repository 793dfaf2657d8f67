import MoonMessenger.Diffing
import MoonMessenger.Seen

/-!
# Equality and hashing

Messages are compared by `id`, but feed `id` and `seen` to the hasher. A diff between
two snapshots may then take one message for two. `build` rewrites the flag of one old
message at most, the last one, when it appends it again: `hashesAgree_iff` says which
batches do so.
-/

namespace MoonMessenger

/-- The batch brings a seen message and joins the section of a message that is seen. -/
def TakesFlagAway (items batch : List Message) : Prop :=
  DataBuilder.atLeastOneMessageIsSeen batch = true ∧
    ∃ last ∈ items.getLast?, last.seen = true ∧ ∃ first ∈ batch.head?, sameRun last first = true

/-- An attached batch of new messages matters only if it joins the last section, by the
copy of the last message that it brings along. -/
theorem hashesAgree_attach {init : List Message} {a prev first : Message} {old rest : List Message}
    (hold : old.getLast? = some prev) (hid : prev.id = a.id)
    (hnd : ((init ++ [a]).map Message.id ++ (first :: rest).map Message.id).Nodup) :
    Agree Message.hash (init ++ [a]) (attach (init ++ [a]) old (first :: rest)) ↔
      (sameRun prev first = true → prev.seen = a.seen) := by
  obtain ⟨hshown, -, hdisjoint⟩ := List.nodup_append.mp hnd
  have hnew : Agree Message.hash (init ++ [a]) (first :: rest) :=
    agree_of_disjoint fun i hi hi' => hdisjoint i hi i hi' rfl
  rw [attach, hold, extend, List.dropLast_concat]
  cases sameRun prev first with
  | true =>
    have hsplit : init ++ [prev, first] ++ rest = init ++ [prev] ++ first :: rest := by simp
    rw [if_pos rfl, hsplit, agree_append, and_iff_left hnew, agree_replaceLast hid hshown,
      Message.hash, Message.hash, Prod.mk.injEq, and_iff_right hid]
    exact ⟨fun h _ => h, fun h => h rfl⟩
  | false =>
    rw [if_neg Bool.false_ne_true, List.append_assoc, List.singleton_append, agree_append]
    exact iff_of_true ⟨agree_self hshown, hnew⟩ fun h => absurd h Bool.false_ne_true

/-- The working list's copy of the last item keeps its flag exactly if the batch brings
no seen message. -/
theorem exists_getLast?_flagged {items batch : List Message} {last : Message}
    (hlast : items.getLast? = some last) (hnew : last.id ∉ batch.map Message.id) :
    ∃ prev, (flagged items batch items).getLast? = some prev ∧ prev.core = last.core ∧
      prev.seen = (last.seen && !DataBuilder.atLeastOneMessageIsSeen batch) := by
  cases hseen : DataBuilder.atLeastOneMessageIsSeen batch with
  | true =>
    obtain ⟨i, hi, -, hflagged⟩ := exists_flagged_of_seen (atLeastOneMessageIsSeen_iff.mp hseen)
    have hne : some last.id ≠ some i := fun h => hnew (Option.some.inj h ▸ hi)
    rw [hflagged, List.getLast?_map, hlast, Bool.not_true, Bool.and_false]
    exact ⟨_, rfl, rfl, decide_eq_false hne⟩
  | false =>
    rw [flagged, hseen, if_neg Bool.false_ne_true, hlast, Bool.not_false, Bool.and_true]
    exact ⟨last, rfl, rfl, rfl⟩

theorem exists_flagged_cons (items batch : List Message) (first : Message) (rest : List Message) :
    ∃ first' rest', flagged items batch (first :: rest) = first' :: rest' ∧
      first'.core = first.core := by
  rw [flagged]
  split
  · exact ⟨_, _, rfl, rfl⟩
  · exact ⟨_, _, rfl, rfl⟩

/-- What is displayed as `items` and built on as `shown` agrees with what `build` makes of
it, unless a flag is taken away. -/
theorem hashesAgree_attach_flagged {items shown batch : List Message} (hne : batch ≠ [])
    (hhash : items.map (fun m => (m.id, m.hash)) = shown.map fun m => (m.id, m.hash))
    (hnd : (shown.map Message.id ++ batch.map Message.id).Nodup) :
    Agree Message.hash shown
        (attach shown (flagged items batch items) (flagged items batch batch)) ↔
      ¬ TakesFlagAway items batch := by
  obtain ⟨first, rest, rfl⟩ := List.exists_cons_of_ne_nil hne
  rw [TakesFlagAway]
  cases hlast : items.getLast? with
  | none =>
    -- nothing was shown
    rw [List.getLast?_eq_none_iff.mp hlast, List.map_nil, eq_comm, List.map_eq_nil_iff] at hhash
    subst hhash
    exact iff_of_true (fun a ha => absurd ha List.not_mem_nil) (by simp)
  | some last =>
    obtain ⟨init, a, rfl, ha⟩ := exists_last_of_map hhash hlast
    have hid : a.id = last.id := congrArg Prod.fst ha
    have hflag : a.seen = last.seen := congrArg (fun p => p.2.2) ha
    have hlastnew : last.id ∉ (first :: rest).map Message.id := fun hmem =>
      (List.nodup_append.mp hnd).2.2 a.id (by simp) last.id hmem hid
    obtain ⟨prev, hprev, hcore, hseen⟩ := exists_getLast?_flagged hlast hlastnew
    obtain ⟨first', rest', hnew, hfirst⟩ := exists_flagged_cons items (first :: rest) first rest
    have hnd' : ((init ++ [a]).map Message.id ++ (first' :: rest').map Message.id).Nodup := by
      rwa [← hnew, map_flagged Message.id fun _ _ => rfl]
    have hprevid : prev.id = a.id := (Message.id_eq_of_core hcore).trans hid.symm
    rw [hnew, hashesAgree_attach hprev hprevid hnd', sameRun_congr hcore hfirst, hseen, hflag]
    -- joining copies the last message, and the copy has lost its flag if the batch brings one
    have hflags : ∀ joins seen brings : Bool, (joins = true → (seen && !brings) = seen) ↔
        ¬ (brings = true ∧ seen = true ∧ joins = true) := by decide
    simp only [Option.mem_some_iff, exists_eq_left', List.head?_cons]
    exact hflags _ _ _

/-- **Equal items hash equally, unless a batch takes a flag away.** For every reachable
chat view and every non-empty batch of messages with new and distinct ids, `addMessages`
does not trap, and equal messages of the snapshots before and after feed the same values
to the hasher if and only if not both the batch brings a seen message and it joins the
section of a last message that is seen. -/
theorem hashesAgree_iff {ops : List ChatView.Op} {v : ChatView}
    (hv : Runs.run ChatView.step .new ops = some v) {batch : List Message} (hne : batch ≠ [])
    (hnd : (v.data.itemIdentifiers.map Message.id ++ batch.map Message.id).Nodup) :
    ∃ v', v.addMessages batch = some v' ∧
      (Agree Message.hash v.data.itemIdentifiers v'.data.itemIdentifiers ↔
        ¬ TakesFlagAway v.data.itemIdentifiers batch) := by
  obtain ⟨shown, hshows, -⟩ := ChatView.shows_of_run hv
  have hids : v.data.itemIdentifiers.map Message.id = shown.map Message.id :=
    Laid.map_itemIdentifiers _ Message.id_withCorners hshows
  have hhash : v.data.itemIdentifiers.map (fun m => (m.id, m.hash)) =
      shown.map fun m => (m.id, m.hash) :=
    Laid.map_itemIdentifiers _ (fun _ _ => rfl) hshows
  rw [hids] at hnd
  obtain ⟨v', hv', hshows'⟩ :=
    ChatView.shows_addMessages hshows (List.append_ne_nil_of_right_ne_nil shown hne) hnd
  have hhash' :=
    Laid.map_itemIdentifiers (fun m => (m.id, m.hash)) (fun _ _ => rfl) hshows'
  refine ⟨v', hv', ?_⟩
  rw [agree_congr hhash hhash']
  exact hashesAgree_attach_flagged hne hhash hnd

/-- A seen message, sent `t` seconds after the epoch. -/
def seenMessage (d : ℕ) (t : TimeInterval) : Message := { sampleMessage d t with seen := true }

theorem hashesAgree_iff_twoSeen :
    ∃ v v', Runs.run ChatView.step .new [.addMessages [seenMessage 0 0]] = some v ∧
      v.addMessages [seenMessage 1 60] = some v' ∧
      (Agree Message.hash v.data.itemIdentifiers v'.data.itemIdentifiers ↔
        ¬ TakesFlagAway v.data.itemIdentifiers [seenMessage 1 60]) := by
  have hrun : (Runs.run ChatView.step .new [.addMessages [seenMessage 0 0]]).map
      (fun v => v.data.itemIdentifiers.map Message.id) = some [.replicate 0] := by
    decide +kernel
  obtain ⟨v, hv, hids⟩ := Option.map_eq_some_iff.mp hrun
  obtain ⟨v', hv', hiff⟩ := hashesAgree_iff hv (List.cons_ne_nil (seenMessage 1 60) [])
    (by rw [hids]; decide)
  exact ⟨v, v', hv, hv', hiff⟩

/-- A seen message, and a minute later another one of the same sender: the first one is
added again without its flag. -/
theorem not_forall_hashesAgree :
    ¬ ∀ (ops : List ChatView.Op) (v v' : ChatView) (batch : List Message),
      Runs.run ChatView.step .new ops = some v → batch ≠ [] →
      (v.data.itemIdentifiers.map Message.id ++ batch.map Message.id).Nodup →
      v.addMessages batch = some v' →
      Agree Message.hash v.data.itemIdentifiers v'.data.itemIdentifiers := by
  intro hall
  have hrun : ((Runs.run ChatView.step .new [.addMessages [seenMessage 0 0]]).bind fun v =>
      (v.addMessages [seenMessage 1 60]).map fun v' =>
        (decide (v.data.itemIdentifiers.map Message.id ++ [seenMessage 1 60].map Message.id).Nodup,
          decide (Agree Message.hash v.data.itemIdentifiers v'.data.itemIdentifiers))) =
      some (true, false) := by
    decide +kernel
  obtain ⟨v, hv, h⟩ := Option.bind_eq_some_iff.mp hrun
  obtain ⟨v', hv', h⟩ := Option.map_eq_some_iff.mp h
  obtain ⟨hnd, hagree⟩ := Prod.ext_iff.mp h
  exact of_decide_eq_false hagree
    (hall _ v v' [seenMessage 1 60] hv (by simp) (of_decide_eq_true hnd) hv')

end MoonMessenger
