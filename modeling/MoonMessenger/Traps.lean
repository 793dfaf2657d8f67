import MoonMessenger.Grouping

/-!
# Calls that trap

`DataBuilder.build` loops over `0...self.messages.count-1`, a range that Swift refuses
to form when there are no messages. `exists_run_iff_hasMessages` says that nothing else
ever goes wrong: whatever is called on a chat view, as long as the ids differ, all calls
return if and only if none of them builds an empty conversation.
-/

namespace MoonMessenger

/-- After the messages `before`, the call `op` has a message to show, if it builds at
all. -/
def HasMessages (before : List Message) (op : ChatView.Op) : Prop :=
  op ≠ .clear → op.after before ≠ []

/-- A call on a non-empty list has. -/
theorem hasMessages_of_messages_ne_nil (before : List Message) {op : ChatView.Op}
    (hne : op ≠ .clear → op.messages ≠ []) : HasMessages before op := by
  intro hop
  cases op with
  | clear => exact absurd rfl hop
  | addMessages batch => exact List.append_ne_nil_of_right_ne_nil before (hne hop)
  | diffMessages batch => exact hne hop

namespace ChatView

variable {v : ChatView} {shown before : List Message} {op : Op}

/-- **One call** of new messages returns exactly when there is something to show. -/
theorem Shows.exists_step_iff (h : v.Shows shown)
    (hcore : shown.map Message.core = before.map Message.core)
    (hnd : ((before ++ op.messages).map Message.id).Nodup) :
    (∃ v', v.step op = some v') ↔ HasMessages before op := by
  have hlen : shown.length = before.length := by simpa using congrArg List.length hcore
  rw [List.map_append, ← map_id_of_map_core hcore] at hnd
  have hnil (hop : op ≠ .clear) : op.after shown ≠ [] ↔ op.after before ≠ [] := by
    rw [← List.length_pos_iff, ← List.length_pos_iff]
    cases op with
    | clear => exact absurd rfl hop
    | addMessages batch => rw [Op.after, Op.after, List.length_append, List.length_append, hlen]
    | diffMessages batch => exact Iff.rfl
  refine ⟨fun ⟨v', hv'⟩ hop => (hnil hop).mp (h.after_ne_nil hv' hop), fun hmessages => ?_⟩
  cases op with
  | clear => exact ⟨v.clear, rfl⟩
  | addMessages batch =>
    obtain ⟨v', hv', -⟩ :=
      shows_addMessages h ((hnil Op.noConfusion).mpr (hmessages Op.noConfusion)) hnd
    exact ⟨v', hv'⟩
  | diffMessages batch =>
    obtain ⟨v', hv', -⟩ :=
      v.shows_diffMessages (hmessages Op.noConfusion) (List.nodup_append.mp hnd).2.1
    exact ⟨v', hv'⟩

end ChatView

/-- **No call traps, unless there is nothing to show.** Every call of a run on lists of
messages with pairwise distinct ids, empty lists included, returns if and only if each
of `addMessages` and `diffMessages` has a message to show. -/
theorem exists_run_iff_hasMessages {ops : List ChatView.Op}
    (hnd : ((ops.flatMap ChatView.Op.messages).map Message.id).Nodup) :
    (∃ v, Runs.run ChatView.step .new ops = some v) ↔
      ∀ hist op, hist ++ [op] <+: ops → HasMessages (passed hist) op := by
  refine Runs.exists_run_iff_of_history
    (fun hist v => ∃ shown, v.Shows shown ∧ shown.map Message.core = (passed hist).map Message.core)
    (fun hist => ((hist.flatMap ChatView.Op.messages).map Message.id).Nodup)
    ?_ ⟨[], ChatView.shows_new, rfl⟩ ?_ ?_ hnd
  · exact fun hist op hnd' => (nodup_ids_concat hnd').1
  · rintro hist v op ⟨shown, hshows, hcore⟩ hnd'
    exact hshows.exists_step_iff hcore (nodup_ids_concat hnd').2
  · rintro hist v op v' ⟨shown, hshows, hcore⟩ - hv'
    rw [passed_concat]
    exact hshows.step hcore hv'

theorem exists_run_iff_hasMessages_cleared :
    (∃ v, Runs.run ChatView.step .new [.addMessages [sampleMessage 0 0],
        .addMessages [sampleMessage 1 60, sampleMessage 2 120], .addMessages [], .clear] = some v) ↔
      ∀ hist op, hist ++ [op] <+: [.addMessages [sampleMessage 0 0],
          .addMessages [sampleMessage 1 60, sampleMessage 2 120], .addMessages [], .clear] →
        HasMessages (passed hist) op :=
  exists_run_iff_hasMessages (by decide)

/-- The first delivery of a conversation without messages traps. -/
theorem not_forall_exists_run :
    ¬ ∀ ops : List ChatView.Op, ((ops.flatMap ChatView.Op.messages).map Message.id).Nodup →
      ∃ v, Runs.run ChatView.step .new ops = some v := by
  intro hall
  obtain ⟨v, hv⟩ := hall [.diffMessages []] List.nodup_nil
  have hnone : Runs.run ChatView.step .new [.diffMessages []] = none := rfl
  rw [hnone] at hv
  cases hv

end MoonMessenger
