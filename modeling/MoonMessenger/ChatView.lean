import MoonMessenger.DataBuilder
import MoonMessenger.Lib.Runs

/-!
# The chat view

The operations of `ChatView` on its data source. The state is the snapshot last
applied (and the count of the section ids drawn so far); `none` is a trap inside
`DataBuilder.build`.
-/

namespace MoonMessenger

/-- The state of a chat view. -/
structure ChatView where
  data : Snapshot Section Message
  drawn : ℕ

namespace ChatView

/-- A new chat view: `init` clears it. -/
def new : ChatView := ⟨.empty, 0⟩

/-- `clear` -/
def clear (v : ChatView) : ChatView := { v with data := .empty }

/-- `addMessages` -/
def addMessages (v : ChatView) (messages : List Message) : Option ChatView := do
  let builder ← (DataBuilder.init v.data v.drawn).build messages
  return ⟨builder.data, builder.drawn⟩

/-- `diffMessages` -/
def diffMessages (v : ChatView) (messages : List Message) : Option ChatView := do
  let snap := v.data.deleteAllItems
  let builder ← (DataBuilder.init snap v.drawn).build messages
  return ⟨builder.data, builder.drawn⟩

/-- The calls that change the messages shown. -/
inductive Op where
  | clear
  | addMessages (messages : List Message)
  | diffMessages (messages : List Message)

/-- The messages a call is passed. -/
def Op.messages : Op → List Message
  | .clear => []
  | .addMessages messages => messages
  | .diffMessages messages => messages

/-- One call. -/
def step (v : ChatView) : Op → Option ChatView
  | .clear => some v.clear
  | .addMessages messages => v.addMessages messages
  | .diffMessages messages => v.diffMessages messages

end ChatView

/-- The messages passed in since the last `clear` or `diffMessages`, after one more
call. -/
def ChatView.Op.after (before : List Message) : ChatView.Op → List Message
  | .clear => []
  | .addMessages messages => before ++ messages
  | .diffMessages messages => messages

/-- The messages passed in since the last `clear` or `diffMessages`. -/
def passed (ops : List ChatView.Op) : List Message := ops.foldl ChatView.Op.after []

theorem passed_concat (hist : List ChatView.Op) (op : ChatView.Op) :
    passed (hist ++ [op]) = op.after (passed hist) := by
  rw [passed, List.foldl_append]
  rfl

/-- What was passed since the last `clear` is part of all that was passed. -/
theorem passed_sublist (ops : List ChatView.Op) :
    (passed ops).Sublist (ops.flatMap ChatView.Op.messages) := by
  induction ops using List.reverseRecOn with
  | nil => exact List.Sublist.refl []
  | append_singleton ops op ih =>
    rw [passed_concat, List.flatMap_append, List.flatMap_singleton]
    cases op with
    | clear => exact List.nil_sublist _
    | addMessages batch => exact ih.append_right batch
    | diffMessages batch => exact List.sublist_append_right _ batch

/-- Where no id is passed twice, none is passed twice before the last call, and none that
was passed since the last `clear` again by it. -/
theorem nodup_ids_concat {hist : List ChatView.Op} {op : ChatView.Op}
    (hnd : (((hist ++ [op]).flatMap ChatView.Op.messages).map Message.id).Nodup) :
    ((hist.flatMap ChatView.Op.messages).map Message.id).Nodup ∧
      ((passed hist ++ op.messages).map Message.id).Nodup := by
  rw [List.flatMap_append, List.flatMap_singleton] at hnd
  refine ⟨hnd.sublist ((List.sublist_append_left _ _).map Message.id), ?_⟩
  exact hnd.sublist (((passed_sublist hist).append_right op.messages).map Message.id)

/-- The calls pass messages, and no id twice. -/
structure PassesOnce (ops : List ChatView.Op) : Prop where
  messages : ∀ op ∈ ops, op ≠ .clear → op.messages ≠ []
  nodup : ((ops.flatMap ChatView.Op.messages).map Message.id).Nodup

section PassesOnce

variable {hist : List ChatView.Op} {op : ChatView.Op}

theorem PassesOnce.init (h : PassesOnce (hist ++ [op])) : PassesOnce hist := by
  refine ⟨?_, (nodup_ids_concat h.nodup).1⟩
  intro op' hop'
  exact h.messages op' (List.mem_append_left _ hop')

theorem PassesOnce.last_messages (h : PassesOnce (hist ++ [op])) :
    op ≠ .clear → op.messages ≠ [] := by
  refine h.messages op (List.mem_append_right _ ?_)
  exact List.mem_singleton_self op

theorem PassesOnce.last_nodup (h : PassesOnce (hist ++ [op])) :
    ((passed hist ++ op.messages).map Message.id).Nodup := (nodup_ids_concat h.nodup).2

end PassesOnce

end MoonMessenger
