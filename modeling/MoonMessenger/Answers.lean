import MoonMessenger.ConvoList

/-!
# Completions

`createConvo` and `getConvoKeys` take a completion, which nothing else than their own
nested callbacks ever calls. Here they return the list of the calls they make.
`answersOnce_iff` goes through all outcomes: a failed request, a missing node and a node
that is no dictionary get no answer, and the progress HUD that waits for one stays.
-/

namespace MoonMessenger

namespace Backend

/-- What `getData` calls its block with. -/
inductive GetData where
  /-- an error, and no snapshot -/
  | error
  | snapshot (value : Json)

/-- The value of the snapshot. One that is not there does not exist, either. -/
def GetData.value : GetData → Json
  | error => .null
  | snapshot value => value

/-- The calls of the completion of `getConvoKeys`. -/
def getConvoKeysCalls (currentUser : Option String) (data : GetData) : List (List String) :=
  (getConvoKeys currentUser data.value).toList

/-- The calls of the completion of `createConvo`, where `setValue` ends with `error`. -/
def createConvoCalls {Error : Type} (currentUser : Option String) (key : String) (data : GetData)
    (error : Option Error) : List (Option Error) :=
  (createConvoRead currentUser key data.value).toList.map fun _ => error

end Backend

/-- What happens to the progress HUD. -/
inductive HudCall where
  | show
  | dismiss
  deriving DecidableEq

/-- The HUD of the Continue button's handler, which shows it before it calls `createConvo`
and dismisses it in the completion. -/
def continueHud {Error : Type} (count : String → ℕ) (uuid : UUID) (text : Option String)
    (currentUser : Option String) (data : Backend.GetData) (error : Option Error) : List HudCall :=
  match continueButton count uuid text with
  | none => []
  | some key =>
    .show :: (Backend.createConvoCalls currentUser key data error).map fun _ => .dismiss

namespace Backend

variable {currentUser : Option String} {data : GetData}

/-- A user is signed in, and the request delivers an existing dictionary. -/
def Answered (currentUser : Option String) (data : GetData) : Prop :=
  currentUser.isSome ∧ ∃ entries, data = .snapshot (.dictionary entries)

theorem isSome_getConvoKeys_iff :
    (getConvoKeys currentUser data.value).isSome ↔ Answered currentUser data := by
  cases currentUser with
  | none => exact iff_of_false Bool.false_ne_true fun h => Bool.false_ne_true h.1
  | some uid =>
    rw [Answered, and_iff_right (Option.isSome_some : (some uid).isSome = true)]
    cases data with
    | error => exact iff_of_false Bool.false_ne_true fun ⟨_, h⟩ => GetData.noConfusion h
    | snapshot value =>
      simp only [GetData.snapshot.injEq, GetData.value, getConvoKeys, Option.bind_eq_bind,
        Option.bind_some]
      cases value with
      | dictionary entries =>
        refine iff_of_true ?_ ⟨entries, rfl⟩
        simp only [Json.snapshotExists, if_true, Json.asDictionary?_dictionary, Option.bind_some]
        split <;> rfl
      | null => simp [Json.snapshotExists]
      | bool b => simp [Json.snapshotExists, Json.asDictionary?]
      | number x => simp [Json.snapshotExists, Json.asDictionary?]
      | string s => simp [Json.snapshotExists, Json.asDictionary?]
      | array elements => simp [Json.snapshotExists, Json.asDictionary?]

theorem isSome_createConvoRead_iff {key : String} :
    (createConvoRead currentUser key data.value).isSome ↔
      key ≠ "" ∧ Answered currentUser data := by
  rw [createConvoRead, ← isSome_getConvoKeys_iff]
  split
  · rename_i hkey
    exact (and_iff_right hkey).symm
  · rename_i hkey
    exact iff_of_false Bool.false_ne_true fun h => hkey h.1

theorem length_toList_eq_one {α : Type} (o : Option α) : o.toList.length = 1 ↔ o.isSome := by
  cases o <;> simp

end Backend

/-- **When `createConvo` answers.** For every user, key, and outcome of the two requests,
`createConvo` calls its completion exactly once if and only if the key is not empty, a
user is signed in and `getData` delivers an existing dictionary; so does `getConvoKeys`,
whatever the key; and the HUD of the Continue button is dismissed in just these cases. -/
theorem answersOnce_iff {Error : Type} (currentUser : Option String) (key : String)
    (data : Backend.GetData) (error : Option Error) :
    ((Backend.createConvoCalls currentUser key data error).length = 1 ↔
      key ≠ "" ∧ Backend.Answered currentUser data) ∧
    ((Backend.getConvoKeysCalls currentUser data).length = 1 ↔
      Backend.Answered currentUser data) ∧
    ∀ count uuid text, continueButton count uuid text = some key →
      (HudCall.dismiss ∈ continueHud count uuid text currentUser data error ↔
        key ≠ "" ∧ Backend.Answered currentUser data) := by
  refine ⟨?_, ?_, fun count uuid text htext => ?_⟩
  · rw [Backend.createConvoCalls, List.length_map, Backend.length_toList_eq_one,
      Backend.isSome_createConvoRead_iff]
  · rw [Backend.getConvoKeysCalls, Backend.length_toList_eq_one, Backend.isSome_getConvoKeys_iff]
  · simp only [continueHud, htext, Backend.createConvoCalls, ← Backend.isSome_createConvoRead_iff]
    cases Backend.createConvoRead currentUser key data.value with
    | none => simp
    | some keys => simp

/-- The request fails: no answer. -/
theorem not_answersOnce :
    ¬ ∀ (currentUser : Option String) (key : String) (data : Backend.GetData)
      (error : Option String),
      (Backend.createConvoCalls currentUser key data error).length = 1 := by
  intro hall
  exact absurd (hall (some "u") "k" .error none) (by decide)

end MoonMessenger
