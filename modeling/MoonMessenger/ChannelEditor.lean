import MoonMessenger.ConvoName

/-!
# The channel editor

`EditChannelViewController` loads the channel's name into its text field, whenever one is
delivered, and writes the field back whenever the view disappears, loaded or not, edited
or not.

The history of a run says what the field holds (`Tracks`): what the user typed, or a name
that was put over it since. `savesEdit_iff_loaded` says when writing it back is what the
user wants.
-/

namespace MoonMessenger

/-- An open editor, and the node that it edits. -/
structure ChannelEditor where
  /-- the value of `convoData/<id>/name` -/
  name : Json
  /-- `textfield.textfield.text` -/
  text : Option String
  /-- the blocks on the main queue: each puts a name into the field -/
  blocks : List String

namespace ChannelEditor

/-- What can happen while the editor is open; `i` and `j` are random choices. -/
inductive Event where
  /-- someone else changes the name -/
  | rename (value : Json)
  /-- a value arrives at the observer of `getConvoName` -/
  | arrives (value : Json) (i : Fin RandomName.a.length) (j : Fin RandomName.b.length)
  /-- the main queue runs the oldest block, which puts `name` into the field -/
  | display (name : String)
  /-- the user types; the field then holds `text` -/
  | type (text : String)
  | viewWillDisappear (i : Fin RandomName.a.length) (j : Fin RandomName.b.length)

/-- The start: an empty field. -/
def opened (name : Json) : ChannelEditor := ⟨name, some "", []⟩

/-- The node after `getConvoName` has written a default, if it has. -/
def writing (s : ChannelEditor) : Option String → ChannelEditor
  | none => s
  | some name => { s with name := .string name }

/-- `setConvoName` -/
def setConvoName (s : ChannelEditor) (name : String) : ChannelEditor :=
  { s with name := .string name }

/-- One event. -/
def step (s : ChannelEditor) : Event → Option ChannelEditor
  | .rename value => some { s with name := value }
  | .arrives value i j =>
    let result := Backend.getConvoName value (RandomName.random i j)
    some { s.writing result.1 with blocks := s.blocks ++ [result.2] }
  | .display name =>
    match s.blocks with
    | [] => none
    | block :: blocks => if block = name then some { s with text := some name, blocks := blocks }
      else none
  | .type text => some { s with text := some text }
  | .viewWillDisappear i j =>
    some (s.setConvoName ((s.text.map trimmingWhitespace).getD (RandomName.random i j)))

/-! ## What the history says -/

/-- What the user typed last, and the name put into the field last, since then. -/
structure Edits where
  typed : Option String
  displayed : Option String

/-- The same, after one more event. -/
def Edits.after (edits : Edits) : Event → Edits
  | .display name => { edits with displayed := some name }
  | .type text => ⟨some text, none⟩
  | _ => edits

/-- What the user typed last in the course of these events, and the name put into the
field last, since then. -/
def edits (hist : List Event) : Edits := hist.foldl Edits.after ⟨none, none⟩

/-- The event is a disappearance. -/
def Event.disappears : Event → Prop
  | .viewWillDisappear _ _ => True
  | _ => False

/-- What a disappearance has to do to the name: nothing, as long as the user has not
typed; else set it to what was typed, trimmed. -/
def SavesEdit (hist : List Event) (s : ChannelEditor) (s' : ChannelEditor) : Prop :=
  match (edits hist).typed with
  | none => s'.name = s.name
  | some typed => s'.name = .string (trimmingWhitespace typed)

/-- If the user has typed, no other name has been put over it since; else the name put
into the field last is the channel's (before there is one, the empty name). Whitespace
at the ends does not matter. -/
def Loaded (hist : List Event) (s : ChannelEditor) : Prop :=
  match (edits hist).typed, (edits hist).displayed with
  | some _, none => True
  | some typed, some name => trimmingWhitespace name = trimmingWhitespace typed
  | none, some name => s.name = .string (trimmingWhitespace name)
  | none, none => s.name = .string ""

/-- The field holds what the history says. -/
def Tracks (hist : List Event) (s : ChannelEditor) : Prop :=
  s.text = some ((edits hist).displayed.getD ((edits hist).typed.getD ""))

variable {s s' : ChannelEditor} {e : Event} {hist : List Event}

theorem edits_concat (hist : List Event) (e : Event) :
    edits (hist ++ [e]) = (edits hist).after e := by
  rw [edits, List.foldl_append]
  rfl

@[simp] theorem text_writing (s : ChannelEditor) (name : Option String) :
    (s.writing name).text = s.text := by
  cases name <;> rfl

theorem step_display {name : String} (h : s.step (.display name) = some s') :
    s'.text = some name := by
  rw [step] at h
  split at h
  · cases h
  · split at h
    · obtain rfl := Option.some.inj h
      rfl
    · cases h

/-- Every event keeps track of the field. -/
theorem Tracks.step (h : Tracks hist s) (hs : ChannelEditor.step s e = some s') :
    Tracks (hist ++ [e]) s' := by
  rw [Tracks, edits_concat]
  cases e with
  | rename value =>
    obtain rfl := Option.some.inj hs
    exact h
  | arrives value i j =>
    obtain rfl := Option.some.inj hs
    exact (text_writing s _).trans h
  | display name => exact step_display hs
  | type text =>
    obtain rfl := Option.some.inj hs
    rfl
  | viewWillDisappear i j =>
    obtain rfl := Option.some.inj hs
    exact h

/-- **One disappearance.** It saves the edit exactly if the field is loaded. -/
theorem savesEdit_iff (h : Tracks hist s) {i : Fin RandomName.a.length}
    {j : Fin RandomName.b.length} (hs : ChannelEditor.step s (.viewWillDisappear i j) = some s') :
    SavesEdit hist s s' ↔ Loaded hist s := by
  obtain rfl := Option.some.inj hs
  rw [Tracks] at h
  rw [SavesEdit, Loaded, setConvoName, h, Option.map_some, Option.getD_some]
  cases (edits hist).typed with
  | none =>
    cases (edits hist).displayed with
    | none => exact eq_comm
    | some name => exact eq_comm
  | some typed =>
    cases (edits hist).displayed with
    | none => exact iff_of_true rfl trivial
    | some name => exact ⟨Json.string.inj, congrArg Json.string⟩

end ChannelEditor

/-- **The editor saves the user's edit, if the field is loaded.** In every run of an editor
of a channel with any name, each disappearance does to the name what it has to if and
only if it finds the field loaded. -/
theorem savesEdit_iff_loaded (name : Json) (es : List ChannelEditor.Event) :
    Runs.Always ChannelEditor.step
        (fun hist s e s' => e.disappears → ChannelEditor.SavesEdit hist s s') (.opened name) es ↔
      Runs.Always ChannelEditor.step
        (fun hist s e _ => e.disappears → ChannelEditor.Loaded hist s) (.opened name) es := by
  refine Runs.always_congr (Runs.always_of_invariant ChannelEditor.Tracks rfl ?_)
  intro hist s e s' _ _ h hs
  refine ⟨h.step hs, imp_congr_right fun hdisappears => ?_⟩
  cases e with
  | viewWillDisappear i j => exact ChannelEditor.savesEdit_iff h hs
  | _ => exact hdisappears.elim

/-- The editor is left before the name has been loaded: the channel loses its name. -/
theorem not_always_savesEdit :
    ¬ ∀ (name : Json) (es : List ChannelEditor.Event), Runs.Always ChannelEditor.step
      (fun hist s e s' => e.disappears → ChannelEditor.SavesEdit hist s s') (.opened name) es := by
  intro hall
  have hkept := hall (.string "Our Channel") [.viewWillDisappear ⟨0, by decide⟩ ⟨0, by decide⟩]
    [] _ _ _ (List.prefix_refl _) rfl rfl trivial
  exact absurd (Json.string.inj hkept) (by decide)

end MoonMessenger
