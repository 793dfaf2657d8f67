import MoonMessenger.Json
import MoonMessenger.Lib.Runs

/-!
# The profile

`ProfileViewController` takes a copy of the username when its view appears, and puts it
back, trimmed, when the view disappears: into `User.username` and, for an account that is
signed in, into its node. Meanwhile the observer may have delivered another name.

The history of a run says which name the observer has delivered last, and which it was
when the view last appeared (`visit`). `unchanged_iff_current` says when a visit without
typing changes nothing.
-/

namespace MoonMessenger

/-- What the profile screen reads and writes. -/
structure Profile where
  /-- `User.username` -/
  username : String
  /-- the value of `users/<uid>/username` -/
  stored : Json
  /-- `Auth.auth().currentUser`, by its uid -/
  currentUser : Option String
  /-- `username.textfield.text` -/
  text : Option String
  /-- whether the view is between an appearance and a disappearance -/
  visible : Bool

namespace Profile

/-- What can happen during a visit. -/
inductive Event where
  | viewWillAppear
  /-- the user types; the field then holds `text` -/
  | type (text : String)
  | viewWillDisappear
  /-- the observer of `observeUsername` is told the value `value` -/
  | value (value : Json)
  /-- another device sets `users/<uid>/username` -/
  | rename (value : Json)
  /-- the logout button -/
  | signOut

/-- The start of a visit: an empty field. -/
def opened (username : String) (stored : Json) (currentUser : Option String) : Profile :=
  ⟨username, stored, currentUser, some "", false⟩

/-- `updateUsername` -/
def updateUsername (s : Profile) : Profile :=
  match s.currentUser with
  | none => s
  | some _ => { s with stored := .string s.username }

/-- The closure of `observeUsername`. -/
def observedUsername (value : Json) : String := value.asString?.getD "Username"

/-- One event. Appearances and disappearances alternate, and the user types into a view
that is there. -/
def step (s : Profile) : Event → Option Profile
  | .viewWillAppear =>
    if s.visible then none else some { s with text := some s.username, visible := true }
  | .type text => if s.visible then some { s with text := some text } else none
  | .viewWillDisappear =>
    if s.visible then
      let username := (s.text.map trimmingWhitespace).getD "Username"
      some (updateUsername { s with username := username, visible := false })
    else none
  | .value value => some { s with username := observedUsername value }
  | .rename value => some { s with stored := value }
  | .signOut => some { s with currentUser := none }

/-! ## What the history says -/

/-- The name the observer has delivered last, the one it had delivered last when the view
last appeared, and whether the user has typed. -/
structure Visit where
  known : String
  copied : String
  typed : Bool

/-- The same, after one more event. -/
def Visit.after (visit : Visit) : Event → Visit
  | .viewWillAppear => { visit with copied := visit.known }
  | .type _ => { visit with typed := true }
  | .value value => { visit with known := observedUsername value }
  | _ => visit

/-- The visit so far. Until the observer delivers a name, the one at the start counts. -/
def visit (username : String) (hist : List Event) : Visit :=
  hist.foldl Visit.after ⟨username, username, false⟩

/-- The event is a disappearance. -/
def Event.disappears : Event → Prop
  | .viewWillDisappear => True
  | _ => False

/-- After a disappearance, the username is the one the observer has delivered last, and
the node has the value it had before. -/
def Unchanged (username : String) (hist : List Event) (s s' : Profile) : Prop :=
  s'.username = (visit username hist).known ∧ s'.stored = s.stored

/-- The name that was there when the view last appeared is, trimmed, the one delivered
last, and the node of an account that is signed in has this value. -/
def Current (username : String) (hist : List Event) (s : Profile) : Prop :=
  trimmingWhitespace (visit username hist).copied = (visit username hist).known ∧
    (s.currentUser.isSome → s.stored = .string (visit username hist).known)

/-- Before the user types, the username is the one delivered last, and the field holds
the one that was there when the view appeared. -/
def Tracks (username : String) (hist : List Event) (s : Profile) : Prop :=
  (visit username hist).typed = false →
    s.username = (visit username hist).known ∧
      (s.visible → s.text = some (visit username hist).copied)

variable {username : String} {hist : List Event} {s s' : Profile} {e : Event}

theorem visit_concat (username : String) (hist : List Event) (e : Event) :
    visit username (hist ++ [e]) = (visit username hist).after e := by
  rw [visit, List.foldl_append]
  rfl

@[simp] theorem username_updateUsername (s : Profile) :
    s.updateUsername.username = s.username := by
  rw [updateUsername]
  split <;> rfl

@[simp] theorem visible_updateUsername (s : Profile) :
    s.updateUsername.visible = s.visible := by
  rw [updateUsername]
  split <;> rfl

/-- The node is set to the username for an account that is signed in. -/
theorem stored_updateUsername_eq_iff (s : Profile) (value : Json) :
    s.updateUsername.stored = value ↔
      if s.currentUser.isSome then value = .string s.username else value = s.stored := by
  rw [updateUsername]
  cases s.currentUser with
  | none => simp [eq_comm]
  | some uid => simp [eq_comm]

theorem step_viewWillAppear (h : step s .viewWillAppear = some s') :
    s' = { s with text := some s.username, visible := true } := by
  rw [step] at h
  split at h
  · cases h
  · exact (Option.some.inj h).symm

theorem step_viewWillDisappear (h : step s .viewWillDisappear = some s') :
    s.visible ∧ s' = updateUsername
      { s with
        username := (s.text.map trimmingWhitespace).getD "Username"
        visible := false } := by
  rw [step] at h
  split at h
  · exact ⟨‹_›, (Option.some.inj h).symm⟩
  · cases h

/-- **One disappearance.** Without typing, it leaves things unchanged exactly if the name
in the field is current. -/
theorem unchanged_iff (h : Tracks username hist s)
    (htyped : (visit username hist).typed = false) (hs : step s .viewWillDisappear = some s') :
    Unchanged username hist s s' ↔ Current username hist s := by
  obtain ⟨hvisible, rfl⟩ := step_viewWillDisappear hs
  have htext : s.text = some (visit username hist).copied := (h htyped).2 hvisible
  rw [Unchanged, Current, username_updateUsername, stored_updateUsername_eq_iff, htext,
    Option.map_some, Option.getD_some]
  refine and_congr_right fun hname => ?_
  rw [hname]
  cases s.currentUser with
  | none => simp
  | some uid => simp

/-- Every event keeps track, a disappearance if it leaves things unchanged. -/
theorem Tracks.step (h : Tracks username hist s) (hs : Profile.step s e = some s')
    (hunchanged : e.disappears → (visit username hist).typed = false →
      Unchanged username hist s s') : Tracks username (hist ++ [e]) s' := by
  rw [Tracks, visit_concat]
  intro htyped
  cases e with
  | viewWillAppear =>
    obtain rfl := step_viewWillAppear hs
    exact ⟨(h htyped).1, fun _ => congrArg some (h htyped).1⟩
  | type text => cases htyped
  | viewWillDisappear =>
    have hname := (hunchanged trivial htyped).1
    obtain ⟨-, rfl⟩ := step_viewWillDisappear hs
    refine ⟨hname, fun hvisible => ?_⟩
    simp at hvisible
  | value value =>
    obtain rfl := Option.some.inj hs
    exact ⟨rfl, (h htyped).2⟩
  | rename value =>
    obtain rfl := Option.some.inj hs
    exact h htyped
  | signOut =>
    obtain rfl := Option.some.inj hs
    exact h htyped

end Profile

/-- **Viewing the profile changes nothing, as long as the name shown is current.** In every
run of a visit, from any state of the account, each disappearance before which the user
has not typed leaves the newest name in `User.username` and the node as it is, if and only
if each of them finds the name that was copied current. -/
theorem unchanged_iff_current (username : String) (stored : Json) (currentUser : Option String)
    (es : List Profile.Event) :
    Runs.Always Profile.step
        (fun hist s e s' => e.disappears → (Profile.visit username hist).typed = false →
          Profile.Unchanged username hist s s') (.opened username stored currentUser) es ↔
      Runs.Always Profile.step
        (fun hist s e _ => e.disappears → (Profile.visit username hist).typed = false →
          Profile.Current username hist s) (.opened username stored currentUser) es := by
  refine Runs.always_iff_of_invariant (Profile.Tracks username) ?_ ?_
  · exact fun _ => ⟨rfl, fun hvisible => nomatch hvisible⟩
  · intro hist e s s' _ _ hs h
    refine ⟨imp_congr_right fun hdisappears => imp_congr_right fun htyped => ?_, h.step hs⟩
    cases e with
    | viewWillDisappear => exact Profile.unchanged_iff h htyped hs
    | _ => exact hdisappears.elim

/-- The name is changed on another device while the profile is open: closing the profile
puts the old one back. -/
theorem not_always_unchanged :
    ¬ ∀ (username : String) (stored : Json) (currentUser : Option String)
        (es : List Profile.Event),
      Runs.Always Profile.step
        (fun hist s e s' => e.disappears → (Profile.visit username hist).typed = false →
          Profile.Unchanged username hist s s') (.opened username stored currentUser) es := by
  intro hall
  have hkept := hall "Ann" (.string "Ann") (some "u")
    [.viewWillAppear, .rename (.string "Bea"), .value (.string "Bea"), .viewWillDisappear]
    [.viewWillAppear, .rename (.string "Bea"), .value (.string "Bea")] .viewWillDisappear _ _
    (List.prefix_refl _) rfl rfl trivial rfl
  exact absurd hkept.1 (by decide)

end MoonMessenger
