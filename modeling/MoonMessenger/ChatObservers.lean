import MoonMessenger.Decoding
import MoonMessenger.Lib.Runs

/-!
# The observers of an open chat

`MessagesViewController` calls `getMessages` in `viewDidAppear`: when it is opened, and
again each time the channel editor that covered it is closed. Each call registers one more
observer, and nobody removes one. Every observer that is told a dictionary makes the chat
view rebuild itself.

`rebuildsOnce_iff`: there is one rebuild for each change exactly as long as the view has
appeared once, and the changes are not deletions of the last message.
-/

namespace MoonMessenger

/-- Where the view of the controller is. -/
inductive Phase where
  /-- not yet on screen -/
  | opening
  | onScreen
  /-- under another controller that takes the full screen -/
  | covered
  | dismissed
  deriving DecidableEq

/-- A controller, with what it has made of the values it was told. -/
structure MessagesViewController where
  phase : Phase
  /-- the observers of `conversations/<id>`, by the uid each was registered by -/
  observers : List String
  /-- the calls of `diffMessages` on the chat view, by their arguments -/
  diffs : List (List Message)

namespace MessagesViewController

/-- What can happen to a controller. Of a value event, `calls i` is what the library calls
return that the observer number `i` makes. -/
inductive Event where
  /-- `viewDidAppear`, with the uid of the account signed in -/
  | viewDidAppear (currentUser : Option String)
  /-- `editChannelDetails`: the channel editor is presented -/
  | editChannelDetails
  | dismiss
  /-- the node changes: every observer is told its value -/
  | value (value : Json) (calls : ℕ → ℕ → Backend.Calls)
  /-- the value there is when an observer is registered: only that observer is told -/
  | initialValue (value : Json) (calls : ℕ → ℕ → Backend.Calls)

/-- A new controller. -/
def new : MessagesViewController := ⟨.opening, [], []⟩

/-- The observers `getMessages` registers: one, if an account is signed in. -/
def registered : Event → List String
  | .viewDidAppear currentUser => currentUser.toList
  | _ => []

/-- What these observers pass to `diffMessages` when they are told `value`. -/
def deliver (users : List String) (value : Json) (calls : ℕ → ℕ → Backend.Calls) :
    List (List Message) :=
  (users.mapIdx fun i user => Backend.getMessages (some user) value (calls i)).reduceOption

/-- One event. The editor is presented by the view on screen, and a view that was
dismissed does not come back. -/
def step (s : MessagesViewController) : Event → Option MessagesViewController
  | .viewDidAppear currentUser =>
    if s.phase = .opening ∨ s.phase = .covered then
      some { s with phase := .onScreen, observers := s.observers ++ currentUser.toList }
    else none
  | .editChannelDetails => if s.phase = .onScreen then some { s with phase := .covered } else none
  | .dismiss =>
    if s.phase = .onScreen ∨ s.phase = .covered then some { s with phase := .dismissed } else none
  | .value value calls => some { s with diffs := s.diffs ++ deliver s.observers value calls }
  | .initialValue value calls =>
    match s.observers.getLast? with
    | none => none
    | some user => some { s with diffs := s.diffs ++ deliver [user] value calls }

/-- The uids that observers were registered by in the course of these events. -/
def registrations (hist : List Event) : List String := hist.flatMap registered

/-- How many observers a value event tells, and the value, after these events. -/
def told (hist : List Event) : Event → Option (ℕ × Json)
  | .value value _ => some ((registrations hist).length, value)
  | .initialValue value _ => some (1, value)
  | _ => none

/-- The event adds one call of `diffMessages` if it is a value event and the view is on
screen, and none if it has been dismissed. -/
def RebuildsOnce (hist : List Event) (s : MessagesViewController) (e : Event)
    (s' : MessagesViewController) : Prop :=
  (told hist e).isSome →
    (s.phase = .onScreen → s'.diffs.length = s.diffs.length + 1) ∧
      (s.phase = .dismissed → s'.diffs = s.diffs)

/-- A value event that comes while the view is on screen tells one observer a dictionary;
one that comes after it has been dismissed tells nobody one. -/
def TellsOne (hist : List Event) (s : MessagesViewController) (e : Event) : Prop :=
  ∀ n value, told hist e = some (n, value) →
    (s.phase = .onScreen → n = 1 ∧ value.asDictionary?.isSome) ∧
      (s.phase = .dismissed → n = 0 ∨ value.asDictionary? = none)

variable {hist : List Event} {s s' : MessagesViewController} {e : Event}

/-- Each observer makes one call, if the value is a dictionary. -/
theorem length_deliver (users : List String) (value : Json) (calls : ℕ → ℕ → Backend.Calls) :
    (deliver users value calls).length =
      if value.asDictionary?.isSome then users.length else 0 := by
  rw [deliver]
  induction users generalizing calls with
  | nil => simp
  | cons user users ih =>
    rw [List.mapIdx_cons]
    have ih' := ih fun i => calls (i + 1)
    cases hvalue : value.asDictionary? with
    | none =>
      have hnone : Backend.getMessages (some user) value (calls 0) = none := by
        simp [Backend.getMessages, hvalue]
      rw [hnone, List.reduceOption_cons_of_none, ih', hvalue]
      rfl
    | some data =>
      have hsome : ∃ ms, Backend.getMessages (some user) value (calls 0) = some ms := by
        simp [Backend.getMessages, hvalue]
      obtain ⟨ms, hms⟩ := hsome
      rw [hms, List.reduceOption_cons_of_some, List.length_cons, ih', hvalue]
      rfl

/-- The observers are those that were registered: none is removed. -/
theorem observers_step (hs : step s e = some s') : s'.observers = s.observers ++ registered e := by
  cases e with
  | viewDidAppear currentUser =>
    rw [step] at hs
    split at hs
    · obtain rfl := Option.some.inj hs
      rfl
    · cases hs
  | editChannelDetails =>
    rw [step] at hs
    split at hs
    · obtain rfl := Option.some.inj hs
      simp [registered]
    · cases hs
  | dismiss =>
    rw [step] at hs
    split at hs
    · obtain rfl := Option.some.inj hs
      simp [registered]
    · cases hs
  | value value calls =>
    obtain rfl := Option.some.inj hs
    simp [registered]
  | initialValue value calls =>
    rw [step] at hs
    split at hs
    · cases hs
    · obtain rfl := Option.some.inj hs
      simp [registered]

theorem registrations_concat (hist : List Event) (e : Event) :
    registrations (hist ++ [e]) = registrations hist ++ registered e := by
  simp [registrations]

/-- A value event adds the calls of the observers that are told. -/
theorem diffs_step (h : s.observers = registrations hist) (hs : step s e = some s') {n : ℕ}
    {value : Json} (htold : told hist e = some (n, value)) :
    ∃ ms, s'.diffs = s.diffs ++ ms ∧
      ms.length = if value.asDictionary?.isSome then n else 0 := by
  cases e with
  | value value calls =>
    obtain rfl := Option.some.inj hs
    obtain ⟨rfl, rfl⟩ := Prod.mk.inj (Option.some.inj htold)
    exact ⟨_, rfl, by rw [length_deliver, h]⟩
  | initialValue value calls =>
    obtain ⟨rfl, rfl⟩ := Prod.mk.inj (Option.some.inj htold)
    rw [step] at hs
    split at hs
    · cases hs
    · obtain rfl := Option.some.inj hs
      exact ⟨_, rfl, length_deliver _ _ _⟩
  | _ => cases htold

/-- **One event.** There is one rebuild exactly if one observer is told a dictionary. -/
theorem rebuildsOnce_iff_tellsOne (h : s.observers = registrations hist)
    (hs : step s e = some s') : RebuildsOnce hist s e s' ↔ TellsOne hist s e := by
  rw [RebuildsOnce, TellsOne]
  cases htold : told hist e with
  | none => simp
  | some p =>
    obtain ⟨n, value⟩ := p
    obtain ⟨ms, hdiffs, hlength⟩ := diffs_step h hs htold
    have hnone : s'.diffs = s.diffs ↔ n = 0 ∨ value.asDictionary? = none := by
      rw [hdiffs, List.append_right_eq_self, ← List.length_eq_zero_iff, hlength]
      cases value.asDictionary? <;> simp
    have hone : s'.diffs.length = s.diffs.length + 1 ↔ n = 1 ∧ value.asDictionary?.isSome := by
      rw [hdiffs, List.length_append, Nat.add_left_cancel_iff, hlength]
      cases value.asDictionary? <;> simp
    rw [hnone, hone]
    simp

end MessagesViewController

/-- **One change, one rebuild, as long as one observer is told.** In every run of a
controller that is shown and covered any number of times, every value event causes one
call of `diffMessages` while the view is on screen and none after it has been dismissed, if
and only if each one that comes while the view is on screen tells a single observer, and
tells it a dictionary, and no dictionary is told to an observer after the dismissal. Every
appearance registers an observer for the rest of the run. -/
theorem rebuildsOnce_iff (es : List MessagesViewController.Event) :
    Runs.Always MessagesViewController.step MessagesViewController.RebuildsOnce .new es ↔
      Runs.Always MessagesViewController.step
        (fun hist s e _ => MessagesViewController.TellsOne hist s e) .new es := by
  refine Runs.always_congr (Runs.always_of_invariant
    (fun hist s => s.observers = MessagesViewController.registrations hist) rfl ?_)
  intro hist s e s' _ _ h hs
  refine ⟨?_, MessagesViewController.rebuildsOnce_iff_tellsOne h hs⟩
  rw [MessagesViewController.observers_step hs, MessagesViewController.registrations_concat, h]

/-- The channel editor is opened and closed again: the next change is drawn twice. -/
theorem not_always_rebuildsOnce :
    ¬ ∀ es : List MessagesViewController.Event,
      Runs.Always MessagesViewController.step MessagesViewController.RebuildsOnce .new es := by
  intro hall
  have hone := hall
    [.viewDidAppear (some "u"), .editChannelDetails, .viewDidAppear (some "u"),
      .value (.dictionary [("a", sampleRecord "Hello")]) fun _ _ => sampleCalls 1]
    [.viewDidAppear (some "u"), .editChannelDetails, .viewDidAppear (some "u")]
    (.value (.dictionary [("a", sampleRecord "Hello")]) fun _ _ => sampleCalls 1) _ _
    (List.prefix_refl _) rfl rfl rfl
  exact absurd (hone.1 rfl) (by decide +kernel)

end MoonMessenger
