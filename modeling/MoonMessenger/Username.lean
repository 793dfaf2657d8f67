import MoonMessenger.Json
import MoonMessenger.Lib.Runs

/-!
# The local username

`observeUsername` is called once, when the app is launched. It observes the username of
the account signed in at that moment, if there is one; nobody removes the observer when
that account signs out, and nobody makes one for the account that signs in.

`followsAccount_iff`: the local username follows the account signed in exactly if no
account signs in after the launch, and the launch account's name does not change after
it has signed out.
-/

namespace MoonMessenger

/-- The account and the local username. -/
structure Session where
  /-- `Auth.auth().currentUser`, by its uid -/
  currentUser : Option String
  /-- the uids of all accounts that there have been -/
  uids : List String
  /-- the uids of the accounts whose username is observed -/
  observed : List String
  /-- `User.username` -/
  username : String

namespace Session

inductive Event where
  | signOut
  /-- `loginUser`: an anonymous account is made, and `username` was typed -/
  | signIn (uid username : String)
  /-- `users/<uid>/username` has the value `value` -/
  | value (uid : String) (value : Json)

/-- `observeUsername`, up to the closure. -/
def observeUsername (s : Session) : Session :=
  match s.currentUser with
  | none => s
  | some user => { s with observed := s.observed ++ [user] }

/-- The launch of the app. -/
def launch (currentUser : Option String) (username : String) : Session :=
  observeUsername ⟨currentUser, currentUser.toList, [], username⟩

/-- One event. An anonymous account is made only when no account is signed in, and its uid
is new; the closure of `observeUsername` is called if it observes the node. -/
def step (s : Session) : Event → Option Session
  | .signOut => some { s with currentUser := none }
  | .signIn uid username =>
    if s.currentUser = none ∧ uid ∉ s.uids then
      some { s with currentUser := some uid, uids := uid :: s.uids, username := username }
    else none
  | .value uid value =>
    if uid ∈ s.observed then some { s with username := value.asString?.getD "Username" } else some s

/-- If the event makes the closure of `observeUsername` set the username, then to the one
of the account that is signed in. -/
def FromCurrentUser (s : Session) : Event → Prop
  | .value uid _ => uid ∈ s.observed → s.currentUser = some uid
  | _ => True

/-- The username of the account that is signed in is observed. -/
def Observed (s : Session) : Prop := ∀ uid, s.currentUser = some uid → uid ∈ s.observed

/-- The event is no sign-in. -/
def NoSignIn : Event → Prop
  | .signIn _ _ => False
  | _ => True

/-- The event is no value of the username of the launch account after it has signed
out. -/
def BeforeSignOut (launched : Option String) (hist : List Event) : Event → Prop
  | .value uid _ => launched = some uid → .signOut ∉ hist
  | _ => True

/-- What the events since the launch say. -/
structure Tracks (launched : Option String) (hist : List Event) (s : Session) : Prop where
  observed : s.observed = launched.toList
  uids : ∀ uid, launched = some uid → uid ∈ s.uids
  currentUser : ∀ uid, launched = some uid → (s.currentUser = some uid ↔ .signOut ∉ hist)

variable {launched : Option String} {username : String} {hist : List Event} {s s' : Session}
  {e : Event}

theorem tracks_launch (launched : Option String) (username : String) :
    Tracks launched [] (launch launched username) := by
  cases launched with
  | none => exact ⟨rfl, fun _ h => (nomatch h), fun _ h => (nomatch h)⟩
  | some uid =>
    refine ⟨rfl, fun uid' h => ?_, fun uid' h => iff_of_true h List.not_mem_nil⟩
    obtain rfl := Option.some.inj h
    exact List.mem_singleton_self _

theorem observed_launch (launched : Option String) (username : String) :
    (launch launched username).Observed := by
  intro uid huid
  cases launched with
  | none => cases huid
  | some uid' =>
    obtain rfl := Option.some.inj huid
    exact List.mem_singleton_self _

theorem step_signIn {uid username : String} (h : step s (.signIn uid username) = some s') :
    s.currentUser = none ∧ uid ∉ s.uids ∧ s'.currentUser = some uid ∧
      s'.uids = uid :: s.uids ∧ s'.observed = s.observed := by
  rw [step] at h
  split at h
  · rename_i hnew
    obtain rfl := Option.some.inj h
    exact ⟨hnew.1, hnew.2, rfl, rfl, rfl⟩
  · cases h

theorem step_value {uid : String} {value : Json} (h : step s (.value uid value) = some s') :
    s'.currentUser = s.currentUser ∧ s'.uids = s.uids ∧ s'.observed = s.observed := by
  rw [step] at h
  split at h
  · obtain rfl := Option.some.inj h
    exact ⟨rfl, rfl, rfl⟩
  · obtain rfl := Option.some.inj h
    exact ⟨rfl, rfl, rfl⟩

/-- Every event keeps track: once the launch account has signed out it does not come
back. -/
theorem Tracks.step (h : Tracks launched hist s) (hs : Session.step s e = some s') :
    Tracks launched (hist ++ [e]) s' := by
  cases e with
  | signOut =>
    obtain rfl := Option.some.inj hs
    refine ⟨h.observed, h.uids, fun uid _ => iff_of_false (fun h => nomatch h) fun hnot => ?_⟩
    exact hnot (by simp)
  | signIn uid username =>
    obtain ⟨hnone, hnew, hcurrent, huids, hobserved⟩ := step_signIn hs
    refine ⟨hobserved.trans h.observed, fun uid' huid' => ?_, fun uid' huid' => ?_⟩
    · rw [huids]
      exact List.mem_cons_of_mem _ (h.uids uid' huid')
    · have hout := h.currentUser uid' huid'
      have hne : uid ≠ uid' := fun heq => hnew (heq ▸ h.uids uid' huid')
      rw [hnone] at hout
      rw [hcurrent, List.mem_append, not_or, ← hout]
      exact iff_of_false (fun heq => hne (Option.some.inj heq)) fun hnot => nomatch hnot.1
  | value uid value =>
    obtain ⟨hcurrent, huids, hobserved⟩ := step_value hs
    refine ⟨hobserved.trans h.observed, fun uid' huid' => huids ▸ h.uids uid' huid', ?_⟩
    intro uid' huid'
    rw [hcurrent, h.currentUser uid' huid', List.mem_append]
    simp

/-- A sign-in, and nothing else, leaves the account unobserved. -/
theorem observed_step_iff (h : Tracks launched hist s) (hobserved : s.Observed)
    (hs : Session.step s e = some s') : s'.Observed ↔ NoSignIn e := by
  cases e with
  | signOut =>
    obtain rfl := Option.some.inj hs
    exact iff_of_true (fun uid huid => nomatch huid) trivial
  | signIn uid username =>
    obtain ⟨-, hnew, hcurrent, -, hobserved'⟩ := step_signIn hs
    refine iff_of_false (fun hobserved => hnew ?_) id
    have hmem := hobserved uid hcurrent
    rw [hobserved', h.observed, Option.mem_toList] at hmem
    exact h.uids uid hmem
  | value uid value =>
    obtain ⟨hcurrent, -, hobserved'⟩ := step_value hs
    refine iff_of_true (fun uid' huid' => ?_) trivial
    rw [hobserved']
    exact hobserved uid' (hcurrent ▸ huid')

/-- The username is set from an account that is not signed in exactly when the launch
account's changes after it has signed out. -/
theorem fromCurrentUser_iff (h : Tracks launched hist s) :
    s.FromCurrentUser e ↔ BeforeSignOut launched hist e := by
  cases e with
  | signOut => exact Iff.rfl
  | signIn uid username => exact Iff.rfl
  | value uid value =>
    rw [FromCurrentUser, BeforeSignOut, h.observed, Option.mem_toList]
    exact forall_congr' fun huid => h.currentUser uid huid

end Session

/-- **The local username follows the account only while the launch account is signed in.**
In every run from a launch, with or without an account signed in, each event that makes
`observeUsername` set the username takes it from the account then signed in, and after
each event the account signed in is observed, if and only if no account signs in and no
value of the launch account's username comes after a sign-out. -/
theorem followsAccount_iff (launched : Option String) (username : String)
    (es : List Session.Event) :
    Runs.Always Session.step (fun _ s e s' => s.FromCurrentUser e ∧ s'.Observed)
        (.launch launched username) es ↔
      Runs.Always Session.step
        (fun hist _ e _ => Session.BeforeSignOut launched hist e ∧ Session.NoSignIn e)
        (.launch launched username) es := by
  have htracks : Runs.Always Session.step (fun hist s _ _ => Session.Tracks launched hist s)
      (.launch launched username) es :=
    Runs.always_of_invariant (Session.Tracks launched) (Session.tracks_launch launched username)
      fun hist s e s' _ _ h hs => ⟨h.step hs, h⟩
  rw [Runs.always_and, Runs.always_and]
  refine and_congr (Runs.always_congr ?_) (Runs.always_state_iff ?_ ?_)
  · intro hist e s s' hpre hs hs'
    exact Session.fromCurrentUser_iff (htracks hist e s s' hpre hs hs')
  · exact Session.observed_launch launched username
  · intro hist e s s' hpre hs hs' hobserved
    exact Session.observed_step_iff (htracks hist e s s' hpre hs hs') hobserved hs'

/-- The first launch: an account is made, and nobody observes its username. -/
theorem not_always_followsAccount :
    ¬ ∀ (launched : Option String) (username : String) (es : List Session.Event),
      Runs.Always Session.step (fun _ s e s' => s.FromCurrentUser e ∧ s'.Observed)
        (.launch launched username) es := by
  intro hall
  obtain ⟨-, hobserved⟩ := hall none "" [.signIn "u" "User"] [] (.signIn "u" "User") _ _
    (List.prefix_refl _) rfl rfl
  exact List.not_mem_nil (hobserved "u" rfl)

end MoonMessenger
