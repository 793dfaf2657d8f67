import MoonMessenger.Decoding
import MoonMessenger.Grouping

/-!
# The open chat

`MessagesViewController.viewDidAppear` passes every delivery of the conversation's
node to `diffMessages`. `showsChildren_iff_nothingStale` says for whole runs when the
screen follows the database: `getMessages` does not call its completion for a null,
so exactly when no null arrives while messages are on screen.
-/

namespace MoonMessenger

/-- What the observer delivers, and what the calls made to decode it return. -/
structure Delivery where
  /-- `snapshot.value` -/
  value : Json
  calls : ℕ → Backend.Calls

namespace Delivery

/-- The children of a value the observer can deliver, decoded: null has none. -/
def children (uid : String) (d : Delivery) : List Message :=
  match d.value.asDictionary? with
  | some data => Backend.decodeMessages uid d.calls data
  | none => []

/-- The value of a conversation's node: null, or a dictionary of at least one child. -/
def WellFormed (d : Delivery) : Prop :=
  d.value = .null ∨ ∃ data, data ≠ [] ∧ d.value = .dictionary data

/-- The decoded messages get identities of their own: each call of `UUID()` returns
another value. -/
def Fresh (uid : String) (d : Delivery) : Prop := ((d.children uid).map Message.id).Nodup

end Delivery

namespace ChatView

/-- The observer of `viewDidAppear`, for a user signed in as `uid`. -/
def receive (uid : String) (v : ChatView) (d : Delivery) : Option ChatView :=
  match Backend.getMessages (some uid) d.value d.calls with
  | some messages => v.diffMessages messages
  | none => some v

/-- The screen shows the children of the value delivered, in date order. Corners and
seen flags are the builder's. -/
structure ShowsChildren (uid : String) (d : Delivery) (v : ChatView) : Prop where
  items : (v.data.itemIdentifiers.map Message.core).Perm ((d.children uid).map Message.core)
  sorted : v.data.itemIdentifiers.Pairwise fun i j => i.date ≤ j.date

/-- No null is delivered while messages are on screen. -/
def NothingStale (v : ChatView) (d : Delivery) : Prop :=
  d.value = .null → v.data.itemIdentifiers = []

variable {v : ChatView} {shown : List Message} {uid : String} {d : Delivery}

/-- A null leaves the screen as it is. -/
theorem receive_null (hvalue : d.value = .null) : v.receive uid d = some v := by
  rw [receive, hvalue]
  rfl

/-- A dictionary of children is shown in date order. -/
theorem receive_dictionary {data : List (String × Json)} (hne : data ≠ [])
    (hvalue : d.value = .dictionary data) (hfresh : d.Fresh uid) :
    ∃ v', v.receive uid d = some v' ∧ (∃ shown, v'.Shows shown) ∧ ShowsChildren uid d v' := by
  have hchildren : d.children uid = Backend.decodeMessages uid d.calls data := by
    rw [Delivery.children, hvalue]
    rfl
  rw [Delivery.Fresh, hchildren] at hfresh
  set messages := StableSort.sortOn Message.date (Backend.decodeMessages uid d.calls data)
    with hmessages
  have hperm : messages.Perm (Backend.decodeMessages uid d.calls data) := StableSort.perm_sortOn _
  have hmessages_ne : messages ≠ [] := by
    rw [← List.length_pos_iff, hperm.length_eq, Backend.decodeMessages, List.length_mapIdx,
      List.length_map]
    exact List.length_pos_iff.mpr hne
  obtain ⟨v', hv', hshows⟩ := v.shows_diffMessages hmessages_ne ((hperm.map _).nodup_iff.mpr hfresh)
  have hcore : v'.data.itemIdentifiers.map Message.core = messages.map Message.core := by
    rw [Laid.map_itemIdentifiers Message.core Message.core_withCorners hshows,
      map_flagged Message.core core_markSeen]
  refine ⟨v', ?_, ⟨_, hshows⟩, ?_, ?_⟩
  · rw [receive, hvalue, Backend.getMessages_dictionary]
    exact hv'
  · rw [hcore, hchildren]
    exact hperm.map _
  · -- dates are part of what the builder keeps
    have hsorted :
        (v'.data.itemIdentifiers.map Message.core).Pairwise fun i j => i.date ≤ j.date := by
      rw [hcore, List.pairwise_map]
      exact StableSort.pairwise_sortOn Message.date _
    rwa [List.pairwise_map] at hsorted

/-- **One delivery.** The screen shows what was delivered exactly when nothing on it is
stale. -/
theorem receive_showsChildren (h : v.Shows shown) (hwf : d.WellFormed) (hfresh : d.Fresh uid) :
    ∃ v', v.receive uid d = some v' ∧ (∃ shown', v'.Shows shown') ∧
      (ShowsChildren uid d v' ↔ NothingStale v d) := by
  rcases hwf with hvalue | ⟨data, hne, hvalue⟩
  · refine ⟨v, receive_null hvalue, ⟨shown, h⟩, ?_⟩
    have hchildren : d.children uid = [] := by
      rw [Delivery.children, hvalue]
      rfl
    refine ⟨fun hshows _ => ?_, fun hstale => ?_⟩
    · have hnil := hshows.items
      rw [hchildren, List.map_nil, List.perm_nil, List.map_eq_nil_iff] at hnil
      exact hnil
    · rw [NothingStale] at hstale
      refine ⟨?_, ?_⟩
      · rw [hstale hvalue, hchildren]
      · rw [hstale hvalue]
        exact List.Pairwise.nil
  · obtain ⟨v', hv', hshows, hchildren⟩ := receive_dictionary (v := v) hne hvalue hfresh
    refine ⟨v', hv', hshows, iff_of_true hchildren fun hnull => ?_⟩
    rw [hvalue] at hnull
    cases hnull

end ChatView

/-- **The open chat shows the database, unless it is emptied.** For every sequence of
deliveries, none of them traps; and after each of them the screen shows the children
delivered, in date order, if and only if no null is delivered while messages are on
screen. -/
theorem showsChildren_iff_nothingStale {uid : String} {ds : List Delivery}
    (hwf : ∀ d ∈ ds, d.WellFormed) (hfresh : ∀ d ∈ ds, d.Fresh uid) :
    (∃ v, Runs.run (ChatView.receive uid) .new ds = some v) ∧
      (Runs.Always (ChatView.receive uid) (fun _ _ d v' => v'.ShowsChildren uid d) .new ds ↔
        Runs.Always (ChatView.receive uid) (fun _ v d _ => v.NothingStale d) .new ds) := by
  have hrun := Runs.run_always (ChatView.receive uid) .new
    (fun _ v => ∃ shown, v.Shows shown)
    (fun hist => ∀ d ∈ hist, d.WellFormed ∧ d.Fresh uid)
    (fun _ v d v' => ChatView.ShowsChildren uid d v' ↔ ChatView.NothingStale v d)
    (fun hist d hok d' hd' => hok d' (List.mem_append_left _ hd')) ⟨[], Laid.empty 0⟩ ?_
    (fun d hd => ⟨hwf d hd, hfresh d hd⟩)
  · obtain ⟨⟨v, hv, -⟩, halways⟩ := hrun
    exact ⟨⟨v, hv⟩, Runs.always_congr halways⟩
  · rintro hist v d ⟨shown, hshows⟩ hok
    obtain ⟨hwf', hfresh'⟩ := hok d (by simp)
    exact ChatView.receive_showsChildren hshows hwf' hfresh'

/-- A message, and then no message any more. -/
def emptied : List Delivery :=
  [⟨.dictionary [("a", sampleRecord "Hello")], fun _ => sampleCalls 1⟩,
    ⟨.null, fun _ => sampleCalls 1⟩]

theorem showsChildren_iff_nothingStale_emptied :
    (∃ v, Runs.run (ChatView.receive "u") .new emptied = some v) ∧
      (Runs.Always (ChatView.receive "u") (fun _ _ d v' => v'.ShowsChildren "u" d) .new emptied ↔
        Runs.Always (ChatView.receive "u") (fun _ v d _ => v.NothingStale d) .new emptied) :=
  showsChildren_iff_nothingStale (by simp [emptied, Delivery.WellFormed])
    (by simp [emptied, Delivery.Fresh, Delivery.children, Json.asDictionary?,
      Backend.decodeMessages])

/-- The deleted message stays on the screen. -/
theorem not_always_showsChildren :
    ¬ ∀ (uid : String) (ds : List Delivery), (∀ d ∈ ds, d.WellFormed) → (∀ d ∈ ds, d.Fresh uid) →
      Runs.Always (ChatView.receive uid) (fun _ _ d v' => v'.ShowsChildren uid d) .new ds := by
  intro hall
  have hshows := hall "u" emptied (by simp [emptied, Delivery.WellFormed])
    (by simp [emptied, Delivery.Fresh, Delivery.children, Json.asDictionary?,
      Backend.decodeMessages])
  have hrun : (Runs.run (ChatView.receive "u") .new emptied).map
      (fun v => v.data.itemIdentifiers.map Message.text) = some ["Hello"] := by
    decide +kernel
  obtain ⟨v, hv, htexts⟩ := Option.map_eq_some_iff.mp hrun
  obtain ⟨_, -, hlast⟩ := Runs.Always.last [emptied[0]] emptied[1] hshows hv
  have hnil := hlast.items.length_eq
  have hone := congrArg List.length htexts
  rw [List.length_map] at hnil hone
  rw [hone] at hnil
  cases hnil

end MoonMessenger
