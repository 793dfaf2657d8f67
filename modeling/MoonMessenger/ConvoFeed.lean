import MoonMessenger.ConvoList
import MoonMessenger.Lib.Runs

/-!
# The conversation list is kept up to date

`ConvoViewController` observes the user's node; whatever it is told, `ConvoList.refresh`
asks the database for the node once more. From there to the list on the screen it is four
steps, each of them asynchronous: the observer's block, the block of `getData`, the
request, and the block that applies the snapshot.

`quiet_lists`: when nothing is under way, the list shows what the node holds.
-/

namespace MoonMessenger

/-- The controller of the list, with all that is under way. -/
structure ConvoViewController where
  /-- the value of the user's node -/
  user : Json
  /-- how many observers `viewDidAppear` has registered -/
  observers : ℕ
  /-- value events whose observers have not been called -/
  events : ℕ
  /-- calls of `getData` that wait on the main queue -/
  blocks : ℕ
  /-- requests that are not answered -/
  requests : ℕ
  /-- answers that wait on the main queue, the oldest first -/
  answers : List Refresh
  list : Snapshot ℕ ConvoItem
  /-- `alpha` of the list is not 0 -/
  visible : Bool

namespace ConvoViewController

/-- What can happen to it. -/
inductive Event where
  /-- `viewDidAppear`: one more observer, and an event for it -/
  | viewDidAppear
  /-- the node changes, on whatever device -/
  | change (user : Json)
  /-- an observer is called: `refresh` -/
  | observe
  /-- the block of `getData` makes its request -/
  | getConvoKeys
  /-- the request is answered -/
  | answer (calls : ℕ → ConvoBuilder.Calls)
  /-- the block of `refresh` applies the snapshot -/
  | apply

/-- The view is loaded. -/
def viewDidLoad (user : Json) : ConvoViewController := ⟨user, 0, 0, 0, 0, [], .empty, false⟩

/-- One step, while the account `uid` is signed in; `none` where nothing of the kind is
under way, and where the snapshot raises an exception. -/
def step (uid : String) (s : ConvoViewController) : Event → Option ConvoViewController
  | .viewDidAppear => some { s with observers := s.observers + 1, events := s.events + 1 }
  | .change user => some { s with user, events := s.events + s.observers }
  | .observe =>
    match s.events with
    | 0 => none
    | n + 1 => some { s with events := n, blocks := s.blocks + 1 }
  | .getConvoKeys =>
    match s.blocks with
    | 0 => none
    | n + 1 => some { s with blocks := n, requests := s.requests + 1 }
  | .answer calls =>
    match s.requests with
    | 0 => none
    | n + 1 =>
      -- only where keys are delivered is there a block to wait
      let answers := if (Backend.getConvoKeys (some uid) s.user).isSome then
        s.answers ++ [⟨uid, s.user, calls⟩] else s.answers
      some { s with requests := n, answers }
  | .apply =>
    match s.answers with
    | [] => none
    | r :: answers => (ConvoList.refresh s.list r).map fun list =>
        { s with answers, list, visible := list.itemIdentifiers.length > 0 }

/-- Nothing is under way. -/
def Quiet (s : ConvoViewController) : Prop :=
  s.events = 0 ∧ s.blocks = 0 ∧ s.requests = 0 ∧ s.answers = []

/-- A request that is yet to be answered will find the node as it is. -/
def Pending (s : ConvoViewController) : Prop := 0 < s.events + s.blocks + s.requests

/-- What the node delivers is what was delivered last, if it delivers anything. -/
def UpToDate (uid : String) (s : ConvoViewController) : Prop :=
  ∀ keys, Backend.getConvoKeys (some uid) s.user = some keys →
    match s.answers.getLast? with
    | some r => r.keys = some keys
    | none => ∃ calls, s.list.sections =
        [(0, ConvoBuilder.items calls (ConvoBuilder.sortedKeys keys))]

/-- What every step keeps. -/
structure Good (uid : String) (s : ConvoViewController) : Prop where
  list : ConvoList.OnlySection s.list
  visible : s.visible = decide (s.list.itemIdentifiers.length > 0)
  answers : ∀ r ∈ s.answers, ∃ keys, r.keys = some keys
  upToDate : s.observers = 0 ∨ s.Pending ∨ s.UpToDate uid

variable {uid : String} {s s' : ConvoViewController}

theorem good_viewDidLoad (uid : String) (user : Json) : (viewDidLoad user).Good uid :=
  ⟨Or.inl rfl, rfl, fun _ hr => absurd hr List.not_mem_nil, Or.inl rfl⟩

/-- An answer holds what the node delivers. -/
theorem Good.answer (h : s.Good uid) {calls : ℕ → ConvoBuilder.Calls}
    (hs : step uid s (.answer calls) = some s') : s'.Good uid := by
  rw [step] at hs
  split at hs
  · cases hs
  obtain rfl := Option.some.inj hs
  cases hkeys : Backend.getConvoKeys (some uid) s.user with
  | none =>
    refine ⟨h.list, h.visible, ?_, Or.inr (Or.inr fun keys hsome => ?_)⟩
    · exact h.answers
    · rw [hkeys] at hsome
      cases hsome
  | some keys =>
    refine ⟨h.list, h.visible, fun r hr => ?_, Or.inr (Or.inr fun keys' hkeys' => ?_)⟩
    · rcases List.mem_append.mp hr with hr | hr
      · exact h.answers r hr
      · rw [List.mem_singleton.mp hr]
        exact ⟨keys, hkeys⟩
    · simp only [Option.isSome_some, if_true, List.getLast?_concat]
      exact hkeys'

/-- Applying the last answer brings the list up to date. -/
theorem Good.apply (h : s.Good uid) (hs : step uid s .apply = some s') : s'.Good uid := by
  rw [step] at hs
  split at hs
  · cases hs
  rename_i r answers hanswers
  obtain ⟨list, hlist, rfl⟩ := Option.map_eq_some_iff.mp hs
  obtain ⟨keys, hkeys⟩ := h.answers r (hanswers ▸ List.mem_cons_self ..)
  obtain ⟨list', hlist', hsections⟩ := ConvoList.exists_refresh_of_pairwise h.list hkeys
    (ConvoList.pairwise_of_refresh h.list hkeys hlist)
  obtain rfl := Option.some.inj (hlist'.symm.trans hlist)
  refine ⟨Or.inr ⟨_, hsections⟩, rfl, fun r' hr' => h.answers r' ?_, ?_⟩
  · rw [hanswers]
    exact List.mem_cons_of_mem r hr'
  · refine h.upToDate.imp_right (Or.imp_right fun hup keys' hkeys' => ?_)
    have hlast := hup keys' hkeys'
    rw [hanswers] at hlast
    cases answers with
    | nil =>
      -- this was the last one
      have hsame : r.keys = some keys' := hlast
      obtain rfl := Option.some.inj (hkeys.symm.trans hsame)
      exact ⟨r.calls, hsections⟩
    | cons r' answers => exact hlast

theorem Good.step (h : s.Good uid) {e : Event} (hs : step uid s e = some s') : s'.Good uid := by
  cases e with
  | viewDidAppear =>
    obtain rfl := Option.some.inj hs
    refine ⟨h.list, h.visible, h.answers, Or.inr (Or.inl ?_)⟩
    simp only [Pending]
    omega
  | change user =>
    obtain rfl := Option.some.inj hs
    refine ⟨h.list, h.visible, h.answers, ?_⟩
    -- with no observer nothing is told, and nothing is promised
    rcases Nat.eq_zero_or_pos s.observers with hzero | hpos
    · exact Or.inl hzero
    · refine Or.inr (Or.inl ?_)
      simp only [Pending]
      omega
  | observe =>
    rw [ConvoViewController.step] at hs
    split at hs
    · cases hs
    obtain rfl := Option.some.inj hs
    refine ⟨h.list, h.visible, h.answers, Or.inr (Or.inl ?_)⟩
    simp only [Pending]
    omega
  | getConvoKeys =>
    rw [ConvoViewController.step] at hs
    split at hs
    · cases hs
    obtain rfl := Option.some.inj hs
    refine ⟨h.list, h.visible, h.answers, Or.inr (Or.inl ?_)⟩
    simp only [Pending]
    omega
  | answer calls => exact h.answer hs
  | apply => exact h.apply hs

end ConvoViewController

open ConvoViewController in
/-- **The list is kept up to date.** However the node changes and however the asynchronous
steps interleave: in every state where nothing is under way, if the view has appeared and
the node delivers keys, the list has one item for each of them, in their order, and it is
visible if there are any. -/
theorem quiet_lists {uid : String} {user : Json} {es : List Event} {s : ConvoViewController}
    (hs : Runs.run (step uid) (viewDidLoad user) es = some s) (hobservers : 0 < s.observers)
    (hquiet : s.Quiet) {keys : List String}
    (hkeys : Backend.getConvoKeys (some uid) s.user = some keys) :
    (∃ calls, s.list.sections = [(0, ConvoBuilder.items calls (ConvoBuilder.sortedKeys keys))]) ∧
      (s.visible = true ↔ keys ≠ []) := by
  have hgood : s.Good uid := Runs.run_invariant (Good uid) (good_viewDidLoad uid user)
    (fun _ _ _ h hs' => h.step hs') hs
  obtain ⟨hevents, hblocks, hrequests, hanswers⟩ := hquiet
  have hlists : ∃ calls, s.list.sections =
      [(0, ConvoBuilder.items calls (ConvoBuilder.sortedKeys keys))] := by
    rcases hgood.upToDate with hzero | hpending | hup
    · omega
    · simp only [Pending] at hpending
      omega
    · have hlast := hup keys hkeys
      rw [hanswers] at hlast
      exact hlast
  refine ⟨hlists, ?_⟩
  obtain ⟨calls, hsections⟩ := hlists
  have hcount : s.list.itemIdentifiers.length = keys.length := by
    rw [Snapshot.itemIdentifiers, hsections, ← (ConvoBuilder.perm_sortedKeys keys).length_eq]
    simp [ConvoBuilder.items]
  rw [hgood.visible, hcount, decide_eq_true_iff, gt_iff_lt, List.length_pos_iff]

/-- A user who has joined one conversation. -/
def joinedOne : Json := .dictionary [("conversations", .array [.string "k"])]

open ConvoViewController in
/-- The view appears before the conversation is joined. -/
def joinEvents : List Event :=
  let calls i : ConvoBuilder.Calls := ⟨.replicate i, ⟨0⟩⟩
  [.viewDidAppear, .observe, .change joinedOne, .getConvoKeys, .observe, .answer calls, .apply,
    .getConvoKeys, .answer calls, .apply]

theorem run_joinEvents : ∃ s : ConvoViewController, Runs.run (ConvoViewController.step "u")
    (.viewDidLoad .null) joinEvents = some s ∧ s.observers = 1 ∧ s.Quiet ∧ s.user = joinedOne :=
  ⟨_, rfl, rfl, ⟨rfl, rfl, rfl, rfl⟩, rfl⟩

theorem quiet_lists_joinEvents : ∃ s : ConvoViewController, Runs.run (ConvoViewController.step "u")
    (.viewDidLoad .null) joinEvents = some s ∧ (∃ calls, s.list.sections =
      [(0, ConvoBuilder.items calls (ConvoBuilder.sortedKeys ["k"]))]) ∧
      (s.visible = true ↔ ["k"] ≠ []) := by
  obtain ⟨s, hs, hobservers, hquiet, huser⟩ := run_joinEvents
  have hkeys : Backend.getConvoKeys (some "u") s.user = some ["k"] := by
    rw [huser, joinedOne, Backend.getConvoKeys]
    rfl
  exact ⟨s, hs, quiet_lists hs (by omega) hquiet hkeys⟩

end MoonMessenger
