import MoonMessenger.Grouping

/-!
# The deferred scroll

`scrollToBottom` looks whether there is a section when it is called, and computes where
to scroll 0.2 s later. What is shown can have changed by then.

A closure that runs while there is a section finds an item to scroll to, since no section
is ever empty (`Shows.scrollsToItem_iff`). Over whole runs, `scrollsToItem_iff_notCleared`:
all closures do exactly if none of them runs right after a `clear`, whatever came before.
-/

namespace MoonMessenger

/-- `IndexPath(row:section:)` -/
structure IndexPath where
  row : ℤ
  sec : ℤ

namespace Snapshot

/-- `numberOfItems(inSection:)` of a collection view that shows the snapshot; raises for
a section that is not there. -/
def numberOfItems (data : Snapshot Section Message) (sec : ℤ) : Option ℤ :=
  if sec < 0 then none else data.sections[sec.toNat]?.map fun p => (p.2.length : ℤ)

/-- `itemIdentifier(for:)` -/
def itemIdentifierFor (data : Snapshot Section Message) (path : IndexPath) : Option Message :=
  if path.sec < 0 ∨ path.row < 0 then none
  else data.sections[path.sec.toNat]?.bind fun p => p.2[path.row.toNat]?

/-- The index path that the closure of `scrollToBottom` computes. -/
def scrollPath (data : Snapshot Section Message) : Option IndexPath := do
  let lastSection := (data.sectionIdentifiers.length : ℤ) - 1
  let lastRow ← data.numberOfItems lastSection
  return ⟨lastRow - 1, lastSection⟩

/-- There is an item at the index path computed. -/
def ScrollsToItem (data : Snapshot Section Message) : Prop :=
  ∃ path m, data.scrollPath = some path ∧ data.itemIdentifierFor path = some m

end Snapshot

namespace ChatView

/-- A chat view, and the number of closures that `scrollToBottom` has scheduled and that
have not run yet. -/
structure Scrolling where
  view : ChatView
  scheduled : ℕ

/-- The public calls, with their argument `scrollToBottom`, and the run of a scheduled
closure. -/
inductive ScrollEvent where
  | clear
  | addMessages (messages : List Message) (scrollToBottom : Bool)
  | diffMessages (messages : List Message) (scrollToBottom : Bool)
  | scrollToBottom
  | fire

/-- The call among those that change what is shown. -/
def ScrollEvent.op? : ScrollEvent → Option Op
  | .clear => some .clear
  | .addMessages messages _ => some (.addMessages messages)
  | .diffMessages messages _ => some (.diffMessages messages)
  | .scrollToBottom => none
  | .fire => none

/-- The last call that changed what is shown. -/
def lastOp (hist : List ScrollEvent) : Option Op := (hist.filterMap ScrollEvent.op?).getLast?

namespace Scrolling

/-- `scrollToBottom`, up to the closure. -/
def scrollToBottom (s : Scrolling) : Scrolling :=
  if 0 < s.view.data.sectionIdentifiers.length then { s with scheduled := s.scheduled + 1 } else s

/-- `addMessages` and `diffMessages`, with their last lines. -/
def call (s : Scrolling) (op : Op) (scrollToBottom : Bool) : Option Scrolling := do
  let view ← s.view.step op
  let s := { s with view := view }
  return if scrollToBottom then s.scrollToBottom else s

/-- One event. A closure scrolls and changes nothing here; only a scheduled one can run. -/
def step (s : Scrolling) : ScrollEvent → Option Scrolling
  | .clear => s.call .clear false
  | .addMessages messages scroll => s.call (.addMessages messages) scroll
  | .diffMessages messages scroll => s.call (.diffMessages messages) scroll
  | .scrollToBottom => some s.scrollToBottom
  | .fire => if 0 < s.scheduled then some { s with scheduled := s.scheduled - 1 } else none

/-- The start: a new chat view, and nothing scheduled. -/
def start : Scrolling := ⟨.new, 0⟩

end Scrolling

/-! ## No section is empty -/

section LastItem

variable {data : Snapshot Section Message} {rest : List (Section × List Message)} {sec : Section}
  {init : List Message} {m : Message}

theorem scrollPath_last (hs : data.sections = rest ++ [(sec, init ++ [m])]) :
    data.scrollPath = some ⟨init.length, rest.length⟩ := by
  have hsec : ¬ (rest.length : ℤ) < 0 := Int.not_lt.mpr (Int.natCast_nonneg _)
  simp [Snapshot.scrollPath, Snapshot.sectionIdentifiers, Snapshot.numberOfItems, hs, hsec]

theorem itemIdentifierFor_last (hs : data.sections = rest ++ [(sec, init ++ [m])]) :
    data.itemIdentifierFor ⟨init.length, rest.length⟩ = some m := by
  have hpath : ¬ ((rest.length : ℤ) < 0 ∨ (init.length : ℤ) < 0) := by omega
  simp [Snapshot.itemIdentifierFor, hs, hpath]

end LastItem

/-- Where there is no section, the number of its items is asked for all the same. -/
theorem not_scrollsToItem_of_nil {data : Snapshot Section Message} (hnil : data.sections = []) :
    ¬ data.ScrollsToItem := by
  rintro ⟨path, m, hpath, -⟩
  simp [Snapshot.scrollPath, Snapshot.sectionIdentifiers, Snapshot.numberOfItems, hnil] at hpath

variable {v : ChatView} {shown : List Message}

theorem Shows.sections_eq_nil_iff (h : v.Shows shown) : v.data.sections = [] ↔ shown = [] := by
  rw [← List.map_eq_nil_iff (f := Prod.snd), h.sections, layout, List.map_eq_nil_iff]
  exact List.splitBy_eq_nil

/-- A closure that runs while something is shown finds an item: the last section, which
is there, ends in one. -/
theorem Shows.scrollsToItem_iff (h : v.Shows shown) : v.data.ScrollsToItem ↔ shown ≠ [] := by
  rw [Ne, ← h.sections_eq_nil_iff]
  refine ⟨fun hscrolls hnil => not_scrollsToItem_of_nil hnil hscrolls, fun hne => ?_⟩
  obtain ⟨rest, ⟨sec, items⟩, hs⟩ := (List.eq_nil_or_concat' v.data.sections).resolve_left hne
  have hitems : items ≠ [] := h.ne_nil_of_mem (p := (sec, items)) (by rw [hs]; simp)
  obtain ⟨init, m, rfl⟩ := (List.eq_nil_or_concat' items).resolve_left hitems
  exact ⟨_, m, scrollPath_last hs, itemIdentifierFor_last hs⟩

/-! ## Events -/

namespace Scrolling

variable {s s' : Scrolling} {e : ScrollEvent} {op : Op}

@[simp] theorem view_scrollToBottom (s : Scrolling) : s.scrollToBottom.view = s.view := by
  rw [scrollToBottom]
  split <;> rfl

theorem view_call {scroll : Bool} (h : s.call op scroll = some s') :
    s.view.step op = some s'.view := by
  obtain ⟨view, hview, h⟩ := Option.bind_eq_some_iff.mp h
  obtain rfl := Option.some.inj h
  cases scroll with
  | true => rw [hview, if_pos rfl, view_scrollToBottom]
  | false => exact hview

/-- An event that is a call changes the chat view as the call does. -/
theorem view_step (hop : e.op? = some op) (h : step s e = some s') :
    s.view.step op = some s'.view := by
  cases e with
  | clear =>
    obtain rfl := Option.some.inj hop
    exact view_call h
  | addMessages batch scroll =>
    obtain rfl := Option.some.inj hop
    exact view_call h
  | diffMessages batch scroll =>
    obtain rfl := Option.some.inj hop
    exact view_call h
  | scrollToBottom => cases hop
  | fire => cases hop

/-- The other events leave it alone, and schedule something only where there is a
section. -/
theorem step_of_op?_eq_none (hop : e.op? = none) (h : step s e = some s') :
    s'.view = s.view ∧ (s.view.data.sections = [] → s'.scheduled ≤ s.scheduled) := by
  cases e with
  | clear => cases hop
  | addMessages batch scroll => cases hop
  | diffMessages batch scroll => cases hop
  | scrollToBottom =>
    obtain rfl := Option.some.inj h
    refine ⟨view_scrollToBottom s, fun hnil => ?_⟩
    rw [scrollToBottom, Snapshot.sectionIdentifiers, hnil]
    exact le_rfl
  | fire =>
    rw [step] at h
    split at h
    · obtain rfl := Option.some.inj h
      exact ⟨rfl, fun _ => Nat.sub_le _ _⟩
    · cases h

theorem scheduled_of_fire (h : step s .fire = some s') : s.scheduled ≠ 0 := by
  rw [step] at h
  split at h
  · omega
  · cases h

/-- What the calls so far say about the chat view and the closures. -/
structure Tracks (hist : List ScrollEvent) (s : Scrolling) : Prop where
  shows : ∃ shown, s.view.Shows shown ∧
    (shown = [] ↔ lastOp hist = none ∨ lastOp hist = some .clear)
  scheduled : lastOp hist = none → s.scheduled = 0

theorem lastOp_concat_call (hist : List ScrollEvent) (hop : e.op? = some op) :
    lastOp (hist ++ [e]) = some op := by
  rw [lastOp, List.filterMap_append, List.filterMap_cons_some hop, List.filterMap_nil,
    List.getLast?_concat]

theorem lastOp_concat_of_none (hist : List ScrollEvent) (hop : e.op? = none) :
    lastOp (hist ++ [e]) = lastOp hist := by
  rw [lastOp, List.filterMap_append, List.filterMap_cons_none hop, List.filterMap_nil,
    List.append_nil, ← lastOp]

/-- Every event keeps track. -/
theorem Tracks.step {hist : List ScrollEvent} (h : Tracks hist s)
    (hs : Scrolling.step s e = some s') : Tracks (hist ++ [e]) s' := by
  obtain ⟨shown, hshows, hnil⟩ := h.shows
  cases hop : e.op? with
  | none =>
    obtain ⟨hview, hscheduled⟩ := step_of_op?_eq_none hop hs
    have hlast := lastOp_concat_of_none hist hop
    refine ⟨⟨shown, by rwa [hview], by rwa [hlast]⟩, fun hnone => ?_⟩
    rw [hlast] at hnone
    have hsections := hshows.sections_eq_nil_iff.mpr (hnil.mpr (Or.inl hnone))
    exact Nat.le_zero.mp (h.scheduled hnone ▸ hscheduled hsections)
  | some op =>
    have hv' := view_step hop hs
    obtain ⟨shown', hshows', hcore⟩ := hshows.step rfl hv'
    have hlast := lastOp_concat_call hist hop
    refine ⟨⟨shown', hshows', ?_⟩, fun hnone => ?_⟩
    · rw [hlast, ← List.map_eq_nil_iff (f := Message.core), hcore, List.map_eq_nil_iff]
      refine ⟨fun hafter => Or.inr ?_, ?_⟩
      · by_contra hne
        exact hshows.after_ne_nil hv' (fun hclear => hne (congrArg some hclear)) hafter
      · rintro (hnone | hclear)
        · cases hnone
        · rw [Option.some.inj hclear]
          rfl
    · rw [hlast] at hnone
      cases hnone

end Scrolling

end ChatView

/-- **The deferred scroll finds its item, unless the view has just been cleared.** In
every run of calls and closures, every closure that runs computes the index path of an
existing item if and only if none runs when the last call among `clear`, `addMessages`
and `diffMessages` was `clear`. -/
theorem scrollsToItem_iff_notCleared (es : List ChatView.ScrollEvent) :
    Runs.Always ChatView.Scrolling.step
        (fun _ s e _ => e = .fire → s.view.data.ScrollsToItem) .start es ↔
      Runs.Always ChatView.Scrolling.step
        (fun hist _ e _ => e = .fire → ChatView.lastOp hist ≠ some .clear) .start es := by
  refine Runs.always_congr (Runs.always_of_invariant ChatView.Scrolling.Tracks ?_ ?_)
  · exact ⟨⟨[], ChatView.shows_new, iff_of_true rfl (Or.inl rfl)⟩, fun _ => rfl⟩
  · intro hist s e s' _ _ h hs
    refine ⟨h.step hs, forall_congr' fun hfire => ?_⟩
    subst hfire
    obtain ⟨shown, hshows, hnil⟩ := h.shows
    have hsome : ChatView.lastOp hist ≠ none :=
      fun hnone => ChatView.Scrolling.scheduled_of_fire hs (h.scheduled hnone)
    rw [hshows.scrollsToItem_iff, Ne, hnil, not_or]
    exact and_iff_right hsome

/-- A message is added, the view is cleared, and then the scheduled closure runs. -/
def scrollAfterClear : List ChatView.ScrollEvent :=
  [.addMessages [sampleMessage 0 0] true, .clear, .fire]

/-- There is no section to scroll to. -/
theorem not_always_scrollsToItem :
    ¬ ∀ es : List ChatView.ScrollEvent, Runs.Always ChatView.Scrolling.step
      (fun _ s e _ => e = .fire → s.view.data.ScrollsToItem) .start es := by
  intro hall
  have hrun : (Runs.run ChatView.Scrolling.step .start scrollAfterClear).isSome = true := by
    decide +kernel
  have hcleared : (Runs.run ChatView.Scrolling.step .start (scrollAfterClear.take 2)).map
      (fun s => s.view.data.sections.length) = some 0 := by
    decide +kernel
  obtain ⟨s', hs'⟩ := Option.isSome_iff_exists.mp hrun
  obtain ⟨s, hs, hscrolls⟩ := (hall scrollAfterClear).last (scrollAfterClear.take 2) .fire hs'
  rw [hs, Option.map_some, Option.some.injEq, List.length_eq_zero_iff] at hcleared
  exact ChatView.not_scrollsToItem_of_nil hcleared (hscrolls rfl)

end MoonMessenger
