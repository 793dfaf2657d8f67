import MoonMessenger.Diffing
import MoonMessenger.Traps

/-!
# The cells on screen

The data source asks the cell provider for a cell when an item is new to it. `build`
rounds a bubble again by deleting its item and appending a changed copy; but the copy has
the same id, so for the data source it is the same item, and its cell stays.

`rightCells_iff_noJoin`: over whole runs, every message sits in a cell of the class that
the provider would choose exactly as long as no batch joins a section on screen.
-/

namespace MoonMessenger

/-- The classes of bubble cells, by their reuse identifiers. -/
inductive BubbleCell where
  | outgoing
  | outgoingTop
  | outgoingMiddle
  | outgoingBottom
  | incoming
  | incomingTop
  | incomingMiddle
  | incomingBottom
  deriving DecidableEq

/-- The cell provider of `setupMessageBubbleData`, up to the contents of the cell. -/
def cellProvider (message : Message) : Option BubbleCell :=
  match message.origin with
  | .outgoing =>
    match message.corners with
    | .top => some .outgoingTop
    | .middle => some .outgoingMiddle
    | .bottom => some .outgoingBottom
    | .basic => some .outgoing
  | .incoming =>
    match message.corners with
    | .top => some .incomingTop
    | .middle => some .incomingMiddle
    | .bottom => some .incomingBottom
    | .basic => some .incoming
  | .system => none

/-- A chat view, and the class of the cell that each item sits in. -/
structure Screen where
  view : ChatView
  cells : UUID → Option BubbleCell

namespace Screen

/-- `apply`, for a diffable data source that asks for a cell only for the items of the new
snapshot that equal no item of the old one. -/
def applyCells (old new : List Message) (cells : UUID → Option BubbleCell) (id : UUID) :
    Option BubbleCell :=
  match new.find? fun m => m.id = id with
  | none => none
  | some m => if old.any fun m' => m' == m then cells id else cellProvider m

/-- A call, which ends with an `apply`. -/
def step (s : Screen) (op : ChatView.Op) : Option Screen := do
  let view ← s.view.step op
  return ⟨view, applyCells s.view.data.itemIdentifiers view.data.itemIdentifiers s.cells⟩

/-- The start: a new chat view, and no cells. -/
def start : Screen := ⟨.new, fun _ => none⟩

/-- Every item sits in a cell of the class that the provider chooses for it. -/
def RightCells (s : Screen) : Prop :=
  ∀ m ∈ s.view.data.itemIdentifiers, s.cells m.id = cellProvider m

/-- No batch joins the last section. -/
def NoJoin (v : ChatView) : ChatView.Op → Prop
  | .addMessages batch => ∀ last ∈ v.data.itemIdentifiers.getLast?, ∀ first ∈ batch.head?,
      sameRun last first = false
  | _ => True

/-! ## The provider -/

theorem cellProvider_congr {a b : Message} (ho : a.origin = b.origin) (hc : a.corners = b.corners) :
    cellProvider a = cellProvider b := by
  rw [cellProvider, cellProvider, ho, hc]

/-- Bubbles that are rounded differently need different cells. -/
theorem cellProvider_withCorners_inj {m : Message} (ho : m.origin ≠ .system) {c c' : Rounding} :
    cellProvider (m.withCorners c) = cellProvider (m.withCorners c') ↔ c = c' := by
  refine ⟨fun h => ?_, fun h => by rw [h]⟩
  rw [cellProvider, cellProvider, Message.origin_withCorners, Message.origin_withCorners,
    Message.corners_withCorners, Message.corners_withCorners] at h
  cases horigin : m.origin with
  | system => exact absurd horigin ho
  | outgoing =>
    rw [horigin] at h
    cases c <;> cases c' <;> first | rfl | cases h
  | incoming =>
    rw [horigin] at h
    cases c <;> cases c' <;> first | rfl | cases h

/-! ## One apply -/

theorem applyCells_of_mem {old new : List Message} (hnd : (new.map Message.id).Nodup) {m : Message}
    (hm : m ∈ new) (cells : UUID → Option BubbleCell) :
    applyCells old new cells m.id =
      if old.any (fun m' => m' == m) then cells m.id else cellProvider m := by
  obtain ⟨m', hm'⟩ : ∃ m', new.find? (fun m' => m'.id = m.id) = some m' := by
    rw [← Option.isSome_iff_exists, List.find?_isSome]
    exact ⟨m, hm, decide_eq_true rfl⟩
  have hid : m'.id = m.id := of_decide_eq_true (List.find?_some hm' :)
  obtain rfl := List.inj_on_of_nodup_map hnd (List.mem_of_find?_eq_some hm') hm hid
  rw [applyCells, hm']

theorem view_step {s s' : Screen} {op : ChatView.Op} (h : s.step op = some s') :
    s.view.step op = some s'.view ∧
      s'.cells = applyCells s.view.data.itemIdentifiers s'.view.data.itemIdentifiers s.cells := by
  obtain ⟨view, hview, h⟩ := Option.bind_eq_some_iff.mp h
  obtain rfl := Option.some.inj h
  exact ⟨hview, rfl⟩

/-- Where all cells were right, they are so again exactly if the items that stay need the
cells that they had. -/
theorem rightCells_step_iff {s s' : Screen} {op : ChatView.Op} (h : s.RightCells)
    (hs : s.step op = some s') :
    s'.RightCells ↔
      Agree cellProvider s.view.data.itemIdentifiers s'.view.data.itemIdentifiers := by
  obtain ⟨-, hcells⟩ := view_step hs
  have hnd : (s'.view.data.itemIdentifiers.map Message.id).Nodup :=
    Laid.pairwise_distinct_iff.mp s'.view.data.distinct_items
  rw [RightCells, hcells]
  refine ⟨fun hright a ha b hb hab => ?_, fun hagree m hm => ?_⟩
  · have hcell := hright b hb
    have hold : s.view.data.itemIdentifiers.any (fun m => m == b) = true :=
      List.any_eq_true.mpr ⟨a, ha, hab⟩
    rw [applyCells_of_mem hnd hb, if_pos hold] at hcell
    rw [← h a ha, Message.beq_eq_true.mp hab, hcell]
  · rw [applyCells_of_mem hnd hm]
    split
    · rename_i hold
      obtain ⟨a, ha, ham⟩ := List.any_eq_true.mp hold
      rw [← hagree a ha m hm ham, ← h a ha, Message.beq_eq_true.mp ham]
    · rfl

/-- What is displayed, as far as cells go, is the layout of what was passed. -/
theorem map_cellProvider {v : ChatView} {shown ms : List Message} (h : v.Shows shown)
    (hcore : shown.map Message.core = ms.map Message.core) :
    v.data.itemIdentifiers.map (fun m => (m.id, cellProvider m)) =
      (layout ms).flatten.map fun m => (m.id, cellProvider m) := by
  have hunseen (ms : List Message) : (layout ms).flatten.map (fun m => (m.id, cellProvider m)) =
      (layout (ms.map Message.core)).flatten.map fun m => (m.id, cellProvider m) := by
    rw [layout_map_core, ← List.map_flatten, List.map_map]
    exact List.map_congr_left fun m _ => Prod.ext rfl (cellProvider_congr rfl rfl)
  rw [Laid.itemIdentifiers h, hunseen, hcore, ← hunseen]

/-- A batch of new messages leaves the old bubbles as they are exactly if it does not join
the last section. -/
theorem agree_layout_append {shown : List Message} {a first : Message} {rest : List Message}
    (ho : a.origin ≠ .system)
    (hnd : ((shown ++ [a] ++ first :: rest).map Message.id).Nodup) :
    Agree cellProvider (layout (shown ++ [a])).flatten
        (layout (shown ++ [a] ++ first :: rest)).flatten ↔ sameRun a first = false := by
  obtain ⟨init, c, c', tail, hold, hnew, hrun⟩ := flatten_layout_append_cons shown a first rest
  rw [← map_flatten_layout Message.id Message.id_withCorners, hnew, List.map_append] at hnd
  obtain ⟨hnd', -, hdisjoint⟩ := List.nodup_append.mp hnd
  have hids : (init ++ [a.withCorners c']).map Message.id =
      (init ++ [a.withCorners c]).map Message.id := by simp
  rw [hids] at hnd' hdisjoint
  have hid : (a.withCorners c').id = (a.withCorners c).id := rfl
  have htail : Agree cellProvider (init ++ [a.withCorners c]) tail :=
    agree_of_disjoint fun i hi hi' => hdisjoint i hi i hi' rfl
  rw [hold, hnew, agree_append, and_iff_left htail, agree_replaceLast hid hnd',
    cellProvider_withCorners_inj ho, hrun]

/-- **One call.** After messages that are passed in the calls `hist`, a call on new
messages keeps all cells right exactly if it does not join the last section. -/
theorem agree_step_iff {hist : List ChatView.Op} {v v' : ChatView} {shown shown' : List Message}
    {op : ChatView.Op} (h : v.Shows shown)
    (hcore : shown.map Message.core = (passed hist).map Message.core) (h' : v'.Shows shown')
    (hcore' : shown'.map Message.core = (passed (hist ++ [op])).map Message.core)
    (hne : op ≠ .clear → op.messages ≠ []) (ho : ∀ m ∈ passed hist, m.origin ≠ .system)
    (hnd : ((passed hist ++ op.messages).map Message.id).Nodup) :
    Agree cellProvider v.data.itemIdentifiers v'.data.itemIdentifiers ↔ NoJoin v op := by
  rw [agree_congr (map_cellProvider h hcore) (map_cellProvider h' hcore'), passed_concat]
  cases op with
  | clear => exact iff_of_true (fun a ha b hb => absurd hb List.not_mem_nil) trivial
  | diffMessages batch =>
    refine iff_of_true (agree_of_disjoint fun i hi hi' => ?_) trivial
    rw [map_flatten_layout Message.id Message.id_withCorners] at hi hi'
    rw [List.map_append] at hnd
    exact (List.nodup_append.mp hnd).2.2 i hi i hi' rfl
  | addMessages batch =>
    obtain ⟨first, rest, rfl⟩ := List.exists_cons_of_ne_nil (hne ChatView.Op.noConfusion)
    have hitems : v.data.itemIdentifiers.map Message.core = (passed hist).map Message.core := by
      rw [Laid.map_itemIdentifiers Message.core Message.core_withCorners h, hcore]
    rcases List.eq_nil_or_concat' (passed hist) with hnil | ⟨before, a, hsplit⟩
    · -- nothing was shown
      rw [hnil] at hitems ⊢
      rw [NoJoin, List.map_eq_nil_iff.mp hitems]
      exact iff_of_true (fun a ha => absurd ha List.not_mem_nil) fun last hlast => nomatch hlast
    · rw [hsplit] at hnd ho hitems ⊢
      obtain ⟨init, last, hlast, hlastcore⟩ :=
        exists_last_of_map hitems.symm (List.getLast?_concat (l := before) (a := a))
      rw [ChatView.Op.after, agree_layout_append (ho a (by simp)) hnd, NoJoin, hlast,
        List.getLast?_concat, ← sameRun_congr hlastcore rfl]
      simp

end Screen

/-- **The cells keep up with the rounding, as long as no batch joins a section.** A run on
non-empty lists of outgoing and incoming messages, with pairwise distinct ids over the
run, never traps; and after each `apply` every message sits in a cell of the class that
the provider would choose if and only if no batch passed to `addMessages` continues the
section on screen that it follows. -/
theorem rightCells_iff_noJoin {ops : List ChatView.Op}
    (hne : ∀ op ∈ ops, op ≠ .clear → op.messages ≠ [])
    (ho : ∀ m ∈ ops.flatMap ChatView.Op.messages, m.origin ≠ .system)
    (hnd : ((ops.flatMap ChatView.Op.messages).map Message.id).Nodup) :
    (∃ s, Runs.run Screen.step .start ops = some s) ∧
      (Runs.Always Screen.step (fun _ _ _ s' => s'.RightCells) .start ops ↔
        Runs.Always Screen.step (fun _ s op _ => Screen.NoJoin s.view op) .start ops) := by
  have hrun := Runs.run_always Screen.step .start
    (fun hist s => ∃ shown, s.view.Shows shown ∧
      shown.map Message.core = (passed hist).map Message.core)
    (fun hist => PassesOnce hist ∧
      ∀ m ∈ hist.flatMap ChatView.Op.messages, m.origin ≠ .system)
    (fun _ s op s' => s.RightCells → (s'.RightCells ↔ Screen.NoJoin s.view op))
    ?_ ⟨[], ChatView.shows_new, rfl⟩ ?_ ⟨⟨hne, hnd⟩, ho⟩
  · obtain ⟨⟨s, hs, -⟩, halways⟩ := hrun
    refine ⟨⟨s, hs⟩, Runs.always_state_iff (fun m hm => ?_) halways⟩
    exact absurd hm List.not_mem_nil
  · rintro hist op ⟨honce, ho'⟩
    rw [List.flatMap_append] at ho'
    exact ⟨honce.init, fun m hm => ho' m (List.mem_append_left _ hm)⟩
  · rintro hist s op ⟨shown, hshows, hcore⟩ ⟨honce, ho'⟩
    rw [List.flatMap_append] at ho'
    obtain ⟨v', hv'⟩ := (ChatView.Shows.exists_step_iff hshows hcore honce.last_nodup).mpr
      (hasMessages_of_messages_ne_nil (passed hist) honce.last_messages)
    obtain ⟨shown', hshows', hcore'⟩ := hshows.step hcore hv'
    rw [← passed_concat] at hcore'
    have hs' : s.step op = some ⟨v', Screen.applyCells s.view.data.itemIdentifiers
        v'.data.itemIdentifiers s.cells⟩ := by
      rw [Screen.step, hv']
      rfl
    refine ⟨_, hs', ⟨shown', hshows', hcore'⟩, fun hright => ?_⟩
    rw [Screen.rightCells_step_iff hright hs']
    refine Screen.agree_step_iff hshows hcore hshows' hcore' honce.last_messages ?_
      honce.last_nodup
    intro m hm
    exact ho' m (List.mem_append_left _ ((passed_sublist hist).subset hm))

/-- A message, and a minute later another one of the same sender. -/
def joined : List ChatView.Op :=
  [.addMessages [sampleMessage 0 0], .addMessages [sampleMessage 1 60]]

theorem rightCells_iff_noJoin_joined :
    (∃ s, Runs.run Screen.step .start joined = some s) ∧
      (Runs.Always Screen.step (fun _ _ _ s' => s'.RightCells) .start joined ↔
        Runs.Always Screen.step (fun _ s op _ => Screen.NoJoin s.view op) .start joined) :=
  rightCells_iff_noJoin (by simp [joined, ChatView.Op.messages])
    (by simp [joined, ChatView.Op.messages, sampleMessage]) (by decide)

/-- The first bubble gets round at the top, but stays in a basic cell. -/
theorem not_always_rightCells :
    ¬ ∀ ops : List ChatView.Op, (∀ op ∈ ops, op ≠ .clear → op.messages ≠ []) →
      (∀ m ∈ ops.flatMap ChatView.Op.messages, m.origin ≠ .system) →
      ((ops.flatMap ChatView.Op.messages).map Message.id).Nodup →
      Runs.Always Screen.step (fun _ _ _ s' => s'.RightCells) .start ops := by
  intro hall
  have hright := hall joined (by simp [joined, ChatView.Op.messages])
    (by simp [joined, ChatView.Op.messages, sampleMessage]) (by decide)
  have hrun : (Runs.run Screen.step .start joined).map
      (fun s => s.view.data.itemIdentifiers.map fun m => decide (s.cells m.id = cellProvider m)) =
      some [false, true] := by
    decide +kernel
  obtain ⟨s, hs, hcells⟩ := Option.map_eq_some_iff.mp hrun
  obtain ⟨_, -, hlast⟩ := hright.last [joined[0]] joined[1] hs
  have hfalse : false ∈ s.view.data.itemIdentifiers.map
      fun m => decide (s.cells m.id = cellProvider m) := by
    rw [hcells]
    exact List.mem_cons_self ..
  obtain ⟨m, hm, hcell⟩ := List.mem_map.mp hfalse
  exact of_decide_eq_false hcell (hlast m hm)

end MoonMessenger
