import MoonMessenger.BubbleCells
import MoonMessenger.Scroll

/-!
# Headers and badges

The supplementary views of the chat view: what `supplementaryViewProvider` and the four
builders make for an index path. They ask the data source for the cell there, and read the
message off it; a cell that is dequeued for this is made as any other.

`none` of a builder is a trap; where the source returns nil, it is in the value. The
lemmas say what a builder makes of an item that the snapshot holds: it never traps.

What UIKit requires of the provider is left out. It wants a cell for every item, so the nil
that the cell provider returns for a system message is only that nil here; and the empty
header is dequeued as one of the kind `empty`, also where another kind was asked for, and here
it is the same view for all kinds.
-/

namespace MoonMessenger

/-- The views that are dequeued, with what they are set to show. -/
inductive SupplementaryView where
  | dateHeader (text : String)
  | emptyHeader
  | usernameHeader (text : String)
  | emptyUsernameHeader
  | avatarBadge (message : Message)
  | emptyAvatar
  | seenBadge
  | emptySeenBadge
  deriving DecidableEq

/-- The kinds of views that the layout asks for. -/
inductive ElementKind where
  | sectionHeader
  | username
  | avatar
  | seen
  | empty
  deriving DecidableEq

namespace Snapshot

/-- `indexOfItem` -/
def indexOfItem (data : Snapshot Section Message) (message : Message) : Option ℕ :=
  data.itemIdentifiers.findIdx? fun m => m == message

/-- `sectionIdentifier(containingItem:)` -/
def sectionIdentifierContaining (data : Snapshot Section Message) (message : Message) :
    Option Section :=
  (data.sections.find? fun p => p.2.any fun m => m == message).map Prod.fst

/-- `data.collectionView(_:cellForItemAt:)`: the class of the cell that the provider makes,
and the message it is given; nothing where the provider makes none. -/
def cellForItem (data : Snapshot Section Message) (path : IndexPath) :
    Option (BubbleCell × Message) := do
  let message ← data.itemIdentifierFor path
  let cell ← cellProvider message
  return (cell, message)

end Snapshot

/-- Whether the class is `IncomingBubbleCell` or inherits from it. -/
def BubbleCell.isIncoming : BubbleCell → Bool
  | .incoming => true
  | .incomingTop => true
  | .incomingMiddle => true
  | .incomingBottom => true
  | _ => false

namespace SeenBadgeBuilder

/-- `getMessage` -/
def getMessage (data : Snapshot Section Message) (path : IndexPath) : Option Message :=
  (data.cellForItem path).map Prod.snd

/-- `isLastSeenMessage` -/
def isLastSeenMessage (data : Snapshot Section Message) (check : Message) : Bool :=
  match (data.itemIdentifiers.filter fun m => m.seen == true).getLast?.map Message.id with
  | some id => id == check.id
  | none => false

/-- `build` -/
def build (data : Snapshot Section Message) (path : IndexPath) : SupplementaryView :=
  match getMessage data path with
  | some message =>
    if message.seen && isLastSeenMessage data message then .seenBadge else .emptySeenBadge
  | none => .emptySeenBadge

end SeenBadgeBuilder

namespace DateStampBuilder

/-- `delta`, which forces the component. -/
def delta (a b : Date) : Option ℤ := (Date.hourComponent a b).map fun hours => |hours|

/-- `getMessages`: the message at the path and the one before it. -/
def getMessages (data : Snapshot Section Message) (path : IndexPath) :
    Option (Option (Message × Message)) :=
  match data.cellForItem path with
  | none => some none
  | some (_, message) => do
    let idx ← data.indexOfItem message
    let prev : ℤ := idx - 1
    if prev < 0 then return none
    let finalMessage ← data.itemIdentifiers[prev.toNat]?
    return some (finalMessage, message)

/-- `build`, after the guard; `relativeTime` is the text of a date. -/
def build (relativeTime : Date → String) (data : Snapshot Section Message) (path : IndexPath) :
    Option (Option SupplementaryView) := do
  match ← getMessages data path with
  | some (prev, current) =>
    let hours ← delta prev.date current.date
    if hours ≥ 1 then return some (.dateHeader (relativeTime current.date))
    return none
  | none =>
    match data.cellForItem path with
    | some (_, message) => return some (.dateHeader (relativeTime message.date))
    | none => return none

end DateStampBuilder

/-- `UsernameHeaderBuilder.build` -/
def UsernameHeaderBuilder.build (data : Snapshot Section Message) (path : IndexPath) :
    SupplementaryView :=
  match data.cellForItem path with
  | some (_, message) =>
    if message.origin = .incoming then .usernameHeader message.username else .emptyUsernameHeader
  | none => .emptyUsernameHeader

namespace AvatarBadgeBuilder

/-- `getCell`, with the message of the cell. -/
def getCell (data : Snapshot Section Message) (path : IndexPath) : Option Message := do
  let (cell, message) ← data.cellForItem path
  if cell.isIncoming then return message else none

/-- `messageIsLastInItsSection` -/
def messageIsLastInItsSection (data : Snapshot Section Message) (message : Message) :
    Option Bool :=
  match data.sectionIdentifierContaining message with
  | some sec => do
    let items ← data.itemIdentifiersInSection sec
    return items.getLast?.any fun lastMessage => message == lastMessage
  | none => some false

/-- `build` -/
def build (data : Snapshot Section Message) (path : IndexPath) : Option SupplementaryView :=
  match getCell data path with
  | some message => do
    if ← messageIsLastInItsSection data message then return .avatarBadge message
    return .emptyAvatar
  | none => some .emptyAvatar

end AvatarBadgeBuilder

/-- The provider of `setupSupplementaryViews`. -/
def supplementaryViewProvider (relativeTime : Date → String) (data : Snapshot Section Message)
    (kind : ElementKind) (path : IndexPath) : Option SupplementaryView :=
  match kind with
  | .sectionHeader => do
    let view ← DateStampBuilder.build relativeTime data path
    return view.getD .emptyHeader
  | .username => some (UsernameHeaderBuilder.build data path)
  | .avatar => AvatarBadgeBuilder.build data path
  | .seen => some (SeenBadgeBuilder.build data path)
  | .empty => some .emptyHeader

/-! ## Items and their places -/

namespace Snapshot

variable {data : Snapshot Section Message} {path : IndexPath} {m : Message}

/-- The item at a path is that of a section, at a row. -/
theorem itemIdentifierFor_eq_some : data.itemIdentifierFor path = some m ↔
    ∃ sec row : ℕ, path = ⟨row, sec⟩ ∧
      ∃ p, data.sections[sec]? = some p ∧ p.2[row]? = some m := by
  rw [itemIdentifierFor]
  refine ⟨fun h => ?_, ?_⟩
  · split at h
    · cases h
    · rename_i hpath
      obtain ⟨p, hp, hm⟩ := Option.bind_eq_some_iff.mp h
      have hpos : 0 ≤ path.sec ∧ 0 ≤ path.row := by omega
      refine ⟨path.sec.toNat, path.row.toNat, ?_, p, hp, hm⟩
      rw [Int.toNat_of_nonneg hpos.1, Int.toNat_of_nonneg hpos.2]
  · rintro ⟨sec, row, rfl, p, hp, hm⟩
    rw [if_neg (by simp)]
    simp [hp, hm]

/-- The first item of a section heads the list of its items. -/
theorem itemIdentifierFor_first {sec : ℤ} : data.itemIdentifierFor ⟨0, sec⟩ = some m ↔
    ∃ i : ℕ, sec = i ∧ ∃ p, data.sections[i]? = some p ∧ p.2.head? = some m := by
  rw [itemIdentifierFor_eq_some]
  constructor
  · rintro ⟨i, row, hpath, p, hp, hm⟩
    obtain ⟨hrow, hsec⟩ := IndexPath.mk.inj hpath
    obtain rfl : row = 0 := Int.ofNat_inj.mp hrow.symm
    exact ⟨i, hsec, p, hp, by rw [List.head?_eq_getElem?, hm]⟩
  · rintro ⟨i, rfl, p, hp, hm⟩
    exact ⟨i, 0, rfl, p, hp, by rw [← List.head?_eq_getElem?, hm]⟩

theorem mem_of_itemIdentifierFor (h : data.itemIdentifierFor path = some m) :
    m ∈ data.itemIdentifiers := by
  obtain ⟨sec, row, -, p, hp, hm⟩ := itemIdentifierFor_eq_some.mp h
  exact List.mem_flatMap.mpr ⟨p, List.mem_of_getElem? hp, List.mem_of_getElem? hm⟩

/-- Every item is somewhere. -/
theorem exists_itemIdentifierFor (h : m ∈ data.itemIdentifiers) :
    ∃ path, data.itemIdentifierFor path = some m := by
  obtain ⟨p, hp, hm⟩ := List.mem_flatMap.mp h
  obtain ⟨sec, hsec⟩ := List.getElem?_of_mem hp
  obtain ⟨row, hrow⟩ := List.getElem?_of_mem hm
  exact ⟨⟨row, sec⟩, itemIdentifierFor_eq_some.mpr ⟨sec, row, rfl, p, hsec, hrow⟩⟩

theorem nodup_ids (data : Snapshot Section Message) :
    (data.itemIdentifiers.map Message.id).Nodup :=
  Laid.pairwise_distinct_iff.mp data.distinct_items

/-- The id tells an item. -/
theorem eq_of_id {m m' : Message} (hm : m ∈ data.itemIdentifiers) (hm' : m' ∈ data.itemIdentifiers)
    (hid : m.id = m'.id) : m = m' := List.inj_on_of_nodup_map data.nodup_ids hm hm' hid

/-- An item is at one place only. -/
theorem path_unique {path' : IndexPath} (h : data.itemIdentifierFor path = some m)
    (h' : data.itemIdentifierFor path' = some m) : path = path' := by
  have hnd := List.Nodup.of_map _ data.nodup_ids
  rw [itemIdentifiers, List.nodup_flatMap] at hnd
  obtain ⟨sec, row, rfl, p, hp, hm⟩ := itemIdentifierFor_eq_some.mp h
  obtain ⟨sec', row', rfl, p', hp', hm'⟩ := itemIdentifierFor_eq_some.mp h'
  -- two sections have no item in common
  have hsec : sec = sec' := by
    by_contra hne
    have hdisjoint : List.Disjoint p.2 p'.2 := by
      have hpairwise := List.pairwise_iff_getElem.mp hnd.2
      obtain ⟨hlt, rfl⟩ := List.getElem?_eq_some_iff.mp hp
      obtain ⟨hlt', rfl⟩ := List.getElem?_eq_some_iff.mp hp'
      rcases Nat.lt_or_gt_of_ne hne with h | h
      · exact hpairwise sec sec' hlt hlt' h
      · exact List.Disjoint.symm (hpairwise sec' sec hlt' hlt h)
    exact hdisjoint (List.mem_of_getElem? hm) (List.mem_of_getElem? hm')
  obtain rfl := hsec
  obtain rfl := Option.some.inj (hp.symm.trans hp')
  have hrow := (List.getElem?_inj (List.getElem?_eq_some_iff.mp hm).1
    (hnd.1 p (List.mem_of_getElem? hp))).mp (hm.trans hm'.symm)
  rw [hrow]

theorem indexOfItem_of_eq {before after : List Message}
    (h : data.itemIdentifiers = before ++ m :: after) :
    data.indexOfItem m = some before.length := by
  have hnd := data.nodup_ids
  rw [h, List.map_append, List.map_cons, List.nodup_append] at hnd
  have hbefore : before.findIdx? (fun x => x == m) = none := by
    rw [List.findIdx?_eq_none_iff]
    intro x hx
    exact Message.beq_eq_false.mpr (hnd.2.2 x.id (List.mem_map_of_mem hx) m.id (by simp))
  rw [indexOfItem, h, List.findIdx?_append, hbefore]
  simp [List.findIdx?_cons]

theorem itemIdentifiersInSection_of_mem {sec : Section} {items : List Message}
    (h : (sec, items) ∈ data.sections) : data.itemIdentifiersInSection sec = some items := by
  obtain ⟨p, hp⟩ : ∃ p, data.sections.find? (fun p => p.1 = sec) = some p := by
    rw [← Option.isSome_iff_exists, List.find?_isSome]
    exact ⟨_, h, decide_eq_true rfl⟩
  have hfst : p.1 = sec := of_decide_eq_true (List.find?_some hp :)
  obtain rfl := List.inj_on_of_nodup_map data.nodup_sections (List.mem_of_find?_eq_some hp) h hfst
  rw [itemIdentifiersInSection, hp]
  rfl

/-- The section of an item is the one that holds it. -/
theorem sectionIdentifierContaining_of_mem {sec : Section} {items : List Message}
    (h : (sec, items) ∈ data.sections) (hm : m ∈ items) :
    data.sectionIdentifierContaining m = some sec := by
  obtain ⟨p, hp⟩ : ∃ p, data.sections.find? (fun p => p.2.any fun x => x == m) = some p := by
    rw [← Option.isSome_iff_exists, List.find?_isSome]
    exact ⟨_, h, List.any_eq_true.mpr ⟨m, hm, Message.beq_eq_true.mpr rfl⟩⟩
  have hmem := List.mem_of_find?_eq_some hp
  obtain ⟨x, hx, hxm⟩ := List.any_eq_true.mp (List.find?_some hp :)
  obtain rfl : x = m := eq_of_id (List.mem_flatMap.mpr ⟨p, hmem, hx⟩)
    (List.mem_flatMap.mpr ⟨_, h, hm⟩) (Message.beq_eq_true.mp hxm)
  obtain ⟨i, hi⟩ := List.getElem?_of_mem hmem
  obtain ⟨r, hr⟩ := List.getElem?_of_mem hx
  obtain ⟨j, hj⟩ := List.getElem?_of_mem h
  obtain ⟨r', hr'⟩ := List.getElem?_of_mem hm
  have hpath := path_unique (itemIdentifierFor_eq_some.mpr ⟨i, r, rfl, p, hi, hr⟩)
    (itemIdentifierFor_eq_some.mpr ⟨j, r', rfl, _, hj, hr'⟩)
  obtain rfl : i = j := Int.ofNat_inj.mp (congrArg IndexPath.sec hpath)
  obtain rfl := Option.some.inj (hi.symm.trans hj)
  rw [sectionIdentifierContaining, hp]
  rfl

/-! ## Cells -/

/-- The provider makes a cell for every message but those of the system. -/
theorem cellForItem_eq_none_iff (h : data.itemIdentifierFor path = some m) :
    data.cellForItem path = none ↔ m.origin = .system := by
  simp only [cellForItem, h, Option.bind_eq_bind, Option.bind_some, cellProvider]
  cases m.origin <;> cases m.corners <;> simp

theorem exists_cellForItem (h : data.itemIdentifierFor path = some m) (ho : m.origin ≠ .system) :
    ∃ cell, data.cellForItem path = some (cell, m) ∧ (cell.isIncoming ↔ m.origin = .incoming) := by
  simp only [cellForItem, h, Option.bind_eq_bind, Option.bind_some, cellProvider]
  cases horigin : m.origin with
  | system => exact absurd horigin ho
  | outgoing => cases m.corners <;> simp [BubbleCell.isIncoming]
  | incoming => cases m.corners <;> simp [BubbleCell.isIncoming]

end Snapshot

end MoonMessenger
