import MoonMessenger.Message
import MoonMessenger.Snapshot

/-!
# The data builder

`DataBuilder.swift`: how a batch of messages is appended to the snapshot of the
chat view. The builder keeps the working list of all messages, old and new; a
loop over its indices appends every message that the snapshot does not hold yet,
to the last section or to a new one, and rounds the bubble before it again.

`none` is a trap: an empty range, an index out of bounds, a forced optional that
is nil, or an exception of the snapshot.
-/

namespace MoonMessenger

/-- A builder at work on the snapshot `data`; `drawn` counts the calls of `UUID()`
made for sections. -/
structure DataBuilder where
  data : Snapshot Section Message
  messages : List Message
  drawn : ℕ

namespace DataBuilder

/-- `DataBuilder.init` -/
def init (data : Snapshot Section Message) (drawn : ℕ) : DataBuilder where
  messages := [] ++ data.itemIdentifiers
  data := data
  drawn := drawn

/-- `atLeastOneMessageIsSeen` -/
def atLeastOneMessageIsSeen (messages : List Message) : Bool :=
  !(messages.filter fun m => m.seen == true).isEmpty

/-- `lastSeenIdx`. Its default is a fresh `UUID()`, the id of no message: `none`. -/
def lastSeenIdx (b : DataBuilder) : Option UUID :=
  (b.messages.filter fun m => m.seen == true).getLast?.map Message.id

/-- `count`, of a section of the snapshot -/
def count (b : DataBuilder) (sec : Section) : Option ℕ :=
  (b.data.itemIdentifiersInSection sec).map List.length

/-- `delta`: the whole hours between two dates. -/
def delta (a b : Date) : ℤ :=
  match Date.hourComponent a b with
  | some days => |days|
  | none => 0

/-- Only the last seen message of the working list keeps the flag. -/
def markLastSeen (b : DataBuilder) : DataBuilder :=
  let lastIdx := b.lastSeenIdx
  { b with
    messages := b.messages.map fun m =>
      if some m.id = lastIdx then m.changing fun a => { a with seen := true }
      else m.changing fun a => { a with seen := false } }

/-- The condition of the loop at index `i`, where the working list holds `m`: does
`m` continue the last section? -/
def continuesLastSection (b : DataBuilder) (i : ℕ) (m : Message) : Option Bool :=
  if b.data.sectionIdentifiers.getLast?.map Section.origin = some m.origin ∧ 1 ≤ i then do
    let prev ← b.messages[i - 1]?
    return decide (delta prev.date m.date ≤ 2) && decide (prev.userId = m.userId)
  else
    return false

/-- Delete the last item and append the previous message of the working list with
new corners in its place. -/
def replaceLast (b : DataBuilder) (i : ℕ) (corners : Rounding) :
    Option (Snapshot Section Message) := do
  let last ← b.data.itemIdentifiers.getLast?
  let prev ← b.messages[i - 1]?
  (b.data.deleteItems [last]).appendItems
    [prev.changing fun a => { a with corners := corners }] b.data.sectionIdentifiers.getLast?

/-- The body of the loop at index `i`. -/
def step (b : DataBuilder) (i : ℕ) : Option DataBuilder := do
  if i < b.data.itemIdentifiers.length then
    return b
  let m ← b.messages[i]?
  if ← b.continuesLastSection i m then
    -- the previous bubble goes from basic to top, or from bottom to middle
    let lastSection ← b.data.sectionIdentifiers.getLast?
    let data ← if (← b.count lastSection) = 1 then b.replaceLast i .top else b.replaceLast i .middle
    let data ← data.appendItems [m.changing fun a => { a with corners := .bottom }]
      data.sectionIdentifiers.getLast?
    return { b with data := data }
  else
    let m := m.changing fun a => { a with corners := .basic }
    let data ← b.data.appendSections [Section.init b.drawn m.origin]
    let data ← data.appendItems [m] data.sectionIdentifiers.getLast?
    return { b with data := data, drawn := b.drawn + 1 }

/-- `build`. The range `0...messages.count-1` traps when there are no messages. -/
def build (b : DataBuilder) (messages : List Message) : Option DataBuilder :=
  let b := { b with messages := b.messages ++ messages }
  let b := if atLeastOneMessageIsSeen messages then b.markLastSeen else b
  if b.messages.length = 0 then none
  else (List.range b.messages.length).foldlM step b

end DataBuilder

end MoonMessenger
