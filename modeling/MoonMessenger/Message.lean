import MoonMessenger.Foundation

/-!
# Messages and sections

The values the chat view shows (`Message.swift`). Two things the types alone do
not say: messages are compared by `id` only (`Message.beq_eq_true`), and the
initialiser gives every message an identity of its own, whatever `id` it is
called with (`Message.init`).
-/

namespace MoonMessenger

/-- Which side of the conversation a message stands on. -/
inductive Origin where
  | outgoing
  | incoming
  | system
  deriving DecidableEq

/-- How the corners of a bubble are rounded, by its place in a section. -/
inductive Rounding where
  | basic
  | top
  | middle
  | bottom
  deriving DecidableEq

/-- A message as the chat view displays it. -/
structure Message where
  origin : Origin
  text : String
  id : UUID
  date : Date
  corners : Rounding
  /-- whether or not the message was delivered -/
  delivered : Bool
  /-- whether or not the receiver has seen the message -/
  seen : Bool
  /-- whether or not there was an error sending the message -/
  error : Bool
  username : String
  userId : String
  deriving DecidableEq

namespace Message

/-- `Message.init`. The `uuid` is what its call of `UUID()` returned; the arguments
`id` and `error` are taken and not used. -/
def init (uuid : UUID) (_id : UUID) (text : String) (origin : Origin) (date : Date)
    (delivered seen _error : Bool) (username userId : String) : Message where
  text := text
  id := uuid
  origin := origin
  date := date
  corners := .basic
  delivered := delivered
  seen := (if origin = .outgoing then false else true) || seen
  error := false
  username := username
  userId := userId

/-- `markDelivered` -/
def markDelivered (m : Message) : Message := { m with delivered := true }

/-- `markSeen`: a message cannot be seen if it has not been delivered yet. -/
def markSeen (m : Message) : Message := if m.delivered then { m with seen := true } else m

/-- `markError`: an error cannot occur if the message has been delivered. -/
def markError (m : Message) : Message := if m.delivered then m else { m with error := true }

/-- `changing`: a changed copy. -/
def changing (m : Message) (change : Message → Message) : Message := change m

instance : BEq Message := ⟨fun lhs rhs => lhs.id == rhs.id⟩

theorem beq_def (a b : Message) : (a == b) = (a.id == b.id) := rfl

theorem beq_eq_true {a b : Message} : (a == b) = true ↔ a.id = b.id := by
  rw [beq_def, beq_iff_eq]

theorem beq_eq_false {a b : Message} : (a == b) = false ↔ a.id ≠ b.id := by
  rw [beq_def, beq_eq_false_iff_ne]

instance : EquivBEq Message where
  rfl := beq_eq_true.mpr rfl
  symm h := beq_eq_true.mpr (beq_eq_true.mp h).symm
  trans h₁ h₂ := beq_eq_true.mpr ((beq_eq_true.mp h₁).trans (beq_eq_true.mp h₂))

/-- `hash(into:)`: the values fed to the hasher. -/
def hash (m : Message) : UUID × Bool := (m.id, m.seen)

/-- A message with the corners `c`. -/
def withCorners (m : Message) (c : Rounding) : Message := { m with corners := c }

@[simp] theorem changing_corners (m : Message) (c : Rounding) :
    m.changing (fun a => { a with corners := c }) = m.withCorners c := rfl

/-- What `DataBuilder` never changes in a message: everything but its corners and
its seen flag. -/
def core (m : Message) : Message := { m with corners := .basic, seen := false }

@[simp] theorem core_withCorners (m : Message) (c : Rounding) : (m.withCorners c).core = m.core :=
  rfl

@[simp] theorem id_withCorners (m : Message) (c : Rounding) : (m.withCorners c).id = m.id := rfl

@[simp] theorem origin_withCorners (m : Message) (c : Rounding) :
    (m.withCorners c).origin = m.origin := rfl

@[simp] theorem corners_withCorners (m : Message) (c : Rounding) :
    (m.withCorners c).corners = c := rfl

section Core

variable {a b : Message}

theorem id_eq_of_core (h : a.core = b.core) : a.id = b.id :=
  (congrArg id h : a.core.id = b.core.id)

theorem date_eq_of_core (h : a.core = b.core) : a.date = b.date :=
  (congrArg date h : a.core.date = b.core.date)

theorem userId_eq_of_core (h : a.core = b.core) : a.userId = b.userId :=
  (congrArg userId h : a.core.userId = b.core.userId)

theorem origin_eq_of_core (h : a.core = b.core) : a.origin = b.origin :=
  (congrArg origin h : a.core.origin = b.core.origin)

theorem delivered_eq_of_core (h : a.core = b.core) : a.delivered = b.delivered :=
  (congrArg delivered h : a.core.delivered = b.core.delivered)

theorem error_eq_of_core (h : a.core = b.core) : a.error = b.error :=
  (congrArg error h : a.core.error = b.core.error)

end Core

end Message

/-- A section of the chat view. Its `id` is a value of `UUID()` of which nothing but
its freshness ever matters: the number of the call that made it. -/
structure Section where
  id : ℕ
  origin : Origin
  deriving DecidableEq

/-- `Section.init`, at the call number `drawn` of `UUID()`. -/
def Section.init (drawn : ℕ) (origin : Origin) : Section := ⟨drawn, origin⟩

end MoonMessenger
