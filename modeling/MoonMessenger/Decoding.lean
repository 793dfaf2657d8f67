import MoonMessenger.Json
import MoonMessenger.Message

/-!
# Records and messages

`Backend.sendMessage` writes a record under the conversation's node,
`Backend.getMessages` decodes the node's children into messages and sorts them by
date.

* `identity_of_sent_record` — a record comes back with every field it was written with,
  except for its identity: no message decoded from it has the record's `messageId`, and
  no two deliveries decode it to equal messages;
* `content_getMessages_eq_iff` — two enumerations of a node are delivered in the same
  order exactly when they agree on the records of each date.
-/

namespace MoonMessenger

namespace Backend

/-- The record `sendMessage` sets; `currentUser` is the uid of the user signed in, `now`
the value of `Date()` and `messageId` that of `UUID()`. -/
def sendMessage (currentUser : Option String) (username : String) (now : Date) (messageId : UUID)
    (text id : String) : Option Json := do
  let user ← currentUser
  return .dictionary [
    ("id", .string id),
    ("text", .string text),
    ("user", .string user),
    ("username", .string username),
    ("date", .number now.timeIntervalSince1970),
    ("messageId", .string messageId.uuidString)]

/-- What the library calls made for one child returned. -/
structure Calls where
  /-- `UUID()`, for a record without a `messageId` -/
  missingId : UUID
  /-- `UUID()`, where there is no id to pass to `Message.init` -/
  noId : UUID
  /-- `UUID()` inside `Message.init` -/
  identity : UUID
  /-- `Date()`, the default date of `Message.init` -/
  now : Date

/-- The message made of a child, for a reader signed in as `uid`. -/
def decodeMessage (uid : String) (calls : Calls) (j : Json) : Message :=
  match j.asDictionary? with
  | some j =>
    Message.init calls.identity
      ((UUID.ofString? (((j.lookup "messageId").bind Json.asString?).getD
        calls.missingId.uuidString)).getD calls.noId)
      (((j.lookup "text").bind Json.asString?).getD "<ERROR>")
      (if ((j.lookup "user").bind Json.asString?).getD "" = uid then .outgoing else .incoming)
      ⟨((j.lookup "date").bind Json.asTimeInterval?).getD 0⟩
      true
      true
      false
      (((j.lookup "username").bind Json.asString?).getD "User")
      (((j.lookup "user").bind Json.asString?).getD "")
  | none =>
    Message.init calls.identity calls.noId "<ERROR>" .outgoing calls.now false false false "User" ""

/-- The messages of the children of a node, in enumeration order; the calls made for the
child number `i` return `calls i`. -/
def decodeMessages (uid : String) (calls : ℕ → Calls) (data : List (String × Json)) :
    List Message :=
  (data.map Prod.snd).mapIdx fun i j => decodeMessage uid (calls i) j

/-- What `getMessages` passes to its completion when the observer it registers for
`currentUser` delivers `value`; `none` when it does not call it. -/
def getMessages (currentUser : Option String) (value : Json) (calls : ℕ → Calls) :
    Option (List Message) := do
  let user ← currentUser
  let data ← value.asDictionary?
  return sorted (fun i j => i.date < j.date) (decodeMessages user calls data)

/-- The message `getConvoMessage` makes of a child. It differs in the name it gives the
reader, and has no sender. -/
def decodePreview (uid : String) (calls : Calls) (j : Json) : Message :=
  match j.asDictionary? with
  | some j =>
    Message.init calls.identity
      ((UUID.ofString? (((j.lookup "messageId").bind Json.asString?).getD
        calls.missingId.uuidString)).getD calls.noId)
      (((j.lookup "text").bind Json.asString?).getD "<ERROR>")
      (if ((j.lookup "user").bind Json.asString?).getD "" = uid then .outgoing else .incoming)
      ⟨((j.lookup "date").bind Json.asTimeInterval?).getD 0⟩
      true
      true
      false
      (if ((j.lookup "user").bind Json.asString?).getD "" = uid then "You"
        else ((j.lookup "username").bind Json.asString?).getD "User")
      ""
  | none =>
    Message.init calls.identity calls.noId "<ERROR>" .outgoing calls.now false false false "User" ""

/-- What the observer of `getConvoMessage`, registered by `uid`, calls the completion with
when it is told `value`; `now` is the value of `Date()`. -/
def getConvoMessage (relativeTime : Date → String) (uid : String) (value : Json)
    (calls : ℕ → Calls) (now : Date) : String × Date × String :=
  match value.asDictionary? with
  | some data =>
    let res := (sorted (fun i j => i.date < j.date)
      ((data.map Prod.snd).mapIdx fun i j => decodePreview uid (calls i) j)).getLast?
    (((res.map Message.username).getD "User") ++ ": " ++ ((res.map Message.text).getD "Message"),
      (res.map Message.date).getD now, (res.map fun m => relativeTime m.date).getD "0m")
  | none => ("No messages yet.", now, "")

variable {uid : String}

theorem getMessages_dictionary (data : List (String × Json)) (calls : ℕ → Calls) :
    getMessages (some uid) (.dictionary data) calls =
      some (StableSort.sortOn Message.date (decodeMessages uid calls data)) := by
  rw [← sorted_eq_sortOn]
  rfl

theorem mem_decodeMessages {calls : ℕ → Calls} {data : List (String × Json)} {i : ℕ}
    {p : String × Json} (hp : data[i]? = some p) :
    decodeMessage uid (calls i) p.2 ∈ decodeMessages uid calls data := by
  refine List.mem_of_getElem? (i := i) ?_
  rw [decodeMessages, List.getElem?_mapIdx, List.getElem?_map, hp]
  rfl

/-- Every child is delivered. -/
theorem exists_getMessages (uid : String) (calls : ℕ → Calls) {data : List (String × Json)} {i : ℕ}
    {p : String × Json} (hp : data[i]? = some p) :
    ∃ ms, getMessages (some uid) (.dictionary data) calls = some ms ∧
      decodeMessage uid (calls i) p.2 ∈ ms :=
  ⟨_, getMessages_dictionary data calls, StableSort.mem_sortOn.mpr (mem_decodeMessages hp)⟩

end Backend

/-! ## Round trips -/

/-- The fields of the message a reader gets for what a sender wrote. -/
structure SameFields (sender reader username text : String) (now : Date) (m : Message) : Prop where
  text : m.text = text
  date : m.date = now
  username : m.username = username
  userId : m.userId = sender
  origin : m.origin = .outgoing ↔ reader = sender

/-- The message a reader gets is the one the sender wrote. -/
structure RoundTrip (sender reader username text : String) (now : Date) (messageId : UUID)
    (m : Message) : Prop extends SameFields sender reader username text now m where
  id : m.id = messageId

namespace Backend

variable {sender reader username text id : String} {now : Date} {messageId : UUID} {record : Json}

theorem id_decodeMessage (calls : Calls) (j : Json) :
    (decodeMessage reader calls j).id = calls.identity := by
  rw [decodeMessage]
  split <;> rfl

/-- The fields make the round trip. -/
theorem sameFields_decodeMessage
    (hsend : sendMessage (some sender) username now messageId text id = some record)
    (calls : Calls) :
    SameFields sender reader username text now (decodeMessage reader calls record) := by
  obtain rfl := Option.some.inj hsend
  refine ⟨rfl, rfl, rfl, rfl, ?_⟩
  have horigin : (decodeMessage reader calls (.dictionary [
      ("id", .string id), ("text", .string text), ("user", .string sender),
      ("username", .string username), ("date", .number now.timeIntervalSince1970),
      ("messageId", .string messageId.uuidString)])).origin =
      if sender = reader then .outgoing else .incoming := rfl
  rw [horigin]
  by_cases h : sender = reader
  · rw [if_pos h]
    exact iff_of_true rfl h.symm
  · rw [if_neg h]
    exact iff_of_false (by simp) (Ne.symm h)

end Backend

/-- **A record loses its identity.** Whatever a sender writes, in any two deliveries of
the conversation that hold the record, the message made of it has the record's fields;
but its id is not the record's `messageId`, and the two messages are not equal. The
calls of `UUID()` are fresh: they do not return the `messageId`, nor the same value
twice. -/
theorem identity_of_sent_record {sender reader username text id : String} {now : Date}
    {messageId : UUID} {record : Json}
    (hsend : Backend.sendMessage (some sender) username now messageId text id = some record)
    {data₁ data₂ : List (String × Json)} {calls₁ calls₂ : ℕ → Backend.Calls} {i₁ i₂ : ℕ}
    {autoId₁ autoId₂ : String} (h₁ : data₁[i₁]? = some (autoId₁, record))
    (h₂ : data₂[i₂]? = some (autoId₂, record)) (hid : (calls₁ i₁).identity ≠ messageId)
    (hids : (calls₁ i₁).identity ≠ (calls₂ i₂).identity) :
    ∃ ms₁ ms₂ m₁ m₂,
      Backend.getMessages (some reader) (.dictionary data₁) calls₁ = some ms₁ ∧ m₁ ∈ ms₁ ∧
      m₁ = Backend.decodeMessage reader (calls₁ i₁) record ∧
      Backend.getMessages (some reader) (.dictionary data₂) calls₂ = some ms₂ ∧ m₂ ∈ ms₂ ∧
      m₂ = Backend.decodeMessage reader (calls₂ i₂) record ∧
      SameFields sender reader username text now m₁ ∧
      ¬ RoundTrip sender reader username text now messageId m₁ ∧ ¬ (m₁ == m₂) = true := by
  obtain ⟨ms₁, hms₁, hm₁⟩ := Backend.exists_getMessages reader calls₁ h₁
  obtain ⟨ms₂, hms₂, hm₂⟩ := Backend.exists_getMessages reader calls₂ h₂
  refine ⟨ms₁, ms₂, _, _, hms₁, hm₁, rfl, hms₂, hm₂, rfl,
    Backend.sameFields_decodeMessage hsend _, fun hround => ?_, fun heq => ?_⟩
  · have := hround.id
    rw [Backend.id_decodeMessage] at this
    exact hid this
  · rw [Message.beq_eq_true, Backend.id_decodeMessage, Backend.id_decodeMessage] at heq
    exact hids heq

/-- Calls of which those of `UUID()` return `replicate d`. -/
def sampleCalls (d : ℕ) : Backend.Calls where
  missingId := .replicate d
  noId := .replicate d
  identity := .replicate d
  now := ⟨0⟩

/-- A record, with `replicate 0` for its `messageId`. -/
def sampleRecord (text : String) : Json :=
  .dictionary [("id", .string "c"), ("text", .string text), ("user", .string "u"),
    ("username", .string "User"), ("date", .number 0),
    ("messageId", .string (UUID.uuidString (.replicate 0)))]

theorem identity_of_sent_record_twice :
    ∃ ms₁ ms₂ m₁ m₂,
      Backend.getMessages (some "u") (.dictionary [("a", sampleRecord "Hello")])
        (fun _ => sampleCalls 1) = some ms₁ ∧ m₁ ∈ ms₁ ∧
      m₁ = Backend.decodeMessage "u" (sampleCalls 1) (sampleRecord "Hello") ∧
      Backend.getMessages (some "u") (.dictionary [("a", sampleRecord "Hello")])
        (fun _ => sampleCalls 2) = some ms₂ ∧ m₂ ∈ ms₂ ∧
      m₂ = Backend.decodeMessage "u" (sampleCalls 2) (sampleRecord "Hello") ∧
      SameFields "u" "u" "User" "Hello" ⟨0⟩ m₁ ∧
      ¬ RoundTrip "u" "u" "User" "Hello" ⟨0⟩ (.replicate 0) m₁ ∧ ¬ (m₁ == m₂) = true := by
  have hget : [("a", sampleRecord "Hello")][0]? = some ("a", sampleRecord "Hello") := rfl
  have hsend : Backend.sendMessage (some "u") "User" ⟨0⟩ (.replicate 0) "Hello" "c" =
      some (sampleRecord "Hello") := rfl
  exact identity_of_sent_record hsend hget hget (by decide) (by decide)

/-- The message made of a record that was just written is another one. -/
theorem not_roundTrip_sampleRecord :
    ¬ ∀ (sender reader username text id : String) (now : Date) (messageId : UUID) (record : Json)
      (calls : Backend.Calls),
      Backend.sendMessage (some sender) username now messageId text id = some record →
      RoundTrip sender reader username text now messageId
        (Backend.decodeMessage reader calls record) := by
  intro hall
  have hround := (hall "u" "u" "User" "Hello" "c" ⟨0⟩ (.replicate 0) (sampleRecord "Hello")
    (sampleCalls 1) rfl).id
  rw [Backend.id_decodeMessage] at hround
  exact absurd hround (by decide)

/-! ## Two enumerations of a node -/

/-- What of a message comes from its record: everything but the identity. -/
def Message.content (m : Message) : Message := { m with id := .replicate 0 }

namespace Backend

variable {uid : String}

/-- What of a message comes from the record `j`. -/
def recordContent (uid : String) (j : Json) : Message :=
  (decodeMessage uid ⟨.replicate 0, .replicate 0, .replicate 0, ⟨0⟩⟩ j).content

/-- The contents of the records of a node, in enumeration order. -/
def contents (uid : String) (data : List (String × Json)) : List Message :=
  data.map fun p => recordContent uid p.2

/-- The calls decide the identity and nothing else, if the child is a dictionary. -/
theorem content_decodeMessage (calls : Calls) {j : Json} (hj : j.asDictionary?.isSome) :
    (decodeMessage uid calls j).content = recordContent uid j := by
  obtain ⟨entries, hentries⟩ := Option.isSome_iff_exists.mp hj
  rw [recordContent, decodeMessage, decodeMessage, hentries]
  rfl

theorem content_decodeMessages (calls : ℕ → Calls) {data : List (String × Json)}
    (hdata : ∀ p ∈ data, p.2.asDictionary?.isSome) :
    (decodeMessages uid calls data).map Message.content = contents uid data := by
  have hmap : (decodeMessages uid calls data).map Message.content =
      (data.map Prod.snd).map (recordContent uid) := by
    refine map_mapIdx_eq_map fun i j hj => ?_
    obtain ⟨p, hp, rfl⟩ := List.mem_map.mp hj
    exact content_decodeMessage (calls i) (hdata p hp)
  rw [hmap, contents, List.map_map]
  rfl

/-- Up to their identities, the messages are delivered as their records are sorted. -/
theorem exists_content_getMessages (calls : ℕ → Calls) {data : List (String × Json)}
    (hdata : ∀ p ∈ data, p.2.asDictionary?.isSome) :
    ∃ ms, getMessages (some uid) (.dictionary data) calls = some ms ∧
      ms.Pairwise (fun i j => i.date ≤ j.date) ∧
      ms.map Message.content =
        StableSort.sortOn Message.date (contents uid data) := by
  refine ⟨_, getMessages_dictionary data calls, StableSort.pairwise_sortOn Message.date _, ?_⟩
  rw [StableSort.map_sortOn Message.date Message.date Message.content fun _ => rfl,
    content_decodeMessages calls hdata]

end Backend

/-- **The order of a conversation.** Two enumerations of the records of a node are
delivered in date order and hold the same contents; the two deliveries have the same
sequence exactly when the enumerations agree on the records of each date, and so
whenever no two records have the same date. -/
theorem content_getMessages_eq_iff (uid : String) {data data' : List (String × Json)}
    (hperm : data.Perm data') (hdata : ∀ p ∈ data, p.2.asDictionary?.isSome)
    (calls calls' : ℕ → Backend.Calls) :
    ∃ ms ms', Backend.getMessages (some uid) (.dictionary data) calls = some ms ∧
      Backend.getMessages (some uid) (.dictionary data') calls' = some ms' ∧
      ms.Pairwise (fun i j => i.date ≤ j.date) ∧ ms'.Pairwise (fun i j => i.date ≤ j.date) ∧
      (ms.map Message.content).Perm (ms'.map Message.content) ∧
      (ms.map Message.content = ms'.map Message.content ↔
        ∀ date, (Backend.contents uid data).filter (fun m => m.date = date) =
          (Backend.contents uid data').filter fun m => m.date = date) ∧
      (((Backend.contents uid data).map Message.date).Nodup →
        ms.map Message.content = ms'.map Message.content) := by
  have hdata' : ∀ p ∈ data', p.2.asDictionary?.isSome := fun p hp =>
    hdata p (hperm.mem_iff.mpr hp)
  obtain ⟨ms, hms, hsorted, hcontent⟩ := Backend.exists_content_getMessages calls hdata
  obtain ⟨ms', hms', hsorted', hcontent'⟩ := Backend.exists_content_getMessages calls' hdata'
  have hcontents : (Backend.contents uid data).Perm (Backend.contents uid data') := hperm.map _
  refine ⟨ms, ms', hms, hms', hsorted, hsorted', ?_, ?_, fun hnd => ?_⟩
  · rw [hcontent, hcontent']
    exact (StableSort.perm_sortOn _).trans (hcontents.trans (StableSort.perm_sortOn _).symm)
  · rw [hcontent, hcontent', StableSort.sortOn_eq_sortOn_iff]
  · rw [hcontent, hcontent']
    exact StableSort.sortOn_eq_of_perm hcontents fun a ha b hb =>
      List.inj_on_of_nodup_map hnd ha hb

/-- Two records of one date, in one order and in the other. -/
theorem content_getMessages_eq_iff_sampleRecord :
    ∃ ms ms', Backend.getMessages (some "u")
        (.dictionary [("a", sampleRecord "Hello"), ("b", sampleRecord "Goodbye")])
        (fun _ => sampleCalls 1) = some ms ∧
      Backend.getMessages (some "u")
        (.dictionary [("b", sampleRecord "Goodbye"), ("a", sampleRecord "Hello")])
        (fun _ => sampleCalls 2) = some ms' ∧
      ms.Pairwise (fun i j => i.date ≤ j.date) ∧ ms'.Pairwise (fun i j => i.date ≤ j.date) ∧
      (ms.map Message.content).Perm (ms'.map Message.content) ∧
      (ms.map Message.content = ms'.map Message.content ↔
        ∀ date, (Backend.contents "u" [("a", sampleRecord "Hello"),
            ("b", sampleRecord "Goodbye")]).filter (fun m => m.date = date) =
          (Backend.contents "u" [("b", sampleRecord "Goodbye"),
            ("a", sampleRecord "Hello")]).filter fun m => m.date = date) ∧
      (((Backend.contents "u" [("a", sampleRecord "Hello"),
          ("b", sampleRecord "Goodbye")]).map Message.date).Nodup →
        ms.map Message.content = ms'.map Message.content) :=
  content_getMessages_eq_iff "u" (List.Perm.swap ..) (by simp [sampleRecord]) _ _

/-- The delivered sequence depends on the enumeration. -/
theorem not_one_order :
    ¬ ∀ (uid : String) (data data' : List (String × Json)) (calls calls' : ℕ → Backend.Calls)
      (ms ms' : List Message), (data.map Prod.fst).Nodup →
      (∀ p ∈ data, ∃ sender username now messageId text id,
        Backend.sendMessage (some sender) username now messageId text id = some p.2) →
      data.Perm data' → Backend.getMessages (some uid) (.dictionary data) calls = some ms →
      Backend.getMessages (some uid) (.dictionary data') calls' = some ms' →
      ms.map Message.content = ms'.map Message.content := by
  intro hall
  have hrecord (text : String) : ∃ sender username now messageId text' id,
      Backend.sendMessage (some sender) username now messageId text' id =
        some (sampleRecord text) := ⟨"u", "User", ⟨0⟩, .replicate 0, text, "c", rfl⟩
  have hsame := hall "u" [("a", sampleRecord "Hello"), ("b", sampleRecord "Goodbye")]
    [("b", sampleRecord "Goodbye"), ("a", sampleRecord "Hello")] (fun _ => sampleCalls 1)
    (fun _ => sampleCalls 2) _ _ (by simp) (by simpa using ⟨hrecord _, hrecord _⟩)
    (List.Perm.swap ..) rfl rfl
  have htexts := congrArg (List.map Message.text) hsame
  exact absurd htexts (by decide +kernel)

end MoonMessenger
