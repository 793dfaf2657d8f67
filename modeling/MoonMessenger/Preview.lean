import MoonMessenger.Decoding

/-!
# The preview of a conversation

`getConvoMessage` decodes a conversation on its own, with another rule for the name it
gives a message, and shows the last one. `preview_eq_last`: it shows the last message that
`getMessages` delivers, however the children are written, if their dates tell them apart.

A child that is no dictionary becomes a message dated now in both decoders. Such children
have the same date, and look the same.
-/

namespace MoonMessenger

namespace Backend

/-- The date that is decoded from the entries of a child. -/
def recordDate (j : List (String × Json)) : Date :=
  ⟨((j.lookup "date").bind Json.asTimeInterval?).getD 0⟩

/-- The dates of the children that are dictionaries. -/
def recordDates (data : List (String × Json)) : List Date :=
  ((data.map Prod.snd).filterMap Json.asDictionary?).map recordDate

/-- What a preview shows of a message: a name, its text and its date. -/
structure Line where
  name : String
  text : String
  date : Date
  deriving DecidableEq

/-- The line for a message that `getMessages` delivers. -/
def messageLine (uid : String) (m : Message) : Line :=
  ⟨if m.userId = uid then "You" else m.username, m.text, m.date⟩

/-- The line that `getConvoMessage` makes of its last message. -/
def previewLine (m : Message) : Line := ⟨m.username, m.text, m.date⟩

/-- The line for a child, by either of them. -/
def childLine (uid : String) (now : Date) (j : Json) : Line :=
  match j.asDictionary? with
  | some j =>
    ⟨if ((j.lookup "user").bind Json.asString?).getD "" = uid then "You"
      else ((j.lookup "username").bind Json.asString?).getD "User",
      ((j.lookup "text").bind Json.asString?).getD "<ERROR>", recordDate j⟩
  | none => ⟨"User", "<ERROR>", now⟩

variable {uid : String} {now : Date}

theorem messageLine_decodeMessage (huid : uid ≠ "") {calls : Calls} (hnow : calls.now = now)
    (j : Json) : messageLine uid (decodeMessage uid calls j) = childLine uid now j := by
  rw [messageLine, decodeMessage, childLine]
  cases j.asDictionary? with
  | some entries => rfl
  | none => simp [Message.init, huid.symm, hnow]

theorem previewLine_decodePreview {calls : Calls} (hnow : calls.now = now) (j : Json) :
    previewLine (decodePreview uid calls j) = childLine uid now j := by
  rw [previewLine, decodePreview, childLine]
  cases j.asDictionary? with
  | some entries => rfl
  | none => simp [Message.init, hnow]

theorem childLine_congr {j k : Json} (h : j.asDictionary? = k.asDictionary?) :
    childLine uid now j = childLine uid now k := by
  rw [childLine, childLine, h]

theorem date_childLine_dictionary {j : Json} {entries : List (String × Json)}
    (hj : j.asDictionary? = some entries) :
    (childLine uid now j).date = recordDate entries := by
  rw [childLine, hj]

theorem date_childLine_none {j : Json} (hj : j.asDictionary? = none) :
    (childLine uid now j).date = now := by
  rw [childLine, hj]

/-- Children with the same date have the same line. -/
theorem childLine_inj {data : List (String × Json)} (hdates : (recordDates data).Nodup)
    (hnow : now ∉ recordDates data) {j k : Json} (hj : j ∈ data.map Prod.snd)
    (hk : k ∈ data.map Prod.snd) (h : (childLine uid now j).date = (childLine uid now k).date) :
    childLine uid now j = childLine uid now k := by
  have hmem {j : Json} (hj : j ∈ data.map Prod.snd) {entries : List (String × Json)}
      (hentries : j.asDictionary? = some entries) :
      entries ∈ (data.map Prod.snd).filterMap Json.asDictionary? :=
    List.mem_filterMap.mpr ⟨j, hj, hentries⟩
  refine childLine_congr ?_
  cases hj' : j.asDictionary? with
  | none =>
    cases hk' : k.asDictionary? with
    | none => rfl
    | some k' =>
      rw [date_childLine_none hj', date_childLine_dictionary hk'] at h
      exact absurd (h ▸ List.mem_map_of_mem (hmem hk hk')) hnow
  | some j' =>
    cases hk' : k.asDictionary? with
    | none =>
      rw [date_childLine_dictionary hj', date_childLine_none hk'] at h
      exact absurd (h ▸ List.mem_map_of_mem (hmem hj hj')) hnow
    | some k' =>
      rw [date_childLine_dictionary hj', date_childLine_dictionary hk'] at h
      rw [List.inj_on_of_nodup_map hdates (hmem hj hj') (hmem hk hk') h]

variable {data : List (String × Json)} {calls : ℕ → Calls}

/-- The messages `getMessages` delivers have the lines of the children, by date. -/
theorem map_messageLine (huid : uid ≠ "") (hcalls : ∀ i, (calls i).now = now) :
    (StableSort.sortOn Message.date (decodeMessages uid calls data)).map (messageLine uid) =
      StableSort.sortOn Line.date ((data.map Prod.snd).map (childLine uid now)) := by
  rw [StableSort.map_sortOn Message.date Line.date (messageLine uid) fun _ => rfl]
  exact congrArg _ (map_mapIdx_eq_map fun i j _ => messageLine_decodeMessage huid (hcalls i) j)

/-- The messages `getConvoMessage` sorts have them, too. -/
theorem map_previewLine (hcalls : ∀ i, (calls i).now = now) :
    (StableSort.sortOn Message.date
      ((data.map Prod.snd).mapIdx fun i j => decodePreview uid (calls i) j)).map previewLine =
      StableSort.sortOn Line.date ((data.map Prod.snd).map (childLine uid now)) := by
  rw [StableSort.map_sortOn Message.date Line.date previewLine fun _ => rfl]
  exact congrArg _ (map_mapIdx_eq_map fun i j _ => previewLine_decodePreview (hcalls i) j)

/-- Two enumerations of the children sort to the same lines. -/
theorem sortOn_childLine_eq {data' : List (String × Json)} (hperm : data.Perm data')
    (hdates : (recordDates data).Nodup) (hnow : now ∉ recordDates data) :
    StableSort.sortOn Line.date ((data.map Prod.snd).map (childLine uid now)) =
      StableSort.sortOn Line.date ((data'.map Prod.snd).map (childLine uid now)) := by
  refine StableSort.sortOn_eq_of_perm ((hperm.map _).map _) fun a ha b hb hab => ?_
  obtain ⟨j, hj, rfl⟩ := List.mem_map.mp ha
  obtain ⟨k, hk, rfl⟩ := List.mem_map.mp hb
  exact childLine_inj hdates hnow hj hk hab

/-- The preview is made of the line of the last message. -/
theorem getConvoMessage_eq (relativeTime : Date → String) {m : Message}
    (hlast : (StableSort.sortOn Message.date
      ((data.map Prod.snd).mapIdx fun i j => decodePreview uid (calls i) j)).getLast? = some m) :
    getConvoMessage relativeTime uid (.dictionary data) calls now =
      ((previewLine m).name ++ ": " ++ (previewLine m).text, (previewLine m).date,
        relativeTime (previewLine m).date) := by
  rw [← sorted_eq_sortOn] at hlast
  simp only [getConvoMessage, Json.asDictionary?_dictionary, hlast, Option.map_some,
    Option.getD_some, previewLine]

end Backend

open Backend in
/-- **The preview is the last message of the chat.** For every account that is signed in and
every conversation that is not empty, whatever its children are: if the dates of those that
are dictionaries differ from each other and from now, the preview shows the text and the
date of the last message that `getMessages` delivers, under "You" if it is the reader's own,
else under its username. The two may enumerate the children in different orders. -/
theorem preview_eq_last (relativeTime : Date → String) {uid : String} (huid : uid ≠ "")
    {data data' : List (String × Json)} (hne : data ≠ []) (hperm : data.Perm data')
    {calls calls' : ℕ → Calls} {now : Date} (hcalls : ∀ i, (calls i).now = now)
    (hcalls' : ∀ i, (calls' i).now = now) (hdates : (recordDates data).Nodup)
    (hnow : now ∉ recordDates data) :
    ∃ ms m, getMessages (some uid) (.dictionary data) calls = some ms ∧ ms.getLast? = some m ∧
      getConvoMessage relativeTime uid (.dictionary data') calls' now =
        ((if m.userId = uid then "You" else m.username) ++ ": " ++ m.text, m.date,
          relativeTime m.date) := by
  set ms := StableSort.sortOn Message.date (decodeMessages uid calls data) with hms
  set previews := StableSort.sortOn Message.date
    ((data'.map Prod.snd).mapIdx fun i j => decodePreview uid (calls' i) j) with hpreviews
  have hlines : ms.map (messageLine uid) = previews.map previewLine := by
    rw [hms, hpreviews, map_messageLine huid hcalls, map_previewLine hcalls',
      sortOn_childLine_eq hperm hdates hnow]
  have hnil : ms ≠ [] := by
    rw [Ne, ← List.length_eq_zero_iff, hms, (StableSort.perm_sortOn _).length_eq, decodeMessages]
    simpa using hne
  obtain ⟨init, m, hsplit⟩ := (List.eq_nil_or_concat' ms).resolve_left hnil
  obtain ⟨m', hm', hline⟩ :
      ∃ m', previews.getLast? = some m' ∧ previewLine m' = messageLine uid m := by
    have hlast := congrArg List.getLast? hlines
    rw [hsplit, List.map_append, List.map_singleton, List.getLast?_concat,
      List.getLast?_map] at hlast
    exact Option.map_eq_some_iff.mp hlast.symm
  refine ⟨ms, m, getMessages_dictionary data calls, by simp [hsplit], ?_⟩
  rw [getConvoMessage_eq relativeTime hm', hline]
  rfl

/-- A record, and a child that is none. -/
theorem preview_eq_last_sampleRecord :
    ∃ ms m, Backend.getMessages (some "u")
        (.dictionary [("a", sampleRecord "Hello"), ("b", .string "?")])
        (fun _ => { sampleCalls 1 with now := ⟨60⟩ }) = some ms ∧ ms.getLast? = some m ∧
      Backend.getConvoMessage (fun _ => "Just now") "u"
        (.dictionary [("b", .string "?"), ("a", sampleRecord "Hello")])
        (fun _ => { sampleCalls 1 with now := ⟨60⟩ }) ⟨60⟩ =
        ((if m.userId = "u" then "You" else m.username) ++ ": " ++ m.text, m.date, "Just now") :=
  preview_eq_last (fun _ => "Just now") (by decide) (by simp) (List.Perm.swap _ _ _)
    (fun _ => rfl) (fun _ => rfl) (by decide +kernel) (by decide +kernel)

end MoonMessenger
