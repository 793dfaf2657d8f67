import MoonMessenger.Json
import MoonMessenger.Lib.ReadModifyWrite

/-!
# Joined conversations

`Backend.createConvo` adds a key to the array under `users/<uid>/conversations`: it reads
the keys (`getConvoKeys`), appends one and sets the whole array. It looks `conversations`
up in what `getData` delivers, and that is the value of `users/<uid>`: the app observes
this node, and the library answers from the node observed. The two halves are atomic on
the database, the whole is not, so the calls of one account are
read-modify-write requests on its node. `createConvo_keeps` is what
`ReadModifyWrite.always_keeps_iff` says of them.
-/

namespace MoonMessenger

namespace Backend

/-- What `getConvoKeys` passes to its completion when `getData` delivers the value `user`
of the node `users/<uid>`; `none` when it does not call it. -/
def getConvoKeys (currentUser : Option String) (user : Json) : Option (List String) := do
  let _ ← currentUser
  if user.snapshotExists then
    let data ← user.asDictionary?
    match (data.lookup "conversations").bind Json.asArray? with
    | some result => some (uniqued (result.filterMap Json.asString?))
    | none => some []
  else
    none

/-- The first half of `createConvo`: the keys its closure is called with. -/
def createConvoRead (currentUser : Option String) (key : String) (user : Json) :
    Option (List String) :=
  if key ≠ "" then getConvoKeys currentUser user else none

/-- The second half of `createConvo`: the user's node after `setValue`. -/
def createConvoWrite (key : String) (keys : List String) (user : Json) : Json :=
  user.settingChild "conversations" (.array ((keys ++ [key]).map .string))

variable {uid : String}

/-- No key is delivered twice. -/
theorem nodup_of_getConvoKeys {currentUser : Option String} {user : Json} {keys : List String}
    (h : getConvoKeys currentUser user = some keys) : keys.Nodup := by
  obtain ⟨_, -, h⟩ := Option.bind_eq_some_iff.mp h
  split at h
  · obtain ⟨data, -, h⟩ := Option.bind_eq_some_iff.mp h
    split at h
    · rw [← Option.some.inj h]
      exact nodup_uniqued _
    · rw [← Option.some.inj h]
      exact List.nodup_nil
  · cases h

theorem filterMap_asString? (keys : List String) :
    (keys.map Json.string).filterMap Json.asString? = keys := by
  induction keys with
  | nil => rfl
  | cons key keys ih => rw [List.map_cons, List.filterMap_cons, Json.asString?_string, ih]

/-- The keys of a node that stores an array of them. -/
theorem getConvoKeys_array {entries : List (String × Json)} {keys : List String}
    (h : entries.lookup "conversations" = some (.array (keys.map .string))) :
    getConvoKeys (some uid) (.dictionary entries) = some (uniqued keys) := by
  simp only [getConvoKeys, Json.snapshotExists, Json.asDictionary?_dictionary, h,
    Option.bind_eq_bind, Option.bind_some, if_true, Json.asArray?_array, filterMap_asString?]

/-- After the write, the keys are those written. -/
theorem getConvoKeys_createConvoWrite (key : String) (keys : List String) (user : Json) :
    getConvoKeys (some uid) (createConvoWrite key keys user) = some (uniqued (keys ++ [key])) := by
  obtain ⟨entries, hentries, hlookup⟩ := user.lookup_settingChild "conversations"
    (.array ((keys ++ [key]).map .string))
  rw [createConvoWrite, hentries, getConvoKeys_array hlookup]

/-- The calls `createConvo (keys i)` of one account, as requests on its node. -/
def createConvos {n : ℕ} (uid : String) (keys : Fin n → String) :
    ReadModifyWrite.Requests (Fin n) Json (List String) where
  read i := createConvoRead (some uid) (keys i)
  write i := createConvoWrite (keys i)

/-- The keys stored in a user's node. -/
def storedKeys (uid : String) (user : Json) : Set String :=
  { key | ∃ keys, getConvoKeys (some uid) user = some keys ∧ key ∈ keys }

theorem storedKeys_of_getConvoKeys {user : Json} {keys : List String}
    (h : getConvoKeys (some uid) user = some keys) :
    storedKeys uid user = { key | key ∈ keys } := by
  ext key
  refine ⟨?_, fun hkey => ⟨keys, h, hkey⟩⟩
  rintro ⟨keys', h', hkey⟩
  obtain rfl := Option.some.inj (h.symm.trans h')
  exact hkey

/-- The calls collect keys. -/
theorem collects_createConvos {n : ℕ} (uid : String) (keys : Fin n → String) :
    ReadModifyWrite.Collects (createConvos uid keys) (storedKeys uid) (fun r => { key | key ∈ r })
      keys where
  read i r user hr := by
    have hread : createConvoRead (some uid) (keys i) user = some r := hr
    rw [createConvoRead] at hread
    split at hread
    · exact (storedKeys_of_getConvoKeys hread).symm
    · cases hread
  write i r user := by
    rw [createConvos, storedKeys_of_getConvoKeys (getConvoKeys_createConvoWrite (keys i) r user)]
    ext key
    rw [Set.mem_ofPred_eq, mem_uniqued, List.mem_append, List.mem_singleton, Set.mem_insert_iff,
      Set.mem_ofPred_eq, or_comm]

end Backend

open ReadModifyWrite in
/-- **Joined conversations are kept by calls that have read all there is.** Whatever the
user's node holds and however many calls of `createConvo` interleave, every state keeps
the keys there were and those of the calls that have written if and only if each call,
when it writes, has read every key then stored, its own aside. When all of them have
written, all their keys are stored. -/
theorem createConvo_keeps {n : ℕ} (uid : String) (keys : Fin n → String) (user : Json)
    (es : List (Event (Fin n))) :
    (Runs.Always (step (Backend.createConvos uid keys))
        (fun _ _ _ s' => Keeps (Backend.storedKeys uid) keys user s') (.init user) es ↔
      Runs.Always (step (Backend.createConvos uid keys))
        (fun _ s e _ => UpToDate (Backend.storedKeys uid) (fun read => { key | key ∈ read }) keys
          s e) (.init user) es) ∧
    (Runs.Always (step (Backend.createConvos uid keys))
        (fun _ s e _ => UpToDate (Backend.storedKeys uid) (fun read => { key | key ∈ read }) keys
          s e) (.init user) es →
      (∀ i, .write i ∈ es) → ∀ s, Runs.run (step (Backend.createConvos uid keys)) (.init user) es =
        some s →
      Backend.storedKeys uid user ⊆ Backend.storedKeys uid s.cell ∧
        ∀ i, keys i ∈ Backend.storedKeys uid s.cell) := by
  have hiff := always_keeps_iff (Backend.collects_createConvos uid keys) user es
  refine ⟨hiff, fun hupToDate hall s hs => ?_⟩
  obtain ⟨hinitial, hwritten⟩ := (hiff.mpr hupToDate).end_state (keeps_init _ keys user) hs
  exact ⟨hinitial, fun i => hwritten i (phase_of_write_mem (hall i) hs)⟩

open ReadModifyWrite in
/-- Two calls that both read before either writes: one key is lost. -/
theorem not_createConvo_keeps :
    ¬ ∀ (n : ℕ) (uid : String) (keys : Fin n → String) (user : Json) (initial : List String)
      (es : List (Event (Fin n))) (s : State (Fin n) Json (List String)), (∀ i, keys i ≠ "") →
      Backend.getConvoKeys (some uid) user = some initial → (∀ i, .write i ∈ es) →
      Runs.run (step (Backend.createConvos uid keys)) (.init user) es = some s →
      ∀ i, keys i ∈ Backend.storedKeys uid s.cell := by
  intro hall
  let keys : Fin 2 → String := fun i => UUID.uuidString (.replicate i)
  let user : Json := .dictionary [("username", .string "User")]
  have hne : ∀ i, keys i ≠ "" := by decide +kernel
  have huser : Backend.getConvoKeys (some "u") user = some [] := rfl
  have hread (i : Fin 2) : (Backend.createConvos "u" keys).read i user = some [] :=
    (if_pos (hne i)).trans huser
  obtain ⟨s, hs, hcell⟩ := run_overlap (by decide : (0 : Fin 2) ≠ 1) (hread 0) (hread 1)
  obtain ⟨stored, hstored, hmem⟩ := hall 2 "u" keys user [] _ s hne huser
    (by simp [Fin.forall_fin_two]) hs 0
  have hlast : stored = uniqued ([] ++ [keys 1]) := by
    rw [hcell] at hstored
    exact Option.some.inj (hstored.symm.trans
      (Backend.getConvoKeys_createConvoWrite (keys 1) [] _))
  rw [hlast, mem_uniqued, List.nil_append, List.mem_singleton] at hmem
  exact absurd (UUID.uuidString_injective hmem) (by decide)

end MoonMessenger
