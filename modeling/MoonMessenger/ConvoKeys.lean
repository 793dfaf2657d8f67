import MoonMessenger.JoinedConvos

/-!
# The node of the joined conversations

`createConvo` stores an array under `users/<uid>/conversations`, without duplicates but
for the key it appends; `getConvoKeys` drops duplicates when it reads.

* `joinedKeys` — calls that do not overlap keep an ordered set there.
* `createConvo_keepsStrings_iff` — a node that comes from elsewhere may be handed over as
  a dictionary, and that is read as if there were nothing: exactly when a call drops what
  was stored.
-/

namespace MoonMessenger

namespace Backend

/-- A call of `createConvo` that comes to a successful end before anything else happens. -/
def createConvo (uid : String) (user : Json) (key : String) : Option Json :=
  (createConvoRead (some uid) key user).map fun keys => createConvoWrite key keys user

/-- The children of `conversations`, in the node of a user. -/
def conversations (user : Json) : List (String × Json) :=
  match user.childEntries.lookup "conversations" with
  | some value => value.childEntries
  | none => []

/-- The strings among these children. -/
def storedStrings (children : List (String × Json)) : Set String :=
  { s | ∃ p ∈ children, p.2 = .string s }

variable {uid key : String} {keys : List String} {entries : List (String × Json)} {user : Json}

theorem createConvo_eq (hkey : key ≠ "") (hkeys : getConvoKeys (some uid) user = some keys) :
    createConvo uid user key = some (createConvoWrite key keys user) := by
  rw [createConvo, createConvoRead, if_pos hkey, hkeys]
  rfl

/-! ## An ordered set -/

/-- The elements of the array that is stored. -/
def storedCount (user : Json) : ℕ := (conversations user).length

theorem childEntries_array_string (keys : List String) :
    (Json.array (keys.map .string)).childEntries =
      keys.zipIdx.map fun p => (toString p.2, Json.string p.1) := by
  rw [Json.childEntries, List.zipIdx_map, List.filterMap_map, ← List.filterMap_eq_map]
  exact List.filterMap_congr fun p _ => rfl

/-- What the write leaves there. -/
theorem conversations_createConvoWrite (key : String) (keys : List String) (user : Json) :
    conversations (createConvoWrite key keys user) =
      (keys ++ [key]).zipIdx.map fun p => (toString p.2, Json.string p.1) := by
  obtain ⟨entries, hentries, hlookup⟩ := user.lookup_settingChild "conversations"
    (.array ((keys ++ [key]).map .string))
  rw [createConvoWrite, hentries, conversations, Json.childEntries, hlookup,
    ← childEntries_array_string]

theorem storedCount_createConvoWrite (key : String) (keys : List String) (user : Json) :
    storedCount (createConvoWrite key keys user) = keys.length + 1 := by
  rw [storedCount, conversations_createConvoWrite, List.length_map, List.length_zipIdx,
    List.length_append, List.length_singleton]

theorem mem_storedStrings_createConvoWrite {s : String} :
    s ∈ storedStrings (conversations (createConvoWrite key keys user)) ↔ s ∈ keys ∨ s = key := by
  have hmem : s ∈ (keys ++ [key]).zipIdx.map Prod.fst ↔ s ∈ keys ∨ s = key := by
    rw [List.zipIdx_map_fst, List.mem_append, List.mem_singleton]
  rw [conversations_createConvoWrite, ← hmem, storedStrings, Set.mem_ofPred_eq]
  refine ⟨?_, fun h => ?_⟩
  · rintro ⟨p, hp, hs⟩
    obtain ⟨q, hq, rfl⟩ := List.mem_map.mp hp
    exact List.mem_map.mpr ⟨q, hq, Json.string.inj hs⟩
  · obtain ⟨q, hq, rfl⟩ := List.mem_map.mp h
    exact ⟨_, List.mem_map_of_mem hq, rfl⟩

/-- A user who has not joined anything. -/
theorem getConvoKeys_of_lookup_eq_none (h : entries.lookup "conversations" = none) :
    getConvoKeys (some uid) (.dictionary entries) = some [] := by
  simp [getConvoKeys, Json.snapshotExists, h]

theorem storedCount_of_lookup_eq_none (h : entries.lookup "conversations" = none) :
    storedCount (.dictionary entries) = 0 := by
  rw [storedCount, conversations, Json.childEntries, h]
  rfl

/-- What calls for the keys `hist`, one after the other, make of a user who had joined
nothing. -/
structure Joined (uid : String) (hist : List String) (user : Json) : Prop where
  delivered : getConvoKeys (some uid) user = some (uniqued hist)
  stored : storedCount user ≤ (uniqued hist).length + 1

/-- One more call. -/
theorem Joined.createConvo {hist : List String} (h : Joined uid hist user) (hkey : key ≠ "") :
    ∃ user', Backend.createConvo uid user key = some user' ∧ Joined uid (hist ++ [key]) user' := by
  refine ⟨_, createConvo_eq hkey h.delivered, ?_, ?_⟩
  · rw [getConvoKeys_createConvoWrite, uniqued_uniqued_concat]
  · have hle : (uniqued hist).length ≤ (uniqued (hist ++ [key])).length := by
      rw [uniqued_concat]
      split
      · exact le_rfl
      · simp
    rw [storedCount_createConvoWrite]
    omega

/-! ## Whatever is stored -/

/-- The value of the user's node has `conversations` with these children, as the library
hands them over. -/
def HandsOver (entries children : List (String × Json)) : Prop :=
  entries.lookup "conversations" = if children = [] then none else some (.ofChildren children)

variable {children : List (String × Json)}

/-- Of a node with dense keys, every string is read. -/
theorem mem_of_denseKeys (h : HandsOver entries children) (hnd : (children.map Prod.fst).Nodup)
    (hdense : Json.DenseKeys children)
    (hkeys : getConvoKeys (some uid) (.dictionary entries) = some keys) {s : String}
    (hs : s ∈ storedStrings children) : s ∈ keys := by
  obtain ⟨p, hp, hps⟩ := hs
  obtain ⟨elements, hofChildren, hmem⟩ := Json.mem_array_of_denseKeys hnd hdense hp
  rw [HandsOver, if_neg (List.ne_nil_of_mem hp), hofChildren] at h
  simp only [getConvoKeys, Json.snapshotExists, Json.asDictionary?_dictionary, h,
    Option.bind_eq_bind, Option.bind_some, if_true, Json.asArray?_array] at hkeys
  rw [← Option.some.inj hkeys, mem_uniqued]
  exact List.mem_filterMap.mpr ⟨p.2, hmem, by rw [hps]; rfl⟩

/-- Of any other, none. -/
theorem eq_nil_of_not_denseKeys (h : HandsOver entries children)
    (hdense : ¬ Json.DenseKeys children)
    (hkeys : getConvoKeys (some uid) (.dictionary entries) = some keys) : keys = [] := by
  have hne : children ≠ [] := by
    rintro rfl
    exact hdense fun p hp => absurd hp List.not_mem_nil
  rw [HandsOver, if_neg hne, Json.ofChildren_of_not_denseKeys hdense] at h
  simp only [getConvoKeys, Json.snapshotExists, Json.asDictionary?_dictionary, h,
    Option.bind_eq_bind, Option.bind_some, if_true, Json.asArray?] at hkeys
  exact (Option.some.inj hkeys).symm

end Backend

/-- **The joined conversations are an ordered set.** From a user who has joined nothing,
calls of `createConvo` for non-empty keys, each coming to an end before the next starts,
all succeed. Then `getConvoKeys` delivers exactly the distinct keys, each of them once,
in the order in which they were first joined; and at every point the stored array has at
most one element more than keys have been joined. -/
theorem joinedKeys {uid : String} {entries : List (String × Json)}
    (huser : entries.lookup "conversations" = none) {ks : List String} (hks : ∀ k ∈ ks, k ≠ "") :
    (∃ user keys, Runs.run (Backend.createConvo uid) (.dictionary entries) ks = some user ∧
      Backend.getConvoKeys (some uid) user = some keys ∧ keys.Nodup ∧ (∀ k, k ∈ keys ↔ k ∈ ks) ∧
      keys.Pairwise fun k l => ks.idxOf k < ks.idxOf l) ∧
    ∀ hist user, hist <+: ks → Runs.run (Backend.createConvo uid) (.dictionary entries) hist =
      some user → Backend.storedCount user ≤ hist.toFinset.card + 1 := by
  have hstart : Backend.Joined uid [] (.dictionary entries) :=
    ⟨Backend.getConvoKeys_of_lookup_eq_none huser,
      by rw [Backend.storedCount_of_lookup_eq_none huser]; exact Nat.zero_le _⟩
  have hjoined := Runs.run_induction (Backend.Joined uid) (fun hist => ∀ k ∈ hist, k ≠ "")
    (fun hist k hok l hl => hok l (List.mem_append_left _ hl)) hstart
    fun hist user k h hok => h.createConvo (hok k (by simp))
  refine ⟨?_, fun hist user hpre huser' => ?_⟩
  · obtain ⟨user, hrun, h⟩ := hjoined ks hks
    exact ⟨user, uniqued ks, hrun, h.delivered, nodup_uniqued ks, fun k => mem_uniqued,
      pairwise_idxOf_uniqued ks⟩
  · obtain ⟨user'', hrun, h⟩ := hjoined hist fun k hk => hks k (hpre.subset hk)
    obtain rfl := Option.some.inj (huser'.symm.trans hrun)
    rw [← length_uniqued]
    exact h.stored

theorem joinedKeys_twice :
    (∃ user keys, Runs.run (Backend.createConvo "u") (.dictionary [("username", .string "User")])
        ["k", "l", "k"] = some user ∧
      Backend.getConvoKeys (some "u") user = some keys ∧ keys.Nodup ∧
      (∀ k, k ∈ keys ↔ k ∈ ["k", "l", "k"]) ∧
      keys.Pairwise fun k l => ["k", "l", "k"].idxOf k < ["k", "l", "k"].idxOf l) ∧
    ∀ hist user, hist <+: ["k", "l", "k"] → Runs.run (Backend.createConvo "u")
        (.dictionary [("username", .string "User")]) hist = some user →
      Backend.storedCount user ≤ hist.toFinset.card + 1 :=
  joinedKeys (by decide) (by decide)

/-- **Joining drops what is not handed over as an array.** Whatever children
`conversations` has, if `createConvo` writes, then every string stored there before is
still stored, together with the key, if and only if all keys of the node are integers,
the largest of them below twice their number, or else no string but the key itself is
stored. -/
theorem createConvo_keepsStrings_iff {uid key : String} {children entries : List (String × Json)}
    {keys : List String} (hnd : (children.map Prod.fst).Nodup)
    (huser : Backend.HandsOver entries children)
    (hread : Backend.createConvoRead (some uid) key (.dictionary entries) = some keys) :
    (∀ s, s ∈ Backend.storedStrings children ∨ s = key →
      s ∈ Backend.storedStrings (Backend.conversations
        (Backend.createConvoWrite key keys (.dictionary entries)))) ↔
      Json.DenseKeys children ∨ ∀ s ∈ Backend.storedStrings children, s = key := by
  rw [Backend.createConvoRead] at hread
  split at hread
  · simp only [Backend.mem_storedStrings_createConvoWrite]
    by_cases hdense : Json.DenseKeys children
    · refine iff_of_true (fun s hs => hs.imp_left fun hs => ?_) (Or.inl hdense)
      exact Backend.mem_of_denseKeys huser hnd hdense hread hs
    · rw [Backend.eq_nil_of_not_denseKeys huser hdense hread, or_iff_right hdense]
      refine ⟨fun h s hs => ?_, fun h s hs => Or.inr ?_⟩
      · exact (h s (Or.inl hs)).resolve_left List.not_mem_nil
      · exact hs.elim (h s) id
  · cases hread

/-- One key, stored as the child `4`. -/
def sparse : List (String × Json) := [(toString 4, .string "k")]

theorem not_denseKeys_sparse : ¬ Json.DenseKeys sparse := by
  intro h
  obtain ⟨i, hi, heq⟩ := h _ (List.mem_singleton_self _)
  obtain rfl := Nat.repr_injective heq
  exact absurd hi (by decide)

theorem handsOver_sparse : Backend.HandsOver [("conversations", .ofChildren sparse)] sparse := by
  have hne : sparse ≠ [] := List.cons_ne_nil _ _
  rw [Backend.HandsOver, if_neg hne, List.lookup_cons_self]

theorem createConvoRead_sparse : Backend.createConvoRead (some "u") "l"
    (.dictionary [("conversations", .ofChildren sparse)]) = some [] := by
  rw [Json.ofChildren_of_not_denseKeys not_denseKeys_sparse]
  rfl

theorem createConvo_keepsStrings_iff_sparse :
    ∃ keys, Backend.createConvoRead (some "u") "l"
        (.dictionary [("conversations", .ofChildren sparse)]) = some keys ∧
      ((∀ s, s ∈ Backend.storedStrings sparse ∨ s = "l" →
        s ∈ Backend.storedStrings (Backend.conversations (Backend.createConvoWrite "l" keys
          (.dictionary [("conversations", .ofChildren sparse)])))) ↔
        Json.DenseKeys sparse ∨ ∀ s ∈ Backend.storedStrings sparse, s = "l") :=
  ⟨[], createConvoRead_sparse,
    createConvo_keepsStrings_iff (by decide) handsOver_sparse createConvoRead_sparse⟩

/-- It is lost when the next channel is joined. -/
theorem not_createConvo_keepsStrings :
    ¬ ∀ (uid key : String) (children entries : List (String × Json)) (keys : List String),
      (children.map Prod.fst).Nodup → Backend.HandsOver entries children →
      Backend.createConvoRead (some uid) key (.dictionary entries) = some keys →
      ∀ s, s ∈ Backend.storedStrings children ∨ s = key →
        s ∈ Backend.storedStrings (Backend.conversations
          (Backend.createConvoWrite key keys (.dictionary entries))) := by
  intro hall
  have hstored : "k" ∈ Backend.storedStrings sparse := ⟨_, List.mem_singleton_self _, rfl⟩
  have hkept := hall "u" "l" sparse _ [] (by decide) handsOver_sparse createConvoRead_sparse "k"
    (Or.inl hstored)
  rw [Backend.mem_storedStrings_createConvoWrite] at hkept
  exact absurd hkept (by decide)

end MoonMessenger
