import MoonMessenger.JoinedConvos
import MoonMessenger.Snapshot

/-!
# The conversation list

A key typed into `JoinChannelViewController` is stored if it is long enough;
`ConvoBuilder.getData` takes it for a UUID, and makes one up where it is none. Keys are
told apart as strings, conversations by their UUIDs.

* `namesOneConversation_iff` — a key leads every device to one conversation exactly when
  it is a UUID;
* `refresh_iff_keysApart` — refreshing the list never violates the snapshot's
  precondition exactly when no two keys of a delivery are one UUID.
-/

namespace MoonMessenger

/-- The handler of the Continue button: the key it calls `createConvo` with. The number of
characters a string has is that of its grapheme clusters, `count`; `uuid` is the value
of `UUID()`. -/
def continueButton (count : String → ℕ) (uuid : UUID) (text : Option String) : Option String :=
  let result := (text.map trimmingWhitespace).getD ""
  if count result ≥ count uuid.uuidString then some result else none

/-- A conversation, as the list shows it. Its image is a placeholder. -/
structure ConvoItem where
  id : UUID
  username : String
  lastMessageDate : Date
  lastMessageText : String

namespace ConvoItem

instance : BEq ConvoItem := ⟨fun lhs rhs => lhs.id == rhs.id⟩

theorem beq_eq_false {a b : ConvoItem} : (a == b) = false ↔ a.id ≠ b.id :=
  beq_eq_false_iff_ne (a := a.id) (b := b.id)

instance : EquivBEq ConvoItem where
  rfl := beq_iff_eq (α := UUID).mpr rfl
  symm h := beq_iff_eq (α := UUID).mpr (beq_iff_eq (α := UUID).mp h).symm
  trans h₁ h₂ := beq_iff_eq (α := UUID).mpr
    ((beq_iff_eq (α := UUID).mp h₁).trans (beq_iff_eq (α := UUID).mp h₂))

/-- The node that `getMessages(id: convo.id.uuidString)` observes. -/
def path (convo : ConvoItem) : String := "conversations/" ++ convo.id.uuidString

theorem path_eq_path {a b : ConvoItem} : a.path = b.path ↔ a.id = b.id := by
  refine ⟨fun h => UUID.uuidString_injective ?_, fun h => by rw [path, path, h]⟩
  have hlist := congrArg String.toList h
  rw [path, path, String.toList_append, String.toList_append, List.append_cancel_left_eq] at hlist
  exact String.toList_injective hlist

end ConvoItem

namespace ConvoBuilder

/-- What the library calls made for one item returned. -/
structure Calls where
  /-- `UUID()`, where the key is not a UUID -/
  fallback : UUID
  /-- `Date()` -/
  now : Date

/-- The item for a key. -/
def item (calls : Calls) (key : String) : ConvoItem where
  id := (UUID.ofString? key).getD calls.fallback
  username := ""
  lastMessageDate := calls.now
  lastMessageText := ""

/-- The keys in the order of the list. -/
def sortedKeys (keys : List String) : List String := sorted (fun a b => a < b) keys

/-- The items for the keys of the list. -/
def items (calls : ℕ → Calls) (keys : List String) : List ConvoItem :=
  keys.mapIdx fun i key => item (calls i) key

/-- What `getData` passes to its completion when `getData` of the database delivers the
value `user` of the user's node. -/
def getData (currentUser : Option String) (user : Json) (calls : ℕ → Calls) :
    Option (List ConvoItem) := do
  let keys ← Backend.getConvoKeys currentUser user
  return items calls (sortedKeys keys)

end ConvoBuilder

/-- One refresh of the list on one device: who is signed in, the value of the user's node
it finds, and what its library calls return. -/
structure Refresh where
  uid : String
  user : Json
  calls : ℕ → ConvoBuilder.Calls

namespace Refresh

/-- The keys delivered. -/
def keys (r : Refresh) : Option (List String) := Backend.getConvoKeys (some r.uid) r.user

/-- The refresh makes `item` of the key. -/
def Displays (r : Refresh) (key : String) (item : ConvoItem) : Prop :=
  ∃ keys items, r.keys = some keys ∧ ConvoBuilder.getData (some r.uid) r.user r.calls = some items ∧
    ∃ i : ℕ, (ConvoBuilder.sortedKeys keys)[i]? = some key ∧ items[i]? = some item

/-- The calls of `UUID()` of two refreshes return different values. -/
def Independent (r r' : Refresh) : Prop :=
  ∀ keys keys', r.keys = some keys → r'.keys = some keys' →
    ∀ i < keys.length, ∀ j < keys'.length, (r.calls i).fallback ≠ (r'.calls j).fallback

theorem getData_eq {r : Refresh} {keys : List String} (hkeys : r.keys = some keys) :
    ConvoBuilder.getData (some r.uid) r.user r.calls =
      some (ConvoBuilder.items r.calls (ConvoBuilder.sortedKeys keys)) := by
  rw [Refresh.keys] at hkeys
  rw [ConvoBuilder.getData, hkeys]
  rfl

theorem Displays.exists_eq_item {r : Refresh} {key : String} {item : ConvoItem}
    (h : r.Displays key item) : ∃ i, item = ConvoBuilder.item (r.calls i) key := by
  obtain ⟨keys, items, hkeys, hitems, i, hkey, hitem⟩ := h
  obtain rfl := Option.some.inj (hitems.symm.trans (getData_eq hkeys))
  rw [ConvoBuilder.items, List.getElem?_mapIdx, hkey] at hitem
  exact ⟨i, (Option.some.inj hitem).symm⟩

/-- A refresh of a node that stores one key. -/
def ofKey (key : String) (fallback : UUID) : Refresh where
  uid := "u"
  user := .dictionary [("conversations", .array [.string key])]
  calls _ := ⟨fallback, ⟨0⟩⟩

theorem displays_ofKey (key : String) (fallback : UUID) :
    (ofKey key fallback).Displays key (ConvoBuilder.item ⟨fallback, ⟨0⟩⟩ key) :=
  ⟨[key], _, rfl, rfl, 0, rfl, rfl⟩

end Refresh

/-! ## One key, one conversation -/

/-- The key leads to one conversation: every refresh makes an item with the same id of it,
and so does, on any device, the private key shown for such an item. -/
structure NamesOneConversation (count : String → ℕ) (key : String) : Prop where
  refreshes : ∀ r r' : Refresh, r.Independent r' → ∀ item item', r.Displays key item →
    r'.Displays key item' → item.id = item'.id ∧ item.path = item'.path
  privateKey : ∀ r r' : Refresh, r.Independent r' → ∀ item, r.Displays key item →
    ∀ uuid key', continueButton count uuid (some item.id.uuidString) = some key' →
    ∀ item', r'.Displays key' item' → item'.path = item.path

theorem isWhitespaceOrNewline_hexDigit (d : Fin 16) :
    isWhitespaceOrNewline (UUID.hexDigit d) = false := by
  revert d
  decide

theorem forall_mem_hyphenate {P : Char → Prop} (hhyphen : P '-') (ns : List ℕ) {cs : List Char}
    (hcs : ∀ c ∈ cs, P c) : ∀ c ∈ UUID.hyphenate ns cs, P c := by
  induction ns generalizing cs with
  | nil => exact hcs
  | cons n ns ih =>
    intro c hc
    rw [UUID.hyphenate] at hc
    rcases List.mem_append.mp hc with hc | hc
    · exact hcs c (List.mem_of_mem_take hc)
    · rcases List.mem_cons.mp hc with rfl | hc
      · exact hhyphen
      · exact ih (fun c hc => hcs c (List.mem_of_mem_drop hc)) c hc

/-- There is nothing to trim on a printed UUID. -/
theorem trimmingWhitespace_uuidString (u : UUID) :
    trimmingWhitespace u.uuidString = u.uuidString := by
  have hchars : ∀ c ∈ u.uuidString.toList, ¬ isWhitespaceOrNewline c = true := by
    rw [UUID.uuidString, String.toList_ofList]
    refine forall_mem_hyphenate (by decide) _ fun c hc => ?_
    obtain ⟨d, -, rfl⟩ := List.mem_map.mp hc
    rw [isWhitespaceOrNewline_hexDigit]
    exact Bool.false_ne_true
  have hdrop : u.uuidString.toList.dropWhile isWhitespaceOrNewline = u.uuidString.toList := by
    cases h : u.uuidString.toList with
    | nil => rfl
    | cons c cs => exact List.dropWhile_cons_of_neg (hchars c (h ▸ List.mem_cons_self ..))
  have hrdrop : u.uuidString.toList.rdropWhile isWhitespaceOrNewline = u.uuidString.toList := by
    rw [List.rdropWhile_eq_self_iff]
    exact fun hne => hchars _ (List.getLast_mem hne)
  rw [trimmingWhitespace, hdrop, hrdrop, String.ofList_toList]

/-- A key that is no UUID leads to as many conversations as there are refreshes. -/
theorem NamesOneConversation.isSome {count : String → ℕ} {key : String}
    (h : NamesOneConversation count key) : (UUID.ofString? key).isSome := by
  by_contra hnone
  rw [Option.not_isSome_iff_eq_none] at hnone
  have hindependent :
      (Refresh.ofKey key (.replicate 0)).Independent (.ofKey key (.replicate 1)) := by
    intro keys keys' _ _ i _ j _ heq
    have heq' : UUID.replicate 0 = UUID.replicate 1 := heq
    exact absurd heq' (by decide)
  obtain ⟨hid, -⟩ := h.refreshes _ _ hindependent _ _ (Refresh.displays_ofKey key (.replicate 0))
    (Refresh.displays_ofKey key (.replicate 1))
  rw [ConvoBuilder.item, ConvoBuilder.item, hnone] at hid
  exact absurd hid (by decide)

/-- **A key names one conversation exactly if it is a UUID**, whether or not it is one
that the Continue button accepts. -/
theorem namesOneConversation_iff (count : String → ℕ) (key : String) :
    NamesOneConversation count key ↔ (UUID.ofString? key).isSome := by
  refine ⟨NamesOneConversation.isSome, fun hsome => ?_⟩
  obtain ⟨u, hu⟩ := Option.isSome_iff_exists.mp hsome
  have hid {key' : String} (hkey' : UUID.ofString? key' = some u) {r : Refresh} {item : ConvoItem}
      (hitem : r.Displays key' item) : item.id = u := by
    obtain ⟨i, rfl⟩ := hitem.exists_eq_item
    rw [ConvoBuilder.item, hkey']
    rfl
  refine ⟨fun r r' _ item item' hitem hitem' => ?_,
    fun r r' _ item hitem uuid key' hkey' item' hitem' => ?_⟩
  · have heq : item.id = item'.id := (hid hu hitem).trans (hid hu hitem').symm
    exact ⟨heq, ConvoItem.path_eq_path.mpr heq⟩
  · -- the button passes the printed UUID on as it is
    have hprinted : key' = u.uuidString := by
      rw [continueButton, Option.map_some, Option.getD_some, hid hu hitem,
        trimmingWhitespace_uuidString] at hkey'
      split at hkey'
      · exact (Option.some.inj hkey').symm
      · cases hkey'
    subst hprinted
    rw [ConvoItem.path_eq_path, hid hu hitem, hid (UUID.ofString?_uuidString u) hitem']

/-- Long enough, but no UUID. -/
def longKey : String := String.ofList (List.replicate 36 'x')

/-- The button accepts a key that names no conversation. -/
theorem not_namesOneConversation_longKey :
    continueButton String.length (.replicate 0) (some longKey) = some longKey ∧
      ¬ NamesOneConversation String.length longKey := by
  refine ⟨by decide +kernel, fun h => ?_⟩
  have hsome := h.isSome
  have hnone : UUID.ofString? longKey = none := by decide +kernel
  rw [hnone] at hsome
  cases hsome

/-! ## Refreshing the list -/

namespace ConvoList

/-- Empty the snapshot down to the section 0. -/
def emptied (snap : Snapshot ℕ ConvoItem) : Option (Snapshot ℕ ConvoItem) :=
  let snap := if snap.itemIdentifiers.length > 0 then snap.deleteAllItems else snap
  if snap.sectionIdentifiers.length = 0 then snap.appendSections [0] else some snap

/-- `refresh`. Where `getData` does not call its completion, nothing happens; `none` is the
exception raised for an identifier that is not new. -/
def refresh (snap : Snapshot ℕ ConvoItem) (r : Refresh) : Option (Snapshot ℕ ConvoItem) :=
  match ConvoBuilder.getData (some r.uid) r.user r.calls with
  | some items => do
    let snap ← emptied snap
    snap.appendItems items none
  | none => some snap

end ConvoList

namespace Refresh

/-- The snapshot is the section 0 with one item for each key delivered, in the order of
the keys. -/
def Shown (r : Refresh) (snap : Snapshot ℕ ConvoItem) : Prop :=
  ∀ keys, r.keys = some keys → ∃ sortedKeys : List String, sortedKeys.Perm keys ∧
    sortedKeys.Pairwise (· ≤ ·) ∧ snap.sections = [(0, ConvoBuilder.items r.calls sortedKeys)]

/-- No two keys delivered are one UUID. -/
def KeysApart (r : Refresh) : Prop :=
  ∀ keys, r.keys = some keys → ∀ key ∈ keys, ∀ key' ∈ keys, ∀ u,
    UUID.ofString? key = some u → UUID.ofString? key' = some u → key = key'

/-- The calls of `UUID()` return values that are new: none twice, and none that is a key
already. -/
structure Fresh (r : Refresh) : Prop where
  distinct : ∀ keys, r.keys = some keys → ∀ i < keys.length, ∀ j < keys.length,
    (r.calls i).fallback = (r.calls j).fallback → i = j
  new : ∀ keys, r.keys = some keys → ∀ i < keys.length, ∀ key ∈ keys,
    UUID.ofString? key ≠ some (r.calls i).fallback

end Refresh

namespace ConvoBuilder

theorem perm_sortedKeys (keys : List String) : (sortedKeys keys).Perm keys := perm_sorted _ keys

theorem pairwise_sortedKeys (keys : List String) : (sortedKeys keys).Pairwise (· ≤ ·) := by
  have h := sorted_eq_sortOn (fun key : String => key) keys
  rw [sortedKeys, h]
  exact StableSort.pairwise_sortOn _ keys

/-- Two optionals with fresh defaults agree only in a value of their own. -/
theorem exists_eq_some_of_getD_eq_getD {o o' : Option UUID} {x y : UUID}
    (h : o.getD x = o'.getD y) (hxy : x ≠ y) (hy : o ≠ some y) (hx : o' ≠ some x) :
    ∃ u, o = some u ∧ o' = some u := by
  cases o with
  | none =>
    cases o' with
    | none => exact absurd h hxy
    | some v => exact absurd (congrArg some h.symm) hx
  | some u =>
    cases o' with
    | none => exact absurd (congrArg some h) hy
    | some v => exact ⟨u, rfl, congrArg some h.symm⟩

/-- Items are distinct exactly when no two keys are one UUID. -/
theorem pairwise_items_iff {calls : ℕ → Calls} {keys : List String} (hnd : keys.Nodup)
    (hdistinct : ∀ i < keys.length, ∀ j < keys.length,
      (calls i).fallback = (calls j).fallback → i = j)
    (hnew : ∀ i < keys.length, ∀ key ∈ keys, UUID.ofString? key ≠ some (calls i).fallback) :
    (items calls keys).Pairwise Distinct ↔ ∀ key ∈ keys, ∀ key' ∈ keys, ∀ u,
      UUID.ofString? key = some u → UUID.ofString? key' = some u → key = key' := by
  have hid (i : ℕ) (hi : i < (items calls keys).length) (hi' : i < keys.length) :
      (items calls keys)[i].id = (UUID.ofString? keys[i]).getD (calls i).fallback := by
    simp only [items, List.getElem_mapIdx]
    rfl
  have hlen : (items calls keys).length = keys.length := List.length_mapIdx
  rw [List.pairwise_iff_getElem]
  refine ⟨fun h key hkey key' hkey' u hu hu' => ?_, fun h i j hi hj hij => ?_⟩
  · -- two keys in two places give two items with one id
    obtain ⟨i, hi, rfl⟩ := List.getElem_of_mem hkey
    obtain ⟨j, hj, rfl⟩ := List.getElem_of_mem hkey'
    have hsame : (items calls keys)[i].id = (items calls keys)[j].id := by
      rw [hid i _ hi, hid j _ hj, hu, hu']
      rfl
    rcases Nat.lt_trichotomy i j with hij | rfl | hij
    · exact absurd hsame (ConvoItem.beq_eq_false.mp (h i j (by omega) (by omega) hij))
    · rfl
    · exact absurd hsame.symm (ConvoItem.beq_eq_false.mp (h j i (by omega) (by omega) hij))
  · rw [hlen] at hi hj
    rw [Distinct, ConvoItem.beq_eq_false, hid i _ hi, hid j _ hj]
    intro hsame
    have hkeys : keys[i] ≠ keys[j] := fun heq =>
      Nat.ne_of_lt hij ((List.Nodup.getElem_inj_iff hnd).mp heq)
    obtain ⟨u, hu, hu'⟩ := exists_eq_some_of_getD_eq_getD hsame
      (fun heq => Nat.ne_of_lt hij (hdistinct i hi j hj heq)) (hnew j hj _ (List.getElem_mem hi))
      (hnew i hi _ (List.getElem_mem hj))
    exact hkeys (h _ (List.getElem_mem hi) _ (List.getElem_mem hj) u hu hu')

end ConvoBuilder

namespace ConvoList

variable {snap : Snapshot ℕ ConvoItem} {r : Refresh}

/-- What `refresh` leaves behind: nothing yet, or the section 0. -/
def OnlySection (snap : Snapshot ℕ ConvoItem) : Prop :=
  snap.sections = [] ∨ ∃ items, snap.sections = [(0, items)]

theorem exists_emptied (h : OnlySection snap) :
    ∃ snap', emptied snap = some snap' ∧ snap'.sections = [(0, [])] := by
  have happend {snap₀ : Snapshot ℕ ConvoItem} (h₀ : snap₀.sections = []) :
      ∃ snap', snap₀.appendSections [0] = some snap' ∧ snap'.sections = [(0, [])] := by
    have hnew : (snap₀.sectionIdentifiers ++ [0]).Nodup := by
      simp [Snapshot.sectionIdentifiers, h₀]
    obtain ⟨snap', hsnap', hs⟩ := Snapshot.appendSections_eq_some hnew
    exact ⟨snap', hsnap', by rw [hs, h₀]; rfl⟩
  rcases h with hnil | ⟨items, hitems⟩
  · obtain ⟨snap', hsnap', hs⟩ := happend hnil
    exact ⟨snap', by simpa [emptied, Snapshot.itemIdentifiers, Snapshot.sectionIdentifiers, hnil]
      using hsnap', hs⟩
  · cases items with
    | nil =>
      exact ⟨snap, by simp [emptied, Snapshot.itemIdentifiers, Snapshot.sectionIdentifiers, hitems],
        hitems⟩
    | cons item items =>
      obtain ⟨snap', hsnap', hs⟩ := happend snap.sections_deleteAllItems
      refine ⟨snap', ?_, hs⟩
      simpa [emptied, Snapshot.itemIdentifiers, Snapshot.sectionIdentifiers, hitems] using hsnap'

/-- Where no keys are delivered, nothing happens. -/
theorem refresh_of_keys_eq_none (hkeys : r.keys = none) : refresh snap r = some snap := by
  have hnone : ConvoBuilder.getData (some r.uid) r.user r.calls = none := by
    rw [Refresh.keys] at hkeys
    rw [ConvoBuilder.getData, hkeys]
    rfl
  rw [refresh, hnone]

/-- Otherwise the items for the keys are appended to the section 0, emptied. -/
theorem exists_refresh_eq (h : OnlySection snap) {keys : List String} (hkeys : r.keys = some keys) :
    ∃ snap₀ : Snapshot ℕ ConvoItem, snap₀.sections = [(0, [])] ∧ refresh snap r =
      snap₀.appendItems (ConvoBuilder.items r.calls (ConvoBuilder.sortedKeys keys)) none := by
  obtain ⟨snap₀, hsnap₀, hs₀⟩ := exists_emptied h
  refine ⟨snap₀, hs₀, ?_⟩
  rw [refresh, Refresh.getData_eq hkeys]
  change (emptied snap).bind _ = _
  rw [hsnap₀]
  rfl

/-- The items for the keys delivered are distinct exactly when no two keys are one
UUID. -/
theorem pairwise_items_sortedKeys_iff {keys : List String} (hkeys : r.keys = some keys)
    (hfresh : r.Fresh) :
    (ConvoBuilder.items r.calls (ConvoBuilder.sortedKeys keys)).Pairwise Distinct ↔
      r.KeysApart := by
  have hperm := ConvoBuilder.perm_sortedKeys keys
  have hlen : (ConvoBuilder.sortedKeys keys).length = keys.length := hperm.length_eq
  rw [ConvoBuilder.pairwise_items_iff
    (hperm.nodup_iff.mpr (Backend.nodup_of_getConvoKeys hkeys))
    (fun i hi j hj => hfresh.distinct keys hkeys i (hlen ▸ hi) j (hlen ▸ hj))
    (fun i hi key hkey => hfresh.new keys hkeys i (hlen ▸ hi) key (hperm.mem_iff.mp hkey))]
  refine ⟨fun h keys' hkeys' key hkey key' hkey' => ?_, fun h key hkey key' hkey' => ?_⟩
  · obtain rfl := Option.some.inj (hkeys.symm.trans hkeys')
    exact h key (hperm.mem_iff.mpr hkey) key' (hperm.mem_iff.mpr hkey')
  · exact h keys hkeys key (hperm.mem_iff.mp hkey) key' (hperm.mem_iff.mp hkey')

/-- Distinct items are shown. -/
theorem exists_refresh_of_pairwise (h : OnlySection snap) {keys : List String}
    (hkeys : r.keys = some keys)
    (hd : (ConvoBuilder.items r.calls (ConvoBuilder.sortedKeys keys)).Pairwise Distinct) :
    ∃ snap', refresh snap r = some snap' ∧
      snap'.sections = [(0, ConvoBuilder.items r.calls (ConvoBuilder.sortedKeys keys))] := by
  obtain ⟨snap₀, hs₀, hrefresh⟩ := exists_refresh_eq h hkeys
  have hnone : snap₀.itemIdentifiers = [] := by simp [Snapshot.itemIdentifiers, hs₀]
  have hlast : snap₀.sections = [] ++ [(0, [])] := hs₀
  rw [hrefresh]
  exact Snapshot.appendItems_last hlast (by rwa [hnone, List.nil_append]) none
    (Snapshot.getLast?_sectionIdentifiers hlast)

/-- Only distinct items are. -/
theorem pairwise_of_refresh (h : OnlySection snap) {keys : List String}
    (hkeys : r.keys = some keys) {snap' : Snapshot ℕ ConvoItem}
    (hsnap' : refresh snap r = some snap') :
    (ConvoBuilder.items r.calls (ConvoBuilder.sortedKeys keys)).Pairwise Distinct := by
  obtain ⟨snap₀, hs₀, hrefresh⟩ := exists_refresh_eq h hkeys
  rw [hrefresh] at hsnap'
  simpa [Snapshot.itemIdentifiers, hs₀] using Snapshot.pairwise_of_appendItems hsnap'

/-- **One refresh.** It raises no exception exactly when no two keys are one UUID; then
the list shows the keys. -/
theorem refresh_iff (h : OnlySection snap) (hfresh : r.Fresh) :
    ((∃ snap', refresh snap r = some snap') ↔ r.KeysApart) ∧
      ∀ snap', refresh snap r = some snap' → OnlySection snap' ∧ r.Shown snap' := by
  cases hkeys : r.keys with
  | none =>
    have hsame : refresh snap r = some snap := refresh_of_keys_eq_none hkeys
    have hno {keys : List String} (hsome : r.keys = some keys) : False := by
      rw [hkeys] at hsome
      cases hsome
    refine ⟨iff_of_true ⟨snap, hsame⟩ fun keys hsome => (hno hsome).elim,
      fun snap' hsnap' => ⟨?_, fun keys hsome => (hno hsome).elim⟩⟩
    obtain rfl := Option.some.inj (hsame.symm.trans hsnap')
    exact h
  | some keys =>
    refine ⟨?_, fun snap' hsnap' => ?_⟩
    · rw [← pairwise_items_sortedKeys_iff hkeys hfresh]
      refine ⟨fun hsome => ?_, fun hd => ?_⟩
      · obtain ⟨snap', hsnap'⟩ := hsome
        exact pairwise_of_refresh h hkeys hsnap'
      · exact (exists_refresh_of_pairwise h hkeys hd).imp fun _ => And.left
    · obtain ⟨snap'', hsnap'', hs⟩ :=
        exists_refresh_of_pairwise h hkeys (pairwise_of_refresh h hkeys hsnap')
      obtain rfl := Option.some.inj (hsnap''.symm.trans hsnap')
      refine ⟨Or.inr ⟨_, hs⟩, fun keys' hkeys' => ?_⟩
      obtain rfl := Option.some.inj (hkeys.symm.trans hkeys')
      exact ⟨_, ConvoBuilder.perm_sortedKeys keys, ConvoBuilder.pairwise_sortedKeys keys, hs⟩

end ConvoList

/-- **The list is safe as long as keys are told apart by their UUIDs.** A sequence of
refreshes raises no exception, and shows after each of them one item for each key
delivered, in the order of the keys, if and only if in none of them two keys are one
UUID. -/
theorem refresh_iff_keysApart {rs : List Refresh} (hfresh : ∀ r ∈ rs, r.Fresh) :
    ((∃ snap, Runs.run ConvoList.refresh .empty rs = some snap) ∧
        Runs.Always ConvoList.refresh (fun _ _ r snap' => r.Shown snap') .empty rs) ↔
      ∀ r ∈ rs, r.KeysApart := by
  have hinit : ConvoList.OnlySection .empty := Or.inl rfl
  have hrun := Runs.exists_run_iff ConvoList.OnlySection rs
    (fun snap r hr hsnap => (ConvoList.refresh_iff hsnap (hfresh r hr)).1)
    (fun snap r hr snap' hsnap hsnap' =>
      ((ConvoList.refresh_iff hsnap (hfresh r hr)).2 snap' hsnap').1) hinit
  rw [← hrun]
  refine ⟨And.left, fun hsnap => ⟨hsnap, ?_⟩⟩
  have hapart := hrun.mp hsnap
  refine (Runs.run_always ConvoList.refresh .empty (fun _ snap => ConvoList.OnlySection snap)
    (fun hist => ∀ r ∈ hist, r ∈ rs) (fun _ _ r snap' => r.Shown snap')
    (fun hist r hok r' hr' => hok r' (List.mem_append_left _ hr'))
    hinit ?_ fun r hr => hr).2
  intro hist snap r hsnap hok
  have hr : r ∈ rs := hok r (by simp)
  obtain ⟨hiff, hafter⟩ := ConvoList.refresh_iff hsnap (hfresh r hr)
  obtain ⟨snap', hsnap'⟩ := hiff.mpr (hapart r hr)
  exact ⟨snap', hsnap', hafter snap' hsnap'⟩

/-- A UUID in both letter cases. -/
def bothCases : List String :=
  [UUID.uuidString (.replicate 10),
    String.ofList (UUID.hyphenate UUID.groups (List.replicate 32 'a'))]

/-- A refresh of a node that stores a UUID in both letter cases. -/
def refreshBothCases : Refresh where
  uid := "u"
  user := .dictionary [("conversations", .array (bothCases.map .string))]
  calls i := ⟨.replicate i, ⟨0⟩⟩

theorem keys_refreshBothCases : refreshBothCases.keys = some bothCases := by
  have hnd : bothCases.Nodup := by decide +kernel
  rw [Refresh.keys, refreshBothCases, Backend.getConvoKeys_array rfl, uniqued_of_nodup hnd]

/-- Both keys are one UUID. -/
theorem ofString?_bothCases : bothCases.map UUID.ofString? =
    [some (.replicate 10), some (.replicate 10)] := by
  decide +kernel

theorem fresh_refreshBothCases : refreshBothCases.Fresh := by
  have hkeys {keys : List String} (h : refreshBothCases.keys = some keys) : keys = bothCases :=
    Option.some.inj (h.symm.trans keys_refreshBothCases)
  have hdraws : ∀ i < 2, ∀ j < 2,
      UUID.replicate i = UUID.replicate j → i = j := by
    decide
  have hnew : ∀ i < 2, some (UUID.replicate i) ∉
      [some (UUID.replicate 10), some (UUID.replicate 10)] := by
    decide
  refine ⟨fun keys h i hi j hj heq => ?_, fun keys h i hi key hkey heq => ?_⟩
  · rw [hkeys h] at hi hj
    exact hdraws i hi j hj heq
  · rw [hkeys h] at hi hkey
    have hmem := List.mem_map_of_mem (f := UUID.ofString?) hkey
    rw [ofString?_bothCases, heq] at hmem
    exact hnew i hi hmem

theorem refresh_iff_keysApart_bothCases :
    ((∃ snap, Runs.run ConvoList.refresh .empty [refreshBothCases] = some snap) ∧
        Runs.Always ConvoList.refresh (fun _ _ r snap' => r.Shown snap') .empty
          [refreshBothCases]) ↔
      ∀ r ∈ [refreshBothCases], r.KeysApart :=
  refresh_iff_keysApart (by simpa using fresh_refreshBothCases)

/-- Both keys are accepted, and the list crashes. -/
theorem not_refresh_bothCases :
    (∀ key ∈ bothCases, continueButton String.length (.replicate 0) (some key) = some key) ∧
      refreshBothCases.keys = some bothCases ∧ refreshBothCases.Fresh ∧
      Runs.run ConvoList.refresh .empty [refreshBothCases] = none := by
  refine ⟨by decide +kernel, keys_refreshBothCases, fresh_refreshBothCases, ?_⟩
  cases hrun : Runs.run ConvoList.refresh .empty [refreshBothCases] with
  | none => rfl
  | some snap =>
    exfalso
    rw [Runs.run_cons] at hrun
    obtain ⟨snap', hsnap', -⟩ := Option.bind_eq_some_iff.mp hrun
    have hinit : ConvoList.OnlySection .empty := Or.inl rfl
    have hapart := (ConvoList.refresh_iff hinit fresh_refreshBothCases).1.mp ⟨snap', hsnap'⟩
    have hdecode := ofString?_bothCases
    rw [bothCases, List.map_cons, List.map_cons, List.map_nil, List.cons.injEq, List.cons.injEq]
      at hdecode
    have heq := hapart bothCases keys_refreshBothCases _ (List.mem_cons_self ..) _
      (List.mem_cons_of_mem _ (List.mem_cons_self ..)) _ hdecode.1 hdecode.2.1
    exact absurd heq (by decide +kernel)

end MoonMessenger
