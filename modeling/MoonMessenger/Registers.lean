import MoonMessenger.ConvoKeys
import MoonMessenger.ConvoName
import MoonMessenger.Decoding
import MoonMessenger.NodeValue

/-!
# What the app keeps in the database

The app writes four kinds of values into one tree: names and conversations of users, names
of conversations, and messages (`Database.swift`). Read as the app reads them, they are
registers that have nothing to do with each other.

* `database_registers` — whatever was written, every observer is told what its register
  holds.
-/

namespace MoonMessenger

/-- `child:`, of a reference to a path. -/
def FPath.child (path : FPath) (pathString : String) : FPath := path ++ initWith pathString

/-- A message as `sendMessage` writes it. -/
structure SentMessage where
  /-- the name by `childByAutoId` -/
  autoId : String
  user : String
  username : String
  date : Date
  messageId : UUID
  text : String

/-- The value that is set for it. -/
def SentMessage.record (id : String) (m : SentMessage) : Json :=
  (Backend.sendMessage (some m.user) m.username m.date m.messageId m.text id).getD .null

/-- The writes of the app. -/
inductive BackendWrite where
  | updateUsername (uid username : String)
  /-- the second half of `createConvo` -/
  | createConvo (uid : String) (res : List String)
  | sendMessage (id : String) (message : SentMessage)
  /-- also the one that `getConvoName` makes -/
  | setConvoName (id name : String)

namespace BackendWrite

open FPath

/-- The reference whose value is set. -/
def path : BackendWrite → FPath
  | updateUsername uid _ => ((child [] "users").child uid).child "username"
  | createConvo uid _ => ((child [] "users").child uid).child "conversations"
  | sendMessage id m => ((child [] "conversations").child id).child m.autoId
  | setConvoName id _ => child [] ("convoData" ++ "/" ++ id ++ "/" ++ "name")

/-- The value that it is set to. -/
def value : BackendWrite → Json
  | updateUsername _ username => .string username
  | createConvo _ res => .array (res.map .string)
  | sendMessage id m => m.record id
  | setConvoName _ name => .string name

/-- The name is none of a place in an array. -/
def NoIndex (name : String) : Prop := ∃ c ∈ name.toList, ¬ c.isDigit

/-- The ids of users, conversations and messages are keys, those of messages are no indices,
and at least one key is written. -/
def Valid : BackendWrite → Prop
  | updateUsername uid _ => IsPiece uid
  | createConvo uid res => IsPiece uid ∧ res ≠ []
  | sendMessage id m => IsPiece id ∧ IsPiece m.autoId ∧ NoIndex m.autoId
  | setConvoName id _ => IsPiece id

/-- The tree after a write. -/
def set (n : FNode) (w : BackendWrite) : FNode := n.updateChild w.path (.nodeFrom w.value)

/-- The tree that the writes make. -/
def database (ws : List BackendWrite) : FNode := ws.foldl set .emptyNode

end BackendWrite

/-- What is kept, by the ids of the users and of the conversations. -/
structure Registers where
  username : String → Option String
  conversations : String → Option (List String)
  convoName : String → Option String
  messages : String → SortedDictionary SentMessage

namespace Registers

/-- Nothing is kept. -/
def empty : Registers := ⟨fun _ => none, fun _ => none, fun _ => none, fun _ => []⟩

/-- A write changes one register. -/
def write (r : Registers) : BackendWrite → Registers
  | .updateUsername uid username =>
    { r with username := Function.update r.username uid (some username) }
  | .createConvo uid res =>
    { r with conversations := Function.update r.conversations uid (some res) }
  | .sendMessage id m =>
    { r with messages := Function.update r.messages id ((r.messages id).insertKey m.autoId m) }
  | .setConvoName id name => { r with convoName := Function.update r.convoName id (some name) }

/-- The node that a register is kept in, if it holds anything. -/
def node {α : Type} (toJson : α → Json) (a : Option α) : FNode :=
  (a.map fun a => FNode.nodeFrom (toJson a)).getD .emptyNode

/-- The node of a conversation with these messages. -/
def messagesNode (id : String) (messages : SortedDictionary SentMessage) : FNode :=
  .children (messages.map fun p => (p.1, .nodeFrom (p.2.record id)))

open BackendWrite in
/-- The tree holds the registers. -/
structure HeldBy (r : Registers) (n : FNode) : Prop where
  proper : n.Proper
  user : ∀ uid, FPath.IsPiece uid → ∃ cs, n.getChild ["users", uid] = .children cs ∧
    ∀ p ∈ cs, p.1 = "username" ∨ p.1 = "conversations"
  username : ∀ uid, FPath.IsPiece uid →
    n.getChild ["users", uid, "username"] = node .string (r.username uid)
  conversations : ∀ uid, FPath.IsPiece uid →
    n.getChild ["users", uid, "conversations"] =
      node (fun keys => .array (keys.map .string)) (r.conversations uid)
  convoName : ∀ id, FPath.IsPiece id →
    n.getChild ["convoData", id, "name"] = node .string (r.convoName id)
  messages : ∀ id, FPath.IsPiece id →
    n.getChild ["conversations", id] = messagesNode id (r.messages id)
  noIndex : ∀ id, ∀ p ∈ r.messages id, NoIndex p.1
  joined : ∀ uid, ∀ keys ∈ r.conversations uid, keys ≠ []

end Registers

/-! ## The values written -/

namespace BackendWrite

open FPath

section Paths

variable {uid id : String}

theorem child_nil_eq {s : String} (h : IsPiece s) : child [] s = [s] := initWith_of_isPiece h

theorem child_eq {path : FPath} {s : String} (h : IsPiece s) : child path s = path ++ [s] := by
  rw [child, initWith_of_isPiece h]

theorem path_updateUsername (username : String) (h : IsPiece uid) :
    (updateUsername uid username).path = ["users", uid, "username"] := by
  rw [path, child_nil_eq ⟨by decide, by decide⟩, child_eq h, child_eq ⟨by decide, by decide⟩]
  rfl

theorem path_createConvo (res : List String) (h : IsPiece uid) :
    (createConvo uid res).path = ["users", uid, "conversations"] := by
  rw [path, child_nil_eq ⟨by decide, by decide⟩, child_eq h, child_eq ⟨by decide, by decide⟩]
  rfl

theorem path_sendMessage {m : SentMessage} (h : IsPiece id) (hm : IsPiece m.autoId) :
    (sendMessage id m).path = ["conversations", id] ++ [m.autoId] := by
  rw [path, child_nil_eq ⟨by decide, by decide⟩, child_eq h, child_eq hm]
  rfl

theorem path_setConvoName (name : String) (h : IsPiece id) :
    (setConvoName id name).path = ["convoData", id, "name"] := by
  rw [path, child, initWith_append, initWith_append, initWith_of_isPiece ⟨by decide, by decide⟩,
    initWith_of_isPiece h, initWith_of_isPiece ⟨by decide, by decide⟩]
  rfl

end Paths

theorem stored_array_string {res : List String} (h : res ≠ []) :
    (Json.array (res.map .string)).Stored := by
  obtain ⟨init, last, rfl⟩ := (List.eq_nil_or_concat' res).resolve_left h
  refine .array (init.map .string) (.string last) (by simp) rfl ?_ ?_
  · have hall : ((init ++ [last]).map Json.string).filter Json.snapshotExists =
        (init ++ [last]).map Json.string := by
      refine List.filter_eq_self.mpr fun j hj => ?_
      obtain ⟨s, -, rfl⟩ := List.mem_map.mp hj
      rfl
    rw [hall]
    omega
  · rintro j hj -
    obtain ⟨s, -, rfl⟩ := List.mem_map.mp hj
    exact .string s

/-- A node with a key that has other characters than digits is no array. -/
theorem NoIndex.not_denseKeys {entries : List (String × Json)} {p : String × Json}
    (h : NoIndex p.1) (hp : p ∈ entries) : ¬ Json.DenseKeys entries := by
  intro hdense
  obtain ⟨c, hc, hdigit⟩ := h
  obtain ⟨i, -, hi⟩ := hdense p hp
  have hi' : p.1 = Nat.repr i := hi
  rw [hi', Nat.repr, String.toList_ofList] at hc
  exact hdigit (Nat.isDigit_of_mem_toDigits (by decide) (by decide) hc)

theorem stored_record (id : String) (m : SentMessage) : (m.record id).Stored := by
  have hid : NoIndex "id" := ⟨'i', by decide, by decide⟩
  refine .dictionary (by simp) (by simp) (NoIndex.not_denseKeys hid (List.mem_cons_self ..)) ?_
  intro p hp
  simp only [List.mem_cons, List.not_mem_nil, or_false] at hp
  rcases hp with rfl | rfl | rfl | rfl | rfl | rfl <;> constructor

variable {w : BackendWrite} {n : FNode} {path' : FPath}

theorem Valid.stored (h : w.Valid) : w.value.Stored := by
  cases w with
  | updateUsername uid username => exact .string username
  | createConvo uid res => exact stored_array_string h.2
  | sendMessage id m => exact stored_record id m
  | setConvoName id name => exact .string name

theorem Valid.isEmpty (h : w.Valid) : (FNode.nodeFrom w.value).isEmpty = false :=
  (FNode.val_nodeFrom h.stored).1

theorem getChild_set_self (h : w.Valid) : (set n w).getChild w.path = .nodeFrom w.value :=
  FNode.getChild_updateChild_self h.isEmpty

theorem getChild_set_of_not_comparable (h : w.Valid) (hne : ¬ PathMap.Comparable w.path path') :
    (set n w).getChild path' = n.getChild path' :=
  FNode.getChild_updateChild_of_not_comparable h.isEmpty hne

end BackendWrite

namespace Registers

open BackendWrite FPath

variable {r : Registers} {n : FNode} {w : BackendWrite} {uid id : String}

/-- A child more. -/
theorem updateChild_children {cs : List (String × FNode)} {key : String} {m : FNode}
    (hm : m.isEmpty = false) :
    (FNode.children cs).updateChild [key] m = .children (SortedDictionary.insertKey cs key m) := by
  have hchild (m' : FNode) : m'.updateChild [] m = m := by cases m' <;> rfl
  simp only [FNode.updateChild_cons hm, hchild, FNode.updateImmediateChild, hm,
    Bool.false_eq_true, if_false]
  rw [if_neg]
  simp [SortedDictionary.insertKey]

/-- One more message among those of a conversation. -/
theorem updateChild_messagesNode (id : String) (ms : SortedDictionary SentMessage)
    (m : SentMessage) :
    (messagesNode id ms).updateChild [m.autoId] (.nodeFrom (m.record id)) =
      messagesNode id (ms.insertKey m.autoId m) := by
  have hm : (FNode.nodeFrom (m.record id)).isEmpty = false :=
    (FNode.val_nodeFrom (stored_record id m)).1
  have hmap : (ms.insertKey m.autoId m).map (fun p => (p.1, FNode.nodeFrom (p.2.record id))) =
      SortedDictionary.insertKey (ms.map fun p => (p.1, FNode.nodeFrom (p.2.record id))) m.autoId
        (.nodeFrom (m.record id)) := by
    rw [SortedDictionary.insertKey, SortedDictionary.insertKey, SortedDictionary.removeKey,
      SortedDictionary.removeKey, List.map_append, List.filter_map]
    rfl
  rw [messagesNode, messagesNode, hmap, updateChild_children hm]

/-- A write somewhere else. -/
theorem getChild_set_of_eq {path' : FPath} {m : FNode} (h : n.getChild path' = m) (hw : w.Valid)
    (hne : ¬ PathMap.Comparable w.path path') : (set n w).getChild path' = m := by
  rw [getChild_set_of_not_comparable hw hne, h]

/-- A write to one register of a family of them. -/
theorem getChild_set_register {α : Type} {toJson : α → Json} {f : String → Option α}
    (paths : String → FPath) {key key' : String} {a : α} (hw : w.Valid)
    (h : n.getChild (paths key) = node toJson (f key)) (hpath : w.path = paths key')
    (hvalue : w.value = toJson a) (hne : key ≠ key' →
      ¬ PathMap.Comparable (paths key') (paths key)) :
    (set n w).getChild (paths key) = node toJson (Function.update f key' (some a) key) := by
  by_cases hkey : key = key'
  · subst hkey
    rw [← hpath, getChild_set_self hw, hvalue, Function.update_self]
    rfl
  · rw [Function.update_of_ne hkey]
    refine getChild_set_of_eq h hw ?_
    rw [hpath]
    exact hne hkey

/-- A write to a user's node. -/
theorem getChild_set_user {uid' key : String} {cs : List (String × FNode)} (hw : w.Valid)
    (hcs : n.getChild ["users", uid] = .children cs)
    (hkeys : ∀ p ∈ cs, p.1 = "username" ∨ p.1 = "conversations")
    (hpath : w.path = ["users", uid', key]) (hkey : key = "username" ∨ key = "conversations") :
    ∃ cs, (set n w).getChild ["users", uid] = .children cs ∧
      ∀ p ∈ cs, p.1 = "username" ∨ p.1 = "conversations" := by
  by_cases hu : uid = uid'
  · subst hu
    have habove : (set n w).getChild ["users", uid] =
        (n.getChild ["users", uid]).updateChild [key] (.nodeFrom w.value) := by
      have hsplit : ["users", uid, key] = ["users", uid] ++ [key] := rfl
      rw [BackendWrite.set, hpath, hsplit, FNode.getChild_updateChild_above hw.isEmpty]
    refine ⟨_, by rw [habove, hcs, updateChild_children hw.isEmpty], fun p hp => ?_⟩
    rcases SortedDictionary.mem_insertKey hp with hp | rfl
    · exact hkeys p hp
    · exact hkey
  · refine ⟨cs, getChild_set_of_eq hcs hw ?_, hkeys⟩
    rw [hpath]
    simp [PathMap.Comparable, hu, Ne.symm hu]

/-- **One write** to the tree is one to the registers. -/
theorem HeldBy.set (h : r.HeldBy n) (hw : w.Valid) : (r.write w).HeldBy (set n w) := by
  refine ⟨?_, ?_, ?_, ?_, ?_, ?_, ?_, ?_⟩
  · have hvalue := FNode.wellFormed_nodeFrom hw.stored
    exact Or.inr (hvalue.updateChild h.proper w.path)
  · intro uid huid
    obtain ⟨cs, hcs, hkeys⟩ := h.user uid huid
    cases w with
    | updateUsername uid' username =>
      exact getChild_set_user hw hcs hkeys (path_updateUsername username hw) (Or.inl rfl)
    | createConvo uid' res =>
      exact getChild_set_user hw hcs hkeys (path_createConvo res hw.1) (Or.inr rfl)
    | sendMessage id m =>
      refine ⟨cs, getChild_set_of_eq hcs hw ?_, hkeys⟩
      rw [path_sendMessage hw.1 hw.2.1]
      simp [PathMap.Comparable]
    | setConvoName id name =>
      refine ⟨cs, getChild_set_of_eq hcs hw ?_, hkeys⟩
      rw [path_setConvoName name hw]
      simp [PathMap.Comparable]
  · intro uid huid
    have hold := h.username uid huid
    cases w with
    | updateUsername uid' username =>
      refine getChild_set_register (fun uid => ["users", uid, "username"]) hw hold
        (path_updateUsername username hw) rfl fun hne => ?_
      simp [PathMap.Comparable, hne, Ne.symm hne]
    | createConvo uid' res =>
      refine getChild_set_of_eq hold hw ?_
      rw [path_createConvo res hw.1]
      simp [PathMap.Comparable]
    | sendMessage id m =>
      refine getChild_set_of_eq hold hw ?_
      rw [path_sendMessage hw.1 hw.2.1]
      simp [PathMap.Comparable]
    | setConvoName id name =>
      refine getChild_set_of_eq hold hw ?_
      rw [path_setConvoName name hw]
      simp [PathMap.Comparable]
  · intro uid huid
    have hold := h.conversations uid huid
    cases w with
    | updateUsername uid' username =>
      refine getChild_set_of_eq hold hw ?_
      rw [path_updateUsername username hw]
      simp [PathMap.Comparable]
    | createConvo uid' res =>
      refine getChild_set_register (fun uid => ["users", uid, "conversations"]) hw hold
        (path_createConvo res hw.1) rfl fun hne => ?_
      simp [PathMap.Comparable, hne, Ne.symm hne]
    | sendMessage id m =>
      refine getChild_set_of_eq hold hw ?_
      rw [path_sendMessage hw.1 hw.2.1]
      simp [PathMap.Comparable]
    | setConvoName id name =>
      refine getChild_set_of_eq hold hw ?_
      rw [path_setConvoName name hw]
      simp [PathMap.Comparable]
  · intro id hid
    have hold := h.convoName id hid
    cases w with
    | updateUsername uid username =>
      refine getChild_set_of_eq hold hw ?_
      rw [path_updateUsername username hw]
      simp [PathMap.Comparable]
    | createConvo uid res =>
      refine getChild_set_of_eq hold hw ?_
      rw [path_createConvo res hw.1]
      simp [PathMap.Comparable]
    | sendMessage id' m =>
      refine getChild_set_of_eq hold hw ?_
      rw [path_sendMessage hw.1 hw.2.1]
      simp [PathMap.Comparable]
    | setConvoName id' name =>
      refine getChild_set_register (fun id => ["convoData", id, "name"]) hw hold
        (path_setConvoName name hw) rfl fun hne => ?_
      simp [PathMap.Comparable, hne, Ne.symm hne]
  · intro id hid
    have hold := h.messages id hid
    cases w with
    | updateUsername uid username =>
      refine getChild_set_of_eq hold hw ?_
      rw [path_updateUsername username hw]
      simp [PathMap.Comparable]
    | createConvo uid res =>
      refine getChild_set_of_eq hold hw ?_
      rw [path_createConvo res hw.1]
      simp [PathMap.Comparable]
    | sendMessage id' m =>
      have hpath := path_sendMessage hw.1 hw.2.1
      by_cases hu : id = id'
      · subst hu
        have hself : (r.write (.sendMessage id m)).messages id =
            (r.messages id).insertKey m.autoId m := Function.update_self ..
        rw [BackendWrite.set, hpath, FNode.getChild_updateChild_above hw.isEmpty, hold, hself]
        exact updateChild_messagesNode id _ m
      · have hother : (r.write (.sendMessage id' m)).messages id = r.messages id :=
          Function.update_of_ne hu ..
        rw [hother]
        refine getChild_set_of_eq hold hw ?_
        rw [hpath]
        simp [PathMap.Comparable, hu, Ne.symm hu]
    | setConvoName id' name =>
      refine getChild_set_of_eq hold hw ?_
      rw [path_setConvoName name hw]
      simp [PathMap.Comparable]
  · intro id p hp
    cases w with
    | updateUsername uid username => exact h.noIndex id p hp
    | createConvo uid res => exact h.noIndex id p hp
    | setConvoName id' name => exact h.noIndex id p hp
    | sendMessage id' m =>
      by_cases hu : id = id'
      · subst hu
        have hself : (r.write (.sendMessage id m)).messages id =
            (r.messages id).insertKey m.autoId m := Function.update_self ..
        rw [hself] at hp
        rcases SortedDictionary.mem_insertKey hp with hp | rfl
        · exact h.noIndex id p hp
        · exact hw.2.2
      · have hother : (r.write (.sendMessage id' m)).messages id = r.messages id :=
          Function.update_of_ne hu ..
        rw [hother] at hp
        exact h.noIndex id p hp
  · intro uid keys hkeys
    cases w with
    | updateUsername uid' username => exact h.joined uid keys hkeys
    | sendMessage id m => exact h.joined uid keys hkeys
    | setConvoName id name => exact h.joined uid keys hkeys
    | createConvo uid' res =>
      have hwrite : (r.write (.createConvo uid' res)).conversations uid =
          Function.update r.conversations uid' (some res) uid := rfl
      rw [hwrite] at hkeys
      by_cases hu : uid = uid'
      · subst hu
        rw [Function.update_self] at hkeys
        obtain rfl := Option.some.inj hkeys
        exact hw.2
      · rw [Function.update_of_ne hu] at hkeys
        exact h.joined uid keys hkeys

theorem heldBy_emptyNode : empty.HeldBy .emptyNode :=
  ⟨FNode.proper_emptyNode, fun _ _ => ⟨[], rfl, by simp⟩, fun _ _ => rfl, fun _ _ => rfl,
    fun _ _ => rfl, fun _ _ => rfl, fun _ p hp => absurd hp List.not_mem_nil,
    fun _ keys hkeys => by cases hkeys⟩

/-- So it is after any writes. -/
theorem heldBy_database {ws : List BackendWrite} (hws : ∀ w ∈ ws, w.Valid) :
    (ws.foldl write empty).HeldBy (database ws) := by
  induction ws using List.reverseRecOn with
  | nil => exact heldBy_emptyNode
  | append_singleton ws w ih =>
    rw [database, List.foldl_append, List.foldl_append, ← database]
    exact (ih fun w' hw' => hws w' (List.mem_append_left _ hw')).set (hws w (by simp))

end Registers

/-! ## What the observers are told -/

/-- An order in which dictionaries enumerate their entries. -/
structure Enumeration where
  order : List (String × Json) → List (String × Json)
  perm : ∀ entries, (order entries).Perm entries

/-- The value as it is handed over. -/
def Enumeration.apply (e : Enumeration) : Json → Json
  | .dictionary entries => .dictionary (e.order entries)
  | j => j

/-- Where no key occurs twice, the order does not matter to a lookup. -/
theorem Enumeration.lookup_order (e : Enumeration) {entries : List (String × Json)}
    (hnd : (entries.map Prod.fst).Nodup) (key : String) :
    (e.order entries).lookup key = entries.lookup key := by
  have hnd' : ((e.order entries).map Prod.fst).Nodup := ((e.perm entries).map _).nodup_iff.mpr hnd
  cases h : entries.lookup key with
  | some j =>
    obtain ⟨before, after, rfl, -⟩ := List.lookup_eq_some_iff.mp h
    exact Json.lookup_of_mem (p := (key, j)) hnd' ((e.perm _).mem_iff.mpr (by simp))
  | none =>
    rw [List.lookup_eq_none_iff] at h ⊢
    exact fun p hp => h p ((e.perm entries).mem_iff.mp hp)

namespace Registers

open BackendWrite FPath

variable {r : Registers} {n : FNode} {uid id : String}

/-- What a register is read as. -/
theorem val_node {α : Type} {toJson : α → Json} {a : Option α}
    (hstored : ∀ b ∈ a, (toJson b).Stored) :
    (node toJson a).val = (a.map toJson).getD .null := by
  cases a with
  | none => rfl
  | some a => exact (FNode.val_nodeFrom (hstored a rfl)).2

/-- A register that holds something is kept in a node. -/
theorem isEmpty_node {α : Type} {toJson : α → Json} {a : Option α}
    (hstored : ∀ b ∈ a, (toJson b).Stored) : (node toJson a).isEmpty = a.isNone := by
  cases a with
  | none => rfl
  | some a => exact (FNode.val_nodeFrom (hstored a rfl)).1

/-- The entries of a conversation's node. -/
def messageEntries (r : Registers) (id : String) : List (String × Json) :=
  (r.messages id).map fun p => (p.1, p.2.record id)

theorem val_messagesNode (h : r.HeldBy n) (hid : IsPiece id) :
    (n.getChild ["conversations", id]).val =
      if r.messages id = [] then .null else .dictionary (r.messageEntries id) := by
  have hvals : FNode.vals ((r.messages id).map fun p => (p.1, FNode.nodeFrom (p.2.record id))) =
      r.messageEntries id := by
    rw [FNode.vals_eq_map, List.map_map]
    refine List.map_congr_left fun p _ => Prod.ext rfl ?_
    exact (FNode.val_nodeFrom (stored_record id p.2)).2
  rw [h.messages id hid, messagesNode, FNode.val, hvals]
  split
  · rename_i hnil
    rw [messageEntries, hnil]
    rfl
  · rename_i hne
    obtain ⟨p, hp⟩ := List.exists_mem_of_ne_nil _ hne
    refine Json.ofChildren_of_not_denseKeys ?_
    exact NoIndex.not_denseKeys (p := (p.1, p.2.record id)) (h.noIndex id p hp)
      (List.mem_map_of_mem hp)

theorem lookup_vals (cs : List (String × FNode)) (key : String) :
    (FNode.vals cs).lookup key = (SortedDictionary.get cs key).map FNode.val := by
  induction cs with
  | nil => rfl
  | cons p cs ih =>
    have hvals : FNode.vals (p :: cs) = (p.1, p.2.val) :: FNode.vals cs := rfl
    rw [hvals, SortedDictionary.get_cons, List.lookup_cons, ih]
    by_cases hk : key = p.1
    · rw [if_pos hk, beq_iff_eq.mpr hk]
      rfl
    · rw [if_neg hk, beq_eq_false_iff_ne.mpr hk]

/-- A register that is a child of a node. -/
theorem lookup_of_child {α : Type} {toJson : α → Json} {a : Option α}
    {cs : List (String × FNode)} {key : String} (hcs : (FNode.children cs).WellFormed)
    (hstored : ∀ b ∈ a, (toJson b).Stored)
    (h : (FNode.children cs).getImmediateChild key = node toJson a) :
    (FNode.vals cs).lookup key = a.map toJson := by
  have hisEmpty := isEmpty_node hstored
  have hval := val_node hstored
  rw [FNode.getImmediateChild] at h
  rw [lookup_vals]
  cases hget : SortedDictionary.get cs key with
  | none =>
    rw [hget, Option.getD_none] at h
    rw [← h] at hisEmpty
    rw [Option.isNone_iff_eq_none.mp hisEmpty.symm]
    rfl
  | some m =>
    rw [hget, Option.getD_some] at h
    have hm : m.isEmpty = false := by
      cases hcs with
      | children hne hnd hall => exact (hall (key, m) (SortedDictionary.mem_of_get hget)).isEmpty
    rw [← h, hm] at hisEmpty
    obtain ⟨b, rfl⟩ := Option.isSome_iff_exists.mp (Option.isNone_eq_false_iff.mp hisEmpty.symm)
    rw [Option.map_some, h, hval]
    rfl

/-- The keys of a user's node, as `createConvo` reads them. -/
theorem getConvoKeys_user (h : r.HeldBy n) (huid : IsPiece uid) (e : Enumeration) :
    Backend.getConvoKeys (some uid) (e.apply (n.getChild ["users", uid]).val) =
      if r.username uid = none ∧ r.conversations uid = none then none
      else some (uniqued ((r.conversations uid).getD [])) := by
  obtain ⟨cs, hcs, hkeys⟩ := h.user uid huid
  have hchild (key : String) : (FNode.children cs).getImmediateChild key =
      n.getChild ["users", uid, key] := by
    have hsplit : ["users", uid, key] = ["users", uid] ++ [key] := rfl
    rw [hsplit, FNode.getChild_append, hcs, FNode.getChild_cons, FNode.getChild_nil]
  have husername := (hchild "username").trans (h.username uid huid)
  have hconversations := (hchild "conversations").trans (h.conversations uid huid)
  have hstring : ∀ s ∈ r.username uid, (Json.string s).Stored := fun s _ => .string s
  have harray : ∀ keys ∈ r.conversations uid, (Json.array (keys.map .string)).Stored :=
    fun keys hmem => stored_array_string (h.joined uid keys hmem)
  rw [hcs]
  rcases hcs ▸ h.proper.getChild ["users", uid] with hnil | hwf
  · -- nothing was written
    obtain rfl : cs = [] := by injection hnil
    have hnone : r.username uid = none ∧ r.conversations uid = none := by
      have hu := isEmpty_node hstring
      have hc := isEmpty_node harray
      rw [← husername] at hu
      rw [← hconversations] at hc
      exact ⟨Option.isNone_iff_eq_none.mp hu.symm, Option.isNone_iff_eq_none.mp hc.symm⟩
    rw [if_pos hnone]
    rfl
  · have hlookup_username := lookup_of_child hwf hstring husername
    have hlookup := lookup_of_child hwf harray hconversations
    cases hwf with
    | children hne hnd hall =>
      obtain ⟨p, hp⟩ := List.exists_mem_of_ne_nil _ hne
      have hnoIndex : NoIndex p.1 := by
        rcases hkeys p hp with hkey | hkey
        · rw [hkey]
          exact ⟨'u', by decide, by decide⟩
        · rw [hkey]
          exact ⟨'c', by decide, by decide⟩
      have hget := SortedDictionary.get_of_mem hnd hp
      have hsome : (FNode.vals cs).lookup p.1 = some p.2.val := by rw [lookup_vals, hget]; rfl
      have hnot : ¬ (r.username uid = none ∧ r.conversations uid = none) := by
        rintro ⟨hu, hc⟩
        rcases hkeys p hp with hkey | hkey
        · rw [hkey, hlookup_username, hu] at hsome
          cases hsome
        · rw [hkey, hlookup, hc] at hsome
          cases hsome
      have hdense : ¬ Json.DenseKeys (FNode.vals cs) := by
        rw [FNode.vals_eq_map]
        exact NoIndex.not_denseKeys (p := (p.1, p.2.val)) hnoIndex (List.mem_map_of_mem hp)
      have hnd' : ((FNode.vals cs).map Prod.fst).Nodup := by
        rw [FNode.vals_eq_map, List.map_map]
        exact hnd
      rw [if_neg hnot, FNode.val, Json.ofChildren_of_not_denseKeys hdense, Enumeration.apply]
      rw [← e.lookup_order hnd'] at hlookup
      cases hc : r.conversations uid with
      | none =>
        rw [hc] at hlookup
        rw [Backend.getConvoKeys_of_lookup_eq_none hlookup]
        rfl
      | some keys =>
        rw [hc] at hlookup
        rw [Backend.getConvoKeys_array hlookup]
        rfl

/-- The messages of a conversation, as the open chat reads them. -/
theorem getMessages_messages (h : r.HeldBy n) (hid : IsPiece id) (e : Enumeration)
    (reader : String) (calls : ℕ → Backend.Calls) :
    Backend.getMessages (some reader) (e.apply (n.getChild ["conversations", id]).val) calls =
      if r.messages id = [] then none
      else some (StableSort.sortOn Message.date
        (Backend.decodeMessages reader calls (e.order (r.messageEntries id)))) := by
  rw [val_messagesNode h hid]
  split
  · rfl
  · exact Backend.getMessages_dictionary _ calls

/-- The observers of the database are told what the registers hold. -/
structure Told (r : Registers) (n : FNode) (e : Enumeration) : Prop where
  /-- by `observeUsername` and `getUsername` -/
  username : ∀ uid, IsPiece uid →
    (e.apply (n.getChild (initWith ("users" ++ "/" ++ uid ++ "/" ++ "username"))).val).asString? =
      r.username uid
  /-- by `getConvoKeys` -/
  convoKeys : ∀ uid, IsPiece uid →
    Backend.getConvoKeys (some uid) (e.apply (n.getChild (initWith ("users" ++ "/" ++ uid))).val) =
      if r.username uid = none ∧ r.conversations uid = none then none
      else some (uniqued ((r.conversations uid).getD []))
  /-- by `getConvoName` -/
  convoName : ∀ id newName, IsPiece id →
    Backend.getConvoName
        (e.apply (n.getChild (initWith ("convoData" ++ "/" ++ id ++ "/" ++ "name"))).val) newName =
      match r.convoName id with
      | some name => (none, name)
      | none => (some newName, newName)
  /-- by `getMessages` and `getConvoMessage` -/
  messages : ∀ id reader calls, IsPiece id →
    Backend.getMessages (some reader)
        (e.apply (n.getChild (initWith ("conversations" ++ "/" ++ id))).val) calls =
      if r.messages id = [] then none
      else some (StableSort.sortOn Message.date
        (Backend.decodeMessages reader calls (e.order (r.messageEntries id))))

theorem asString?_apply (e : Enumeration) (j : Json) : (e.apply j).asString? = j.asString? := by
  cases j <;> rfl

theorem HeldBy.told (h : r.HeldBy n) (e : Enumeration) : r.Told n e := by
  have hstring {a : Option String} : ∀ s ∈ a, (Json.string s).Stored := fun s _ => .string s
  refine ⟨?_, ?_, ?_, ?_⟩
  · intro uid huid
    rw [initWith_append, initWith_append, initWith_of_isPiece ⟨by decide, by decide⟩,
      initWith_of_isPiece huid, initWith_of_isPiece ⟨by decide, by decide⟩]
    have hold := h.username uid huid
    simp only [List.cons_append, List.nil_append]
    rw [hold, asString?_apply, val_node hstring]
    cases r.username uid <;> rfl
  · intro uid huid
    rw [initWith_append, initWith_of_isPiece ⟨by decide, by decide⟩, initWith_of_isPiece huid]
    exact getConvoKeys_user h huid e
  · intro id newName hid
    rw [initWith_append, initWith_append, initWith_of_isPiece ⟨by decide, by decide⟩,
      initWith_of_isPiece hid, initWith_of_isPiece ⟨by decide, by decide⟩]
    have hold := h.convoName id hid
    simp only [List.cons_append, List.nil_append]
    rw [hold, Backend.getConvoName, asString?_apply, val_node hstring]
    cases r.convoName id <;> rfl
  · intro id reader calls hid
    rw [initWith_append, initWith_of_isPiece ⟨by decide, by decide⟩, initWith_of_isPiece hid]
    exact getMessages_messages h hid e reader calls

end Registers

end MoonMessenger
