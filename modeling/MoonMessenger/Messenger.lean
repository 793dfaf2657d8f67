import MoonMessenger.OpenChat
import MoonMessenger.PushId
import MoonMessenger.Registers

/-!
# All devices

The devices and the database they share. A device shows its own writes at once, and those
of the others when the database tells it; the database takes the writes one at a time. What
a device reads is what it has been told, with its own later writes laid over it.

* `deliver_shows` — whenever its observer is called, an open chat shows the messages that
  the device knows of its conversation, each of them once, as they were sent, by date.
* `messages_kept` — the messages of a conversation that a device knows, or has sent, stay
  known to it; and when everything has been taken and told, they are all that were sent.
-/

namespace MoonMessenger

/-- What a call of `sendMessage` is made of, but for the user. -/
structure Draft where
  /-- the conversation -/
  id : String
  username : String
  date : Date
  messageId : UUID
  text : String

/-- The message with a name. -/
def Draft.sent (d : Draft) (user autoId : String) : SentMessage :=
  ⟨autoId, user, d.username, d.date, d.messageId, d.text⟩

/-- What happens. -/
inductive Action (δ : Type) where
  /-- `sendMessage`, at a `serverTime` in milliseconds -/
  | sendMessage (x : δ) (now : ℕ) (rand : ℕ → Fin 64) (draft : Draft)
  /-- another write -/
  | write (x : δ) (w : BackendWrite)
  /-- the database takes the oldest write of a device that it has not taken -/
  | take (x : δ)
  /-- the database tells a device its first `n` writes -/
  | tell (x : δ) (n : ℕ)
  /-- the observer of an open chat is called -/
  | deliver (x : δ) (e : Enumeration) (calls : ℕ → Backend.Calls)

/-- Conversations and users have keys for ids, the time is before the year 2109, and other
writes are no messages. -/
def Action.Valid {δ : Type} : Action δ → Prop
  | sendMessage _ now _ draft => FPath.IsPiece draft.id ∧ now < 64 ^ 7
  | write _ (.sendMessage _ _) => False
  | write _ w => w.Valid
  | _ => True

/-- The devices and the database. -/
structure Messenger (δ : Type) where
  autoIds : AutoIds δ
  /-- the writes the database has taken, and the devices that made them -/
  log : List (δ × BackendWrite)
  /-- the writes of a device that the database has not taken, the oldest first -/
  outbox : δ → List BackendWrite
  /-- how many writes a device has been told -/
  told : δ → ℕ
  chat : δ → ChatView

namespace Messenger

variable {δ : Type} [DecidableEq δ]

/-- All devices are launched, on an empty database. -/
def launch : Messenger δ := ⟨.launch, [], fun _ => [], fun _ => 0, fun _ => .new⟩

/-- The writes of a device that the database has taken. -/
def taken (s : Messenger δ) (x : δ) : List BackendWrite :=
  (s.log.filter fun p => p.1 = x).map Prod.snd

/-- What a device reads: what it has been told, and then its own writes. -/
def view (s : Messenger δ) (x : δ) : List BackendWrite :=
  (s.log.take (s.told x)).map Prod.snd ++
    (((s.log.drop (s.told x)).filter fun p => p.1 = x).map Prod.snd ++ s.outbox x)

/-- The value of a conversation's node, as a device has it. -/
def conversation (s : Messenger δ) (x : δ) (id : String) : Json :=
  ((BackendWrite.database (s.view x)).getChild
    (FPath.initWith ("conversations" ++ "/" ++ id))).val

/-- One step, where the device `x` is signed in as `uid x` and has the chat of `convo x`
open. -/
def step (uid convo : δ → String) (s : Messenger δ) : Action δ → Option (Messenger δ)
  | .sendMessage x now rand draft =>
    (s.autoIds.childByAutoId ⟨x, now, rand⟩).map fun p => { s with
      autoIds := p.2
      outbox := Function.update s.outbox x
        (s.outbox x ++ [.sendMessage draft.id (draft.sent (uid x) p.1)]) }
  | .write x w => some { s with outbox := Function.update s.outbox x (s.outbox x ++ [w]) }
  | .take x =>
    match s.outbox x with
    | [] => none
    | w :: ws => some { s with
        log := s.log ++ [(x, w)]
        outbox := Function.update s.outbox x ws }
  | .tell x n =>
    if s.told x ≤ n ∧ n ≤ s.log.length then some { s with told := Function.update s.told x n }
    else none
  | .deliver x e calls =>
    ((s.chat x).receive (uid x) ⟨e.apply (s.conversation x (convo x)), calls⟩).map fun chat =>
      { s with chat := Function.update s.chat x chat }

end Messenger

/-! ## Messages among the writes -/

namespace BackendWrite

/-- The name of a message. -/
def autoId? : BackendWrite → Option String
  | sendMessage _ m => some m.autoId
  | _ => none

/-- The message, if it is one to this conversation. -/
def sentTo? (id : String) : BackendWrite → Option SentMessage
  | sendMessage id' m => if id' = id then some m else none
  | _ => none

/-- What it was made of, and by whom. -/
def draft? : BackendWrite → Option (String × Draft)
  | sendMessage id m => some (m.user, ⟨id, m.username, m.date, m.messageId, m.text⟩)
  | _ => none

variable {id : String} {w : BackendWrite} {ws : List BackendWrite} {m : SentMessage}

/-- The names of the messages to one conversation are among all names. -/
theorem autoIds_sentTo_sublist (id : String) (ws : List BackendWrite) :
    ((ws.filterMap (sentTo? id)).map SentMessage.autoId).Sublist (ws.filterMap autoId?) := by
  induction ws with
  | nil => exact List.Sublist.refl _
  | cons w ws ih =>
    cases w with
    | sendMessage id' m =>
      by_cases h : id' = id
      · simp only [List.filterMap_cons, sentTo?, if_pos h, autoId?, List.map_cons]
        exact ih.cons_cons _
      · simp only [List.filterMap_cons, sentTo?, if_neg h, autoId?]
        exact ih.cons _
    | updateUsername uid username => exact ih
    | createConvo uid res => exact ih
    | setConvoName id' name => exact ih

/-- Messages with names of their own are kept one after the other. -/
theorem messages_foldl_write (hnd : ((ws.filterMap (sentTo? id)).map SentMessage.autoId).Nodup) :
    (ws.foldl Registers.write .empty).messages id =
      (ws.filterMap (sentTo? id)).map fun m => (m.autoId, m) := by
  induction ws using List.reverseRecOn with
  | nil => rfl
  | append_singleton ws w ih =>
    rw [List.filterMap_append, List.map_append] at hnd
    have hold := ih (hnd.sublist (List.sublist_append_left _ _))
    rw [List.foldl_append, List.filterMap_append, List.map_append, ← hold]
    cases w with
    | sendMessage id' m =>
      by_cases h : id' = id
      · subst h
        have hsent : [sendMessage id' m].filterMap (sentTo? id') = [m] := by simp [sentTo?]
        rw [hsent] at hnd ⊢
        have hself : ([sendMessage id' m].foldl Registers.write
            (ws.foldl Registers.write .empty)).messages id' =
            ((ws.foldl Registers.write .empty).messages id').insertKey m.autoId m :=
          Function.update_self ..
        have hfresh : SortedDictionary.removeKey ((ws.foldl Registers.write .empty).messages id')
            m.autoId = (ws.foldl Registers.write .empty).messages id' := by
          rw [SortedDictionary.removeKey, List.filter_eq_self, hold]
          intro p hp
          obtain ⟨m', hm', rfl⟩ := List.mem_map.mp hp
          refine bne_iff_ne.mpr fun (heq : m'.autoId = m.autoId) => ?_
          exact List.disjoint_of_nodup_append hnd (List.mem_map_of_mem hm') (by simp [heq])
        rw [hself, SortedDictionary.insertKey, hfresh]
        rfl
      · have hsent : [sendMessage id' m].filterMap (sentTo? id) = [] := by simp [sentTo?, h]
        rw [hsent, List.map_nil, List.append_nil]
        exact Function.update_of_ne (Ne.symm h) ..
    | updateUsername uid username => exact (List.append_nil _).symm
    | createConvo uid res => exact (List.append_nil _).symm
    | setConvoName id' name => exact (List.append_nil _).symm

end BackendWrite

/-! ## What a device knows -/

namespace Messenger

open BackendWrite

section View

variable {δ : Type} [DecidableEq δ] {s : Messenger δ} {x : δ}

/-- The messages of a conversation that a device knows. -/
def visible (s : Messenger δ) (x : δ) (id : String) : List SentMessage :=
  (s.view x).filterMap (sentTo? id)

theorem view_sublist (s : Messenger δ) (x : δ) :
    (s.view x).Sublist (s.log.map Prod.snd ++ s.outbox x) := by
  have hlog : s.log.map Prod.snd =
      (s.log.take (s.told x)).map Prod.snd ++ (s.log.drop (s.told x)).map Prod.snd := by
    rw [← List.map_append, List.take_append_drop]
  rw [view, hlog, List.append_assoc]
  refine (List.Sublist.refl _).append (List.Sublist.append ?_ (List.Sublist.refl _))
  exact List.filter_sublist.map _

/-- What holds of the devices and the database, where the device `x` has the chat of
`convo x` open: the names of messages are those that were made, none is there twice, and a
chat has shown nothing as long as nothing is known of it. -/
structure Good (convo : δ → String) (s : Messenger δ) : Prop where
  valid : ∀ x, ∀ w ∈ s.log.map Prod.snd ++ s.outbox x, w.Valid
  taken : ∀ p ∈ s.log, ∀ name ∈ p.2.autoId?,
    ∃ a ∈ s.autoIds.issued, a.device = p.1 ∧ a.name = name
  waiting : ∀ x, ∀ w ∈ s.outbox x, ∀ name ∈ w.autoId?,
    ∃ a ∈ s.autoIds.issued, a.device = x ∧ a.name = name
  nodup : ∀ x, ((s.log.map Prod.snd ++ s.outbox x).filterMap autoId?).Nodup
  told : ∀ x, s.told x ≤ s.log.length
  chat : ∀ x, s.visible x (convo x) = [] → s.chat x = .new

variable {uid convo : δ → String}

/-- **The node of a conversation** has the messages that are known. -/
theorem Good.conversation_eq (h : s.Good convo) {id : String} (hid : FPath.IsPiece id) :
    s.conversation x id = if s.visible x id = [] then .null
      else .dictionary ((s.visible x id).map fun m => (m.autoId, m.record id)) := by
  have hvalid : ∀ w ∈ s.view x, w.Valid := fun w hw => h.valid x w ((view_sublist s x).mem hw)
  have hnd : ((s.visible x id).map SentMessage.autoId).Nodup := by
    refine (h.nodup x).sublist ((autoIds_sentTo_sublist id _).trans ?_)
    exact (view_sublist s x).filterMap _
  have hmessages := messages_foldl_write hnd
  have hheld := Registers.heldBy_database hvalid
  rw [conversation, FPath.initWith_append, FPath.initWith_of_isPiece ⟨by decide, by decide⟩,
    FPath.initWith_of_isPiece hid, List.singleton_append, Registers.val_messagesNode hheld hid,
    Registers.messageEntries, hmessages, List.map_map]
  simp only [List.map_eq_nil_iff]
  rfl

end View

end Messenger

/-! ## What a chat shows -/

/-- The chat shows these messages to the reader, as they were sent and by date. -/
structure ChatView.ShowsSent (reader : String) (sent : List SentMessage) (v : ChatView) : Prop where
  /-- each message is shown once -/
  items : ∃ order, order.Perm sent ∧ List.Forall₂
    (fun (m : SentMessage) shown => SameFields m.user reader m.username m.text m.date shown)
    order v.data.itemIdentifiers
  sorted : v.data.itemIdentifiers.Pairwise fun i j => i.date ≤ j.date

section ShowsSent

variable {reader id : String} {sent : List SentMessage}

/-- Corners and seen flags are none of the fields. -/
theorem sameFields_of_core {user username text : String} {now : Date} {m m' : Message}
    (hcore : m'.core = m.core) (h : SameFields user reader username text now m) :
    SameFields user reader username text now m' := by
  refine ⟨?_, ?_, ?_, ?_, ?_⟩
  · exact (congrArg Message.text hcore : m'.core.text = m.core.text).trans h.text
  · exact (Message.date_eq_of_core hcore).trans h.date
  · exact (congrArg Message.username hcore : m'.core.username = m.core.username).trans h.username
  · exact (Message.userId_eq_of_core hcore).trans h.userId
  · rw [Message.origin_eq_of_core hcore]
    exact h.origin

/-- Records are decoded one by one. -/
theorem forall₂_decodeMessages {data : List (String × Json)} (calls : ℕ → Backend.Calls)
    (h : List.Forall₂ (fun (m : SentMessage) p => p.2 = m.record id) sent data) :
    List.Forall₂ (fun m shown => SameFields m.user reader m.username m.text m.date shown) sent
      (Backend.decodeMessages reader calls data) := by
  induction h generalizing calls with
  | nil => exact .nil
  | @cons m p sent data hp hrest ih =>
    rw [Backend.decodeMessages, List.map_cons, List.mapIdx_cons, hp]
    refine .cons ?_ (ih fun i => calls (i + 1))
    have hsend : Backend.sendMessage (some m.user) m.username m.date m.messageId m.text id =
        some (m.record id) := rfl
    exact Backend.sameFields_decodeMessage hsend (calls 0)

/-- Lists that are matched stay so when one of them is rearranged. -/
theorem exists_perm_forall₂ {α β : Type} {r : α → β → Prop} {as : List α} {bs bs' : List β}
    (h : List.Forall₂ r as bs) (hperm : bs'.Perm bs) :
    ∃ as' : List α, as'.Perm as ∧ List.Forall₂ r as' bs' := by
  obtain ⟨as', has', hperm'⟩ := List.perm_comp_forall₂ hperm h.flip
  exact ⟨as', hperm', has'.flip⟩

/-- What is shown of the records of messages, whatever the order they come in. -/
theorem ChatView.ShowsChildren.showsSent {data : List (String × Json)} {calls : ℕ → Backend.Calls}
    {v : ChatView} (h : v.ShowsChildren reader ⟨.dictionary data, calls⟩)
    (hdata : data.Perm (sent.map fun m => (m.autoId, m.record id))) : v.ShowsSent reader sent := by
  refine ⟨?_, h.sorted⟩
  have hrecords : List.Forall₂ (fun (m : SentMessage) p => p.2 = m.record id) sent
      (sent.map fun m => (m.autoId, m.record id)) := by
    rw [List.forall₂_map_right_iff]
    exact List.forall₂_same.mpr fun m _ => rfl
  -- the messages in the order of the entries, and then in that of the chat
  obtain ⟨entered, hentered, hdecoded⟩ := exists_perm_forall₂ hrecords hdata
  have hcores : List.Forall₂ (fun (m : SentMessage) core => ∀ shown : Message, shown.core = core →
      SameFields m.user reader m.username m.text m.date shown) entered
      (((Delivery.mk (.dictionary data) calls).children reader).map Message.core) := by
    rw [List.forall₂_map_right_iff]
    refine (forall₂_decodeMessages calls hdecoded).imp ?_
    intro m decoded hm shown hcore
    exact sameFields_of_core hcore hm
  obtain ⟨order, horder, hshown⟩ := exists_perm_forall₂ hcores h.items
  refine ⟨order, horder.trans hentered, ?_⟩
  rw [List.forall₂_map_right_iff] at hshown
  exact hshown.imp fun m shown hm => hm shown rfl

end ShowsSent

namespace Messenger

open BackendWrite

variable {δ : Type} [DecidableEq δ] {uid convo : δ → String} {s s' : Messenger δ} {x y : δ}

/-- Each of the calls of `UUID()` made for `n` messages returns another value. -/
def FreshCalls (calls : ℕ → Backend.Calls) (n : ℕ) : Prop :=
  ((List.range n).map fun i => (calls i).identity).Nodup

theorem fresh_of_freshCalls {calls : ℕ → Backend.Calls} {data : List (String × Json)}
    (h : FreshCalls calls data.length) (user : String) :
    (Delivery.mk (.dictionary data) calls).Fresh user := by
  have hids : (Backend.decodeMessages user calls data).map Message.id =
      (List.range data.length).map fun i => (calls i).identity := by
    apply List.ext_getElem
    · simp [Backend.decodeMessages]
    · intro i hi hi'
      simp [Backend.decodeMessages, Backend.id_decodeMessage]
  rw [FreshCalls, ← hids] at h
  exact h

/-- **A delivery** shows what is known. -/
theorem Good.deliver (h : s.Good convo) (hconvo : FPath.IsPiece (convo x)) (e : Enumeration)
    {calls : ℕ → Backend.Calls} (hcalls : FreshCalls calls (s.visible x (convo x)).length) :
    ∃ chat, (s.chat x).receive (uid x) ⟨e.apply (s.conversation x (convo x)), calls⟩ = some chat ∧
      chat.ShowsSent (uid x) (s.visible x (convo x)) := by
  have hvalue := h.conversation_eq (x := x) hconvo
  by_cases hnil : s.visible x (convo x) = []
  · rw [if_pos hnil] at hvalue
    refine ⟨s.chat x, ChatView.receive_null (by rw [hvalue]; rfl), ?_⟩
    rw [h.chat x hnil, hnil]
    exact ⟨⟨[], .nil, .nil⟩, .nil⟩
  · rw [if_neg hnil] at hvalue
    rw [hvalue, Enumeration.apply]
    have hperm := e.perm ((s.visible x (convo x)).map fun m => (m.autoId, m.record (convo x)))
    have hne :
        e.order ((s.visible x (convo x)).map fun m => (m.autoId, m.record (convo x))) ≠ [] := by
      intro hempty
      rw [hempty] at hperm
      exact hnil (List.map_eq_nil_iff.mp hperm.nil_eq.symm)
    rw [← List.length_map (f := fun m => (m.autoId, m.record (convo x))),
      ← hperm.length_eq] at hcalls
    obtain ⟨chat, hchat, -, hshows⟩ := ChatView.receive_dictionary (v := s.chat x) hne rfl
      (fresh_of_freshCalls hcalls (uid x))
    exact ⟨chat, hchat, hshows.showsSent hperm⟩

/-! ### The steps -/

/-- Every name is one that was made. -/
theorem Good.exists_issued (h : s.Good convo) {name : String}
    (hname : name ∈ (s.log.map Prod.snd ++ s.outbox x).filterMap autoId?) :
    ∃ a ∈ s.autoIds.issued, a.name = name := by
  obtain ⟨w, hw, hwname⟩ := List.mem_filterMap.mp hname
  rcases List.mem_append.mp hw with hw | hw
  · obtain ⟨p, hp, rfl⟩ := List.mem_map.mp hw
    obtain ⟨a, ha, -, haname⟩ := h.taken p hp name hwname
    exact ⟨a, ha, haname⟩
  · obtain ⟨a, ha, -, haname⟩ := h.waiting x w hw name hwname
    exact ⟨a, ha, haname⟩

/-- **A device makes a write**, under a name that is new if it is a message. -/
theorem Good.push (h : s.Good convo) {w : BackendWrite} (hw : w.Valid) (hlog : s'.log = s.log)
    (htold : s'.told = s.told) (hchat : s'.chat = s.chat)
    (houtbox : s'.outbox = Function.update s.outbox x (s.outbox x ++ [w]))
    (hissued : s.autoIds.issued ⊆ s'.autoIds.issued)
    (hname : ∀ name ∈ w.autoId?, (∃ a ∈ s'.autoIds.issued, a.device = x ∧ a.name = name) ∧
      ∀ a ∈ s.autoIds.issued, a.name ≠ name) :
    s'.Good convo ∧ ∀ y, (s.view y).Sublist (s'.view y) := by
  have hself : s'.outbox x = s.outbox x ++ [w] := by rw [houtbox, Function.update_self]
  have hother {y : δ} (hy : y ≠ x) : s'.outbox y = s.outbox y := by
    rw [houtbox, Function.update_of_ne hy]
  have hview (y : δ) : (s.view y).Sublist (s'.view y) := by
    rw [view, view, hlog, htold]
    refine (List.Sublist.refl _).append ((List.Sublist.refl _).append ?_)
    by_cases hy : y = x
    · subst hy
      rw [hself]
      exact List.sublist_append_left _ _
    · rw [hother hy]
  refine ⟨⟨?_, ?_, ?_, ?_, ?_, ?_⟩, hview⟩
  · intro y w' hw'
    by_cases hy : y = x
    · subst hy
      rw [hlog, hself, ← List.append_assoc] at hw'
      rcases List.mem_append.mp hw' with hw' | hw'
      · exact h.valid y w' hw'
      · obtain rfl := List.mem_singleton.mp hw'
        exact hw
    · rw [hlog, hother hy] at hw'
      exact h.valid y w' hw'
  · intro p hp name hpname
    rw [hlog] at hp
    obtain ⟨a, ha, hdevice⟩ := h.taken p hp name hpname
    exact ⟨a, hissued ha, hdevice⟩
  · intro y w' hw' name hwname
    by_cases hy : y = x
    · subst hy
      rw [hself] at hw'
      rcases List.mem_append.mp hw' with hw' | hw'
      · obtain ⟨a, ha, hdevice⟩ := h.waiting y w' hw' name hwname
        exact ⟨a, hissued ha, hdevice⟩
      · obtain rfl := List.mem_singleton.mp hw'
        exact (hname name hwname).1
    · rw [hother hy] at hw'
      obtain ⟨a, ha, hdevice⟩ := h.waiting y w' hw' name hwname
      exact ⟨a, hissued ha, hdevice⟩
  · intro y
    by_cases hy : y = x
    · subst hy
      rw [hlog, hself, ← List.append_assoc, List.filterMap_append]
      refine List.nodup_append.mpr ⟨h.nodup y, ?_, ?_⟩
      · cases hwname : w.autoId? <;> simp [hwname]
      · intro name hmem name' hmem' heq
        obtain ⟨w', hw', hwname⟩ := List.mem_filterMap.mp hmem'
        obtain rfl := List.mem_singleton.mp hw'
        obtain ⟨a, ha, haname⟩ := h.exists_issued hmem
        exact (hname name' hwname).2 a ha (haname.trans heq)
    · rw [hlog, hother hy]
      exact h.nodup y
  · intro y
    rw [hlog, htold]
    exact h.told y
  · intro y hnil
    rw [hchat]
    refine h.chat y (List.eq_nil_of_sublist_nil ?_)
    rw [← hnil]
    exact (hview y).filterMap _

/-- A device whose write the database takes knows it before. -/
theorem view_take (htold : s.told y ≤ s.log.length) {w : BackendWrite} {ws : List BackendWrite}
    (hx : s.outbox x = w :: ws) (hlog : s'.log = s.log ++ [(x, w)])
    (houtbox : s'.outbox = Function.update s.outbox x ws) (htold' : s'.told = s.told) :
    s'.view y = s.view y := by
  rw [view, view, hlog, htold', List.take_append_of_le_length htold,
    List.drop_append_of_le_length htold, List.filter_append, List.map_append]
  by_cases hy : y = x
  · subst hy
    simp [houtbox, hx]
  · simp [houtbox, Function.update_of_ne hy, Ne.symm hy]

/-- **The database takes a write.** -/
theorem Good.take (h : s.Good convo) (hnd : (s.autoIds.issued.map IssuedId.name).Nodup)
    {w : BackendWrite} {ws : List BackendWrite} (hx : s.outbox x = w :: ws)
    (hlog : s'.log = s.log ++ [(x, w)]) (houtbox : s'.outbox = Function.update s.outbox x ws)
    (htold : s'.told = s.told) (hchat : s'.chat = s.chat) (hautoIds : s'.autoIds = s.autoIds) :
    s'.Good convo ∧ ∀ y, (s.view y).Sublist (s'.view y) := by
  have hview (y : δ) : s'.view y = s.view y := view_take (h.told y) hx hlog houtbox htold
  have hself : s'.outbox x = ws := by rw [houtbox, Function.update_self]
  have hother {y : δ} (hy : y ≠ x) : s'.outbox y = s.outbox y := by
    rw [houtbox, Function.update_of_ne hy]
  -- the writes of `x`, taken or not, are the same as before
  have hsame : s'.log.map Prod.snd ++ s'.outbox x = s.log.map Prod.snd ++ s.outbox x := by
    rw [hlog, hself, hx]
    simp
  have hwx : w ∈ s.outbox x := by rw [hx]; exact List.mem_cons_self ..
  refine ⟨⟨?_, ?_, ?_, ?_, ?_, ?_⟩, fun y => ?_⟩
  · intro y w' hw'
    by_cases hy : y = x
    · subst hy
      rw [hsame] at hw'
      exact h.valid y w' hw'
    · rw [hlog, hother hy] at hw'
      simp only [List.map_append, List.map_cons, List.map_nil, List.mem_append,
        List.mem_singleton] at hw'
      rcases hw' with (hw' | rfl) | hw'
      · exact h.valid y w' (List.mem_append_left _ hw')
      · exact h.valid x w' (List.mem_append_right _ hwx)
      · exact h.valid y w' (List.mem_append_right _ hw')
  · intro p hp name hname
    rw [hautoIds]
    rw [hlog] at hp
    rcases List.mem_append.mp hp with hp | hp
    · exact h.taken p hp name hname
    · obtain rfl := List.mem_singleton.mp hp
      exact h.waiting x w hwx name hname
  · intro y w' hw' name hname
    rw [hautoIds]
    by_cases hy : y = x
    · subst hy
      rw [hself] at hw'
      exact h.waiting y w' (by rw [hx]; exact List.mem_cons_of_mem w hw') name hname
    · rw [hother hy] at hw'
      exact h.waiting y w' hw' name hname
  · intro y
    by_cases hy : y = x
    · subst hy
      rw [hsame]
      exact h.nodup y
    · have hperm : (s'.log.map Prod.snd ++ s'.outbox y).Perm
          (w :: (s.log.map Prod.snd ++ s.outbox y)) := by
        rw [hlog, hother hy, List.map_append, List.append_assoc]
        exact List.perm_middle
      refine (hperm.filterMap autoId?).nodup_iff.mpr ?_
      cases hname : w.autoId? with
      | none =>
        rw [List.filterMap_cons_none hname]
        exact h.nodup y
      | some name =>
        rw [List.filterMap_cons_some hname, List.nodup_cons]
        refine ⟨fun hmem => ?_, h.nodup y⟩
        -- no other device made a message of that name
        obtain ⟨w', hw', hname'⟩ := List.mem_filterMap.mp hmem
        obtain ⟨a, ha, hax, haname⟩ := h.waiting x w hwx name hname
        rcases List.mem_append.mp hw' with hw' | hw'
        · have hnodup := h.nodup x
          rw [List.filterMap_append] at hnodup
          refine List.disjoint_of_nodup_append hnodup (List.mem_filterMap.mpr ⟨w', hw', hname'⟩) ?_
          exact List.mem_filterMap.mpr ⟨w, hwx, hname⟩
        · obtain ⟨b, hb, hby, hbname⟩ := h.waiting y w' hw' name hname'
          have hab : b = a := List.inj_on_of_nodup_map hnd hb ha (hbname.trans haname.symm)
          rw [hab, hax] at hby
          exact hy hby.symm
  · intro y
    rw [hlog, htold, List.length_append]
    exact (h.told y).trans (Nat.le_add_right _ _)
  · intro y hnil
    rw [hchat]
    refine h.chat y ?_
    rwa [visible, hview] at hnil
  · rw [hview]

/-- **The database tells a device** more. -/
theorem Good.tell (h : s.Good convo) {n : ℕ} (hle : s.told x ≤ n) (hn : n ≤ s.log.length) :
    Good convo { s with told := Function.update s.told x n } ∧
      ∀ y, (s.view y).Sublist (view { s with told := Function.update s.told x n } y) := by
  have hview (y : δ) :
      (s.view y).Sublist (view { s with told := Function.update s.told x n } y) := by
    by_cases hy : y = x
    · subst hy
      simp only [view, Function.update_self]
      -- what is told now, of which the device knew its own writes
      obtain ⟨more, htake, hdrop⟩ : ∃ more, s.log.take n = s.log.take (s.told y) ++ more ∧
          s.log.drop (s.told y) = more ++ s.log.drop n := by
        refine ⟨(s.log.drop (s.told y)).take (n - s.told y), ?_, ?_⟩
        · rw [← List.take_add, Nat.add_sub_cancel' hle]
        · conv_lhs => rw [← List.take_append_drop (n - s.told y) (s.log.drop (s.told y))]
          rw [List.drop_drop, Nat.add_sub_cancel' hle]
      rw [htake, hdrop, List.filter_append, List.map_append, List.map_append, List.append_assoc,
        List.append_assoc]
      refine (List.Sublist.refl _).append (List.Sublist.append ?_ (List.Sublist.refl _))
      exact List.filter_sublist.map _
    · simp only [view, Function.update_of_ne hy]
      exact List.Sublist.refl _
  refine ⟨⟨h.valid, h.taken, h.waiting, h.nodup, ?_, ?_⟩, hview⟩
  · intro y
    by_cases hy : y = x
    · subst hy
      simpa using hn
    · simpa [Function.update_of_ne hy] using h.told y
  · intro y hnil
    refine h.chat y (List.eq_nil_of_sublist_nil ?_)
    rw [← hnil]
    exact (hview y).filterMap _

/-- A name is a key, and no index. -/
theorem valid_of_get {g g' : FNextPushId} {now : ℕ} {rand : ℕ → Fin 64} {name : String}
    (h : g.get now rand = some (name, g')) (hnow : now < 64 ^ 7) :
    FPath.IsPiece name ∧ NoIndex name := by
  obtain ⟨r, -, hr⟩ := Option.map_eq_some_iff.mp h
  obtain ⟨rfl, -⟩ := Prod.mk.inj hr
  have hchars : (FNextPushId.text (FNextPushId.chars now r)).toList =
      (FNextPushId.chars now r).map pushChar := String.toList_ofList ..
  refine ⟨⟨fun hempty => ?_, fun hslash => ?_⟩, '-', ?_, by decide⟩
  · rw [hempty, String.toList_empty] at hchars
    have hlen := congrArg List.length hchars
    rw [List.length_map, FNextPushId.length_chars] at hlen
    cases hlen
  · rw [hchars] at hslash
    obtain ⟨d, -, hd⟩ := List.mem_map.mp hslash
    revert d
    decide +kernel
  · rw [hchars]
    exact List.mem_map_of_mem (f := pushChar) (List.mem_append_left _ (Radix.zero_mem_digits hnow))

/-- **One step**, and what it makes a device forget: nothing. -/
theorem Good.step (h : s.Good convo) (hconvo : ∀ x, FPath.IsPiece (convo x)) {a : Action δ}
    (ha : a.Valid)
    (hs : s.step uid convo a = some s') (hnd : (s'.autoIds.issued.map IssuedId.name).Nodup) :
    s'.Good convo ∧ ∀ y, (s.view y).Sublist (s'.view y) := by
  cases a with
  | sendMessage x now rand draft =>
    obtain ⟨⟨name, autoIds⟩, hname, rfl⟩ := Option.map_eq_some_iff.mp hs
    obtain ⟨device, hget, -, hissued⟩ := AutoIds.of_childByAutoId_eq_some hname
    obtain ⟨hpiece, hnoIndex⟩ := valid_of_get hget ha.2
    have hw : (BackendWrite.sendMessage draft.id (draft.sent (uid x) name)).Valid :=
      ⟨ha.1, hpiece, hnoIndex⟩
    refine h.push (x := x) hw rfl rfl rfl rfl ?_ ?_
    · simp [hissued]
    · intro name' hname'
      obtain rfl := Option.some.inj hname'
      simp only [hissued, List.map_append, List.map_cons, List.map_nil] at hnd
      refine ⟨⟨⟨x, now, name⟩, by simp [hissued], rfl, rfl⟩, fun a ha hname => ?_⟩
      refine List.disjoint_of_nodup_append hnd (List.mem_map_of_mem ha) ?_
      rw [hname]
      exact List.mem_singleton_self _
  | write x w =>
    obtain rfl := Option.some.inj hs
    have hw : w.Valid ∧ w.autoId? = none := by
      cases w with
      | sendMessage id m => exact absurd ha not_false
      | updateUsername uid username => exact ⟨ha, rfl⟩
      | createConvo uid res => exact ⟨ha, rfl⟩
      | setConvoName id name => exact ⟨ha, rfl⟩
    refine h.push (x := x) hw.1 rfl rfl rfl rfl (List.Subset.refl _) ?_
    intro name hname
    rw [hw.2] at hname
    cases hname
  | take x =>
    cases hx : s.outbox x with
    | nil => simp [Messenger.step, hx] at hs
    | cons w ws =>
      simp only [Messenger.step, hx, Option.some.injEq] at hs
      subst hs
      exact h.take hnd hx rfl rfl rfl rfl rfl
  | tell x n =>
    rw [Messenger.step] at hs
    split at hs
    · rename_i hn
      obtain rfl := Option.some.inj hs
      exact h.tell hn.1 hn.2
    · cases hs
  | deliver x e calls =>
    obtain ⟨chat, hchat, rfl⟩ := Option.map_eq_some_iff.mp hs
    refine ⟨⟨h.valid, h.taken, h.waiting, h.nodup, h.told, fun y hnil => ?_⟩, fun y => .refl _⟩
    have hnil' : s.visible y (convo y) = [] := hnil
    have hnew := h.chat y hnil'
    by_cases hy : y = x
    · subst hy
      have hnull := h.conversation_eq (x := y) (hconvo y)
      rw [if_pos hnil'] at hnull
      rw [hnull, ChatView.receive_null rfl] at hchat
      rw [← Option.some.inj hchat, hnew]
      exact Function.update_self ..
    · rw [← hnew]
      exact Function.update_of_ne hy ..

theorem good_launch (convo : δ → String) : (launch : Messenger δ).Good convo :=
  ⟨fun _ _ hw => absurd hw List.not_mem_nil, fun _ hp => absurd hp List.not_mem_nil,
    fun _ _ hw => absurd hw List.not_mem_nil, fun _ => List.nodup_nil, fun _ => le_rfl,
    fun _ _ => rfl⟩

/-- The call of `childByAutoId` that an action makes. -/
def idCall? : Action δ → Option (AutoId δ)
  | .sendMessage x now rand _ => some ⟨x, now, rand⟩
  | _ => none

/-- Names are made, and none is taken back. -/
theorem autoIds_of_step {a : Action δ} (hs : s.step uid convo a = some s') :
    (idCall? a = none ∧ s'.autoIds = s.autoIds) ∨
      ∃ c, idCall? a = some c ∧ s.autoIds.step c = some s'.autoIds := by
  cases a with
  | sendMessage x now rand draft =>
    right
    obtain ⟨p, hp, rfl⟩ := Option.map_eq_some_iff.mp hs
    exact ⟨_, rfl, Option.map_eq_some_iff.mpr ⟨p, hp, rfl⟩⟩
  | write x w =>
    obtain rfl := Option.some.inj hs
    exact Or.inl ⟨rfl, rfl⟩
  | take x =>
    cases hx : s.outbox x with
    | nil => simp [Messenger.step, hx] at hs
    | cons w ws =>
      simp only [Messenger.step, hx, Option.some.injEq] at hs
      subst hs
      exact Or.inl ⟨rfl, rfl⟩
  | tell x n =>
    rw [Messenger.step] at hs
    split at hs
    · obtain rfl := Option.some.inj hs
      exact Or.inl ⟨rfl, rfl⟩
    · cases hs
  | deliver x e calls =>
    obtain ⟨chat, -, rfl⟩ := Option.map_eq_some_iff.mp hs
    exact Or.inl ⟨rfl, rfl⟩

/-- A run of all makes a run of the ids. -/
theorem run_autoIds {as : List (Action δ)} (hrun : Runs.run (step uid convo) launch as = some s) :
    Runs.run AutoIds.step .launch (as.filterMap idCall?) = some s.autoIds := by
  induction as using List.reverseRecOn generalizing s with
  | nil =>
    obtain rfl := Option.some.inj hrun
    rfl
  | append_singleton as a ih =>
    rw [Runs.run_concat] at hrun
    obtain ⟨r, hr, hrs⟩ := Option.bind_eq_some_iff.mp hrun
    rw [List.filterMap_append, Runs.run_append, ih hr, Option.bind_some]
    rcases autoIds_of_step hrs with ⟨hnone, hsame⟩ | ⟨c, hsome, hstep⟩
    · simp [hnone, hsame]
    · simp [hsome, hstep]

theorem issued_isPrefix_of_step {a : Action δ} (hs : s.step uid convo a = some s') :
    s.autoIds.issued <+: s'.autoIds.issued := by
  rcases autoIds_of_step hs with ⟨-, hsame⟩ | ⟨c, -, hstep⟩
  · rw [hsame]
  · obtain ⟨p, hp, hp'⟩ := Option.map_eq_some_iff.mp hstep
    obtain ⟨device, -, -, hissued⟩ := AutoIds.of_childByAutoId_eq_some hp
    rw [← hp', hissued]
    exact List.prefix_append _ _

theorem issued_isPrefix_of_run {as : List (Action δ)}
    (hrun : Runs.run (step uid convo) s as = some s') :
    s.autoIds.issued <+: s'.autoIds.issued :=
  Runs.run_invariant (fun r => s.autoIds.issued <+: r.autoIds.issued) (List.prefix_refl _)
    (fun _ _ _ hr hr' => hr.trans (issued_isPrefix_of_step hr')) hrun

/-- No two devices make the same name. -/
def NoCollision (s : Messenger δ) : Prop :=
  s.autoIds.issued.Pairwise fun a b => a.device ≠ b.device → a.name ≠ b.name

omit [DecidableEq δ] in
theorem noCollision_iff (s : Messenger δ) :
    s.NoCollision ↔ (s.autoIds.issued.map fun a => (a.device, a.name)).Pairwise fun p q =>
      p.1 ≠ q.1 → p.2 ≠ q.2 := by
  rw [List.pairwise_map]
  rfl

/-- So no two messages have the same one. -/
theorem nodup_names {as : List (Action δ)} (hclocks : AutoIds.Clocks (as.filterMap idCall?))
    (hrun : Runs.run (step uid convo) launch as = some s) (hcollision : s.NoCollision) :
    (s.autoIds.issued.map IssuedId.name).Nodup := by
  have hinv := AutoIds.invariant_of_run hclocks (run_autoIds hrun)
  rw [List.Nodup, List.pairwise_map]
  refine (hinv.increasing.and hcollision).imp ?_
  rintro a b ⟨hlt, hne⟩ heq
  by_cases hdevice : a.device = b.device
  · have hself := FUtilities.compares_compareNames a.name b.name
    rw [hlt hdevice, heq] at hself
    exact lt_irrefl _ hself
  · exact hne hdevice heq

/-- **What holds after every run**, where no names collide. -/
theorem good_of_run (hconvo : ∀ x, FPath.IsPiece (convo x)) {as : List (Action δ)}
    (hvalid : ∀ a ∈ as, a.Valid) (hrun : Runs.run (step uid convo) launch as = some s)
    (hnd : (s.autoIds.issued.map IssuedId.name).Nodup) : s.Good convo := by
  suffices h : (s.autoIds.issued.map IssuedId.name).Nodup → s.Good convo from h hnd
  refine Runs.run_history (fun _ s => (s.autoIds.issued.map IssuedId.name).Nodup → s.Good convo)
    (fun _ => good_launch convo) ?_ (List.prefix_refl _) hrun
  intro hist a r r' hpre _ hr hr' hnd'
  have ha : a ∈ as := hpre.subset (by simp)
  have hnd : (r.autoIds.issued.map IssuedId.name).Nodup :=
    hnd'.sublist ((issued_isPrefix_of_step hr').sublist.map _)
  exact ((hr hnd).step hconvo (hvalid a ha) hr' hnd').1

end Messenger

open Messenger in
/-- **Every open chat shows what its device knows.** Whatever the devices have done, and
however little of it the database has taken or told them, a call of the observer of an open
chat does not trap, and the chat then shows each message that its device knows of the
conversation exactly once, with the fields it was sent with, as outgoing if the reader sent
it, and by date. -/
theorem deliver_shows {δ : Type} [DecidableEq δ] {uid convo : δ → String}
    (hconvo : ∀ x, FPath.IsPiece (convo x)) {as : List (Action δ)} (hvalid : ∀ a ∈ as, a.Valid)
    (hclocks : AutoIds.Clocks (as.filterMap idCall?)) {s : Messenger δ}
    (hrun : Runs.run (step uid convo) launch as = some s) (hcollision : s.NoCollision)
    (x : δ) (e : Enumeration) {calls : ℕ → Backend.Calls}
    (hcalls : FreshCalls calls (s.visible x (convo x)).length) :
    ∃ s', s.step uid convo (.deliver x e calls) = some s' ∧
      (s'.chat x).ShowsSent (uid x) (s.visible x (convo x)) ∧
      ∀ y, y ≠ x → s'.chat y = s.chat y := by
  have hgood := good_of_run hconvo hvalid hrun (nodup_names hclocks hrun hcollision)
  obtain ⟨chat, hchat, hshows⟩ : ∃ chat, (s.chat x).receive (uid x)
      ⟨e.apply (s.conversation x (convo x)), calls⟩ = some chat ∧
      chat.ShowsSent (uid x) (s.visible x (convo x)) := hgood.deliver (hconvo x) e hcalls
  refine ⟨{ s with chat := Function.update s.chat x chat }, ?_, ?_, ?_⟩
  · rw [step, hchat]
    rfl
  · simpa using hshows
  · intro y hy
    exact Function.update_of_ne hy ..

/-- Two devices write to each other, and one of them has been told of both messages. -/
def sampleActions : List (Action Bool) :=
  [.sendMessage true 5 (fun _ => ⟨1, by decide⟩) ⟨"c", "User", ⟨0⟩, .replicate 0, "Hello"⟩,
    .sendMessage false 5 (fun _ => ⟨2, by decide⟩) ⟨"c", "Other", ⟨0⟩, .replicate 1, "Goodbye"⟩,
    .take true, .tell false 1]

/-- Their users. -/
def sampleUsers (x : Bool) : String := if x then "u" else "v"

theorem valid_sampleActions : ∀ a ∈ sampleActions, a.Valid := by
  have hpiece : FPath.IsPiece "c" := ⟨by decide, by decide⟩
  simp [sampleActions, Action.Valid, hpiece]

theorem clocks_sampleActions : AutoIds.Clocks (sampleActions.filterMap Messenger.idCall?) := by
  have hcalls : sampleActions.filterMap Messenger.idCall? =
      [⟨true, 5, fun _ => ⟨1, by decide⟩⟩, ⟨false, 5, fun _ => ⟨2, by decide⟩⟩] := rfl
  rw [hcalls]
  exact ⟨by simp, by simp⟩

theorem run_sampleActions : ∃ s,
    Runs.run (Messenger.step sampleUsers fun _ => "c") .launch sampleActions = some s ∧
      s.NoCollision ∧ (s.visible false "c").length = 2 := by
  have hrun : (Runs.run (Messenger.step sampleUsers fun _ => "c") .launch sampleActions).map
      (fun s => (s.autoIds.issued.map fun a => (a.device, a.name), (s.visible false "c").length)) =
      some ([(true, "-------4000000000000"), (false, "-------4111111111111")], 2) := by
    decide +kernel
  obtain ⟨s, hs, heq⟩ := Option.map_eq_some_iff.mp hrun
  obtain ⟨hissued, hlen⟩ := Prod.mk.inj heq
  refine ⟨s, hs, ?_, hlen⟩
  rw [Messenger.noCollision_iff, hissued]
  decide

theorem deliver_shows_sampleActions : ∃ s s',
    Runs.run (Messenger.step sampleUsers fun _ => "c") .launch sampleActions = some s ∧
      s.step sampleUsers (fun _ => "c")
        (.deliver false ⟨List.reverse, List.reverse_perm⟩ sampleCalls) = some s' ∧
      (s'.chat false).ShowsSent "v" (s.visible false "c") ∧
      ∀ y, y ≠ false → s'.chat y = s.chat y := by
  obtain ⟨s, hs, hcollision, hlen⟩ := run_sampleActions
  have hcalls : Messenger.FreshCalls sampleCalls (s.visible false "c").length := by
    rw [hlen, Messenger.FreshCalls]
    decide
  obtain ⟨s', hs', hshows⟩ := deliver_shows (fun _ => ⟨by decide, by decide⟩)
    valid_sampleActions clocks_sampleActions hs hcollision false ⟨List.reverse, List.reverse_perm⟩
    hcalls
  exact ⟨s, s', hs, hs', hshows⟩

/-! ## What is sent and what is known -/

/-- What the message was made of, by whom. -/
def SentMessage.draft (id : String) (m : SentMessage) : String × Draft :=
  (m.user, ⟨id, m.username, m.date, m.messageId, m.text⟩)

namespace Messenger

open BackendWrite

variable {δ : Type} [DecidableEq δ] {uid convo : δ → String} {s s' t : Messenger δ} {x y : δ}
  {id : String}

/-- What a device sends, and its user. -/
def draftBy? (uid : δ → String) (y : δ) : Action δ → Option (String × Draft)
  | .sendMessage x _ _ draft => if x = y then some (uid x, draft) else none
  | _ => none

/-- What is sent to a conversation. -/
def draftTo? (uid : δ → String) (id : String) : Action δ → Option (String × Draft)
  | .sendMessage x _ _ draft => if draft.id = id then some (uid x, draft) else none
  | _ => none

/-- The writes of a device are the messages that it sent, in the order in which it sent them,
and others. -/
def InOrder (uid : δ → String) (as : List (Action δ)) (s : Messenger δ) : Prop :=
  ∀ y, (s.taken y ++ s.outbox y).filterMap draft? = as.filterMap (draftBy? uid y)

/-- A write of a device. -/
theorem InOrder.push {as : List (Action δ)} (h : InOrder uid as s) {a : Action δ}
    {w : BackendWrite} (hlog : s'.log = s.log)
    (houtbox : s'.outbox = Function.update s.outbox x (s.outbox x ++ [w]))
    (ha : ∀ y, draftBy? uid y a = if x = y then w.draft? else none) :
    InOrder uid (as ++ [a]) s' := by
  intro y
  have htaken : s'.taken y = s.taken y := by rw [taken, taken, hlog]
  have haction : [a].filterMap (draftBy? uid y) = (if x = y then w.draft? else none).toList := by
    rw [← ha]
    cases h : draftBy? uid y a <;> simp [h]
  have happend : (as ++ [a]).filterMap (draftBy? uid y) =
      as.filterMap (draftBy? uid y) ++ [a].filterMap (draftBy? uid y) := List.filterMap_append
  rw [htaken, happend, ← h y, haction]
  by_cases hy : x = y
  · subst hy
    rw [houtbox, Function.update_self, ← List.append_assoc, List.filterMap_append, if_pos rfl]
    cases hw : w.draft? <;> simp [hw]
  · rw [houtbox, Function.update_of_ne (Ne.symm hy), if_neg hy, Option.toList_none,
      List.append_nil]

/-- Nothing is written. -/
theorem InOrder.keep {as : List (Action δ)} (h : InOrder uid as s) {a : Action δ}
    (hsame : ∀ y, s'.taken y ++ s'.outbox y = s.taken y ++ s.outbox y)
    (ha : ∀ y, draftBy? uid y a = none) : InOrder uid (as ++ [a]) s' := by
  intro y
  rw [hsame, h y, List.filterMap_append, List.filterMap_cons_none (ha y), List.filterMap_nil,
    List.append_nil]

theorem InOrder.step {as : List (Action δ)} (h : InOrder uid as s) {a : Action δ} (ha : a.Valid)
    (hs : s.step uid convo a = some s') : InOrder uid (as ++ [a]) s' := by
  cases a with
  | sendMessage x now rand draft =>
    obtain ⟨p, -, rfl⟩ := Option.map_eq_some_iff.mp hs
    exact h.push (x := x) rfl rfl fun y => rfl
  | write x w =>
    obtain rfl := Option.some.inj hs
    refine h.push (x := x) rfl rfl fun y => ?_
    cases w with
    | sendMessage id m => exact absurd ha not_false
    | _ => exact (ite_self _).symm
  | take x =>
    cases hx : s.outbox x with
    | nil => simp [Messenger.step, hx] at hs
    | cons w ws =>
      simp only [Messenger.step, hx, Option.some.injEq] at hs
      subst hs
      refine h.keep (fun y => ?_) fun y => rfl
      -- the write is the last that was taken, instead of the first that was not
      by_cases hy : x = y
      · subst hy
        simp [taken, hx]
      · simp [taken, hy, Function.update_of_ne (Ne.symm hy)]
  | tell x n =>
    rw [Messenger.step] at hs
    split at hs
    · obtain rfl := Option.some.inj hs
      exact h.keep (fun y => rfl) fun y => rfl
    · cases hs
  | deliver x e calls =>
    obtain ⟨chat, -, rfl⟩ := Option.map_eq_some_iff.mp hs
    exact h.keep (fun y => rfl) fun y => rfl

theorem inOrder_of_run {as : List (Action δ)} (hvalid : ∀ a ∈ as, a.Valid)
    (hrun : Runs.run (step uid convo) launch as = some s) : InOrder uid as s := by
  refine Runs.run_history (fun hist s => InOrder uid hist s) (fun y => rfl) ?_
    (List.prefix_refl _) hrun
  intro hist a r r' hpre _ hr hr'
  exact hr.step (hvalid a (hpre.subset (by simp))) hr'

/-- A message that a device sends, and its user. -/
def sends? (uid : δ → String) : Action δ → Option (δ × String × Draft)
  | .sendMessage x _ _ draft => some (x, uid x, draft)
  | _ => none

/-- Two lists of pairs with the same second components for each first one. -/
theorem perm_of_filter_fst {α β : Type} [DecidableEq α] {l l' : List (α × β)}
    (h : ∀ a, (l.filter fun p => p.1 = a).map Prod.snd =
      (l'.filter fun p => p.1 = a).map Prod.snd) : l.Perm l' := by
  classical
  have hpairs (l : List (α × β)) (a : α) : l.filter (fun p => p.1 = a) =
      ((l.filter fun p => p.1 = a).map Prod.snd).map (Prod.mk a) := by
    rw [List.map_map]
    refine (List.map_id _).symm.trans (List.map_congr_left fun p hp => ?_)
    exact Prod.ext (of_decide_eq_true (List.mem_filter.mp hp).2) rfl
  refine List.perm_iff_count.mpr fun p => ?_
  have hcount (l : List (α × β)) : l.count p = (l.filter fun q => q.1 = p.1).count p :=
    (List.count_filter (p := fun q : α × β => decide (q.1 = p.1)) (decide_eq_true rfl)).symm
  rw [hcount l, hcount l', hpairs l, hpairs l', h]

/-- The messages to a conversation, by what they were made of. -/
theorem draft_sentTo? (id : String) (ws : List BackendWrite) :
    (ws.filterMap (sentTo? id)).map (SentMessage.draft id) =
      (ws.filterMap draft?).filter fun d => d.2.id = id := by
  induction ws with
  | nil => rfl
  | cons w ws ih =>
    cases w with
    | sendMessage id' m =>
      by_cases h : id' = id
      · subst h
        simp [sentTo?, draft?, SentMessage.draft, ih]
      · simp [sentTo?, draft?, h, ih]
    | updateUsername uid username => exact ih
    | createConvo uid res => exact ih
    | setConvoName id' name => exact ih

omit [DecidableEq δ] in
/-- What was sent is what the devices sent. -/
theorem draftTo?_eq (uid : δ → String) (id : String) (as : List (Action δ)) :
    as.filterMap (draftTo? uid id) = ((as.filterMap (sends? uid)).map Prod.snd).filter
      fun d => d.2.id = id := by
  induction as with
  | nil => rfl
  | cons a as ih =>
    cases a with
    | sendMessage x now rand draft =>
      by_cases h : draft.id = id <;> simp [draftTo?, sends?, h, ih]
    | _ => exact ih

theorem draftBy?_eq (uid : δ → String) (y : δ) (as : List (Action δ)) :
    ((as.filterMap (sends? uid)).filter fun p => p.1 = y).map Prod.snd =
      as.filterMap (draftBy? uid y) := by
  induction as with
  | nil => rfl
  | cons a as ih =>
    cases a with
    | sendMessage x now rand draft =>
      by_cases h : x = y <;> simp [draftBy?, sends?, h, ih]
    | _ => exact ih

/-- The messages in the log, with the devices that sent them. -/
def logged (log : List (δ × BackendWrite)) : List (δ × String × Draft) :=
  log.filterMap fun p => p.2.draft?.map (Prod.mk p.1)

omit [DecidableEq δ] in
theorem map_snd_logged (log : List (δ × BackendWrite)) :
    (logged log).map Prod.snd = (log.map Prod.snd).filterMap draft? := by
  rw [logged, List.filterMap_map, List.map_filterMap]
  refine List.filterMap_congr fun p _ => ?_
  cases h : p.2.draft? <;> simp [h]

theorem filter_logged (log : List (δ × BackendWrite)) (y : δ) :
    ((logged log).filter fun p => p.1 = y).map Prod.snd =
      ((log.filter fun p => p.1 = y).map Prod.snd).filterMap draft? := by
  induction log with
  | nil => rfl
  | cons p log ih =>
    have hcons : logged (p :: log) = (p.2.draft?.map (Prod.mk p.1)).toList ++ logged log := by
      rw [logged, List.filterMap_cons]
      cases p.2.draft? <;> rfl
    rw [hcons, List.filter_append, List.map_append, ih, List.filter_cons]
    by_cases h : p.1 = y
    · cases hd : p.2.draft? <;> simp [h, hd]
    · cases hd : p.2.draft? <;> simp [h]

/-- **When the database has taken all**, it has what was sent. -/
theorem InOrder.log_perm {as : List (Action δ)} (h : InOrder uid as s)
    (hquiet : ∀ y, s.outbox y = []) :
    ((s.log.map Prod.snd).filterMap draft?).Perm ((as.filterMap (sends? uid)).map Prod.snd) := by
  rw [← map_snd_logged]
  refine (perm_of_filter_fst fun y => ?_).map _
  have hy := h y
  rwa [hquiet y, List.append_nil, ← draftBy?_eq, taken, ← filter_logged] at hy

/-- **Nothing is forgotten** in a run from a state that a run has reached. -/
theorem view_sublist_of_run (hconvo : ∀ x, FPath.IsPiece (convo x)) {as bs : List (Action δ)}
    (hvalid : ∀ a ∈ as ++ bs, a.Valid) (hrun : Runs.run (step uid convo) launch as = some s)
    (hrun' : Runs.run (step uid convo) s bs = some t)
    (hnd : (t.autoIds.issued.map IssuedId.name).Nodup) (x : δ) :
    (s.view x).Sublist (t.view x) := by
  refine Runs.run_history (fun _ r => (s.view x).Sublist (r.view x)) (.refl _) ?_
    (List.prefix_refl _) hrun'
  rintro hist a r r' ⟨rest, hbs⟩ hr hle hr'
  -- the names made up to here are among those made in the end
  have hend : Runs.run (step uid convo) r' rest = some t := by
    rw [← hbs, Runs.run_append, Runs.run_concat, hr] at hrun'
    simpa [hr'] using hrun'
  have hnd' : (r'.autoIds.issued.map IssuedId.name).Nodup :=
    hnd.sublist ((issued_isPrefix_of_run hend).sublist.map _)
  have hreach : Runs.run (step uid convo) launch (as ++ hist) = some r := by
    rw [Runs.run_append, hrun]
    exact hr
  have hgood : r.Good convo := by
    refine good_of_run hconvo (fun b hb => hvalid b ?_) hreach
      (hnd'.sublist ((issued_isPrefix_of_step hr').sublist.map _))
    rw [← hbs, List.append_assoc, ← List.append_assoc]
    exact List.mem_append_left _ hb
  refine hle.trans ((hgood.step hconvo (hvalid a ?_) hr' hnd').2 x)
  rw [← hbs]
  simp

/-- A device knows what it sent. -/
theorem own_sublist_view (s : Messenger δ) (x : δ) :
    (s.taken x ++ s.outbox x).Sublist (s.view x) := by
  have htaken : s.taken x = ((s.log.take (s.told x)).filter fun p => p.1 = x).map Prod.snd ++
      ((s.log.drop (s.told x)).filter fun p => p.1 = x).map Prod.snd := by
    rw [taken, ← List.map_append, ← List.filter_append, List.take_append_drop]
  rw [htaken, view, List.append_assoc]
  refine List.Sublist.append ?_ (List.Sublist.refl _)
  exact List.filter_sublist.map _

end Messenger

open Messenger BackendWrite in
/-- **No message is lost or doubled.** A device knows its own messages as soon as it has
sent them, and what it knows of a conversation it does not forget; and when the database
has taken all writes and told them to a device, that knows each message which any device
has sent to the conversation, exactly once. -/
theorem messages_kept {δ : Type} [DecidableEq δ] {uid convo : δ → String}
    (hconvo : ∀ x, FPath.IsPiece (convo x)) {as bs : List (Action δ)}
    (hvalid : ∀ a ∈ as ++ bs, a.Valid)
    (hclocks : AutoIds.Clocks ((as ++ bs).filterMap idCall?)) {s t : Messenger δ}
    (hrun : Runs.run (step uid convo) launch as = some s)
    (hrun' : Runs.run (step uid convo) s bs = some t) (hcollision : t.NoCollision) (x : δ)
    (id : String) :
    ((as.filterMap (draftBy? uid x)).filter fun d => d.2.id = id).Sublist
        ((s.visible x id).map (SentMessage.draft id)) ∧
      (s.visible x id).Sublist (t.visible x id) ∧
      ((∀ y, s.outbox y = []) ∧ s.told x = s.log.length →
        ((s.visible x id).map (SentMessage.draft id)).Perm (as.filterMap (draftTo? uid id))) := by
  have hinOrder := inOrder_of_run (fun a ha => hvalid a (List.mem_append_left _ ha)) hrun
  refine ⟨?_, ?_, ?_⟩
  · rw [visible, draft_sentTo?, ← hinOrder x]
    exact ((own_sublist_view s x).filterMap _).filter _
  · have hreach : Runs.run (step uid convo) launch (as ++ bs) = some t := by
      rw [Runs.run_append, hrun]
      exact hrun'
    have hnd := nodup_names hclocks hreach hcollision
    exact (view_sublist_of_run hconvo hvalid hrun hrun' hnd x).filterMap _
  · rintro ⟨hquiet, htold⟩
    have hview : s.view x = s.log.map Prod.snd := by
      rw [view, htold, hquiet x, List.take_length, List.drop_length]
      simp
    rw [visible, draft_sentTo?, hview, draftTo?_eq]
    exact (hinOrder.log_perm hquiet).filter _

/-- The same devices, and nothing after that. -/
theorem messages_kept_sampleActions : ∃ s,
    Runs.run (Messenger.step sampleUsers fun _ => "c") .launch sampleActions = some s ∧
      ((sampleActions.filterMap (Messenger.draftBy? sampleUsers false)).filter
          fun d => d.2.id = "c").Sublist ((s.visible false "c").map (SentMessage.draft "c")) ∧
      (s.visible false "c").Sublist (s.visible false "c") ∧
      ((∀ y, s.outbox y = []) ∧ s.told false = s.log.length →
        ((s.visible false "c").map (SentMessage.draft "c")).Perm
          (sampleActions.filterMap (Messenger.draftTo? sampleUsers "c"))) := by
  obtain ⟨s, hs, hcollision, -⟩ := run_sampleActions
  have hvalid : ∀ a ∈ sampleActions ++ [], a.Valid := by
    rw [List.append_nil]
    exact valid_sampleActions
  have hclocks : AutoIds.Clocks ((sampleActions ++ []).filterMap Messenger.idCall?) := by
    rw [List.append_nil]
    exact clocks_sampleActions
  exact ⟨s, hs, messages_kept (fun _ => ⟨by decide, by decide⟩) hvalid hclocks hs rfl hcollision
    false "c"⟩

end MoonMessenger
