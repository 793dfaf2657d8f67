import MoonMessenger.Messenger
import MoonMessenger.SameValue
import MoonMessenger.StoredWrites

/-!
# The clients of the database

The devices of `Messenger`, each with the client that runs on it: the data that it has from
the server, and its pending writes (`FRepo.m`, `FSyncTree.m`). A device is sent the writes
that the database has taken one by one, and the acknowledgement of its own right after it.

What an observer is told is calculated as for one that is new (`getView:` in
`FSyncPoint.m`); the incremental updates of `FViewProcessor.m` are left out, and so are
deferred values, transactions, writes that are rejected and the cache on disk, which the app
does not use. A client has the data of the whole database, and not only of what it listens
to.

* `clients_show` — at each path, a client shows what the device reads in `Messenger`.
* `clients_refine` — every run of the clients is one of `Messenger`, but for the order in
  which a node is enumerated.
* `clients_deliver` — so a chat shows the messages that are known, also on top of a client.
-/

namespace MoonMessenger

/-- The parts of `FRepo` and its `serverSyncTree` that writes go through. -/
structure FRepo where
  writeIdCounter : ℤ
  serverCache : FNode
  pendingWriteTree : FWriteTree

namespace FRepo

/-- `init` -/
def init : FRepo := ⟨0, .emptyNode, .init⟩

/-- `nextWriteId` -/
def nextWriteId (r : FRepo) : ℤ × FRepo :=
  (r.writeIdCounter, { r with writeIdCounter := r.writeIdCounter + 1 })

/-- `applyUserOverwriteAtPath:`; `none` when it throws. -/
def applyUserOverwriteAtPath (r : FRepo) (path : FPath) (newData : FNode) (writeId : ℤ)
    (isVisible : Bool) : Option FRepo := do
  let pendingWriteTree ← r.pendingWriteTree.addOverwriteAtPath ⟨writeId, path, newData, isVisible⟩
  return { r with pendingWriteTree }

/-- `set:withNode:`, and the id that its callback keeps. -/
def set (r : FRepo) (path : FPath) (node : FNode) : Option (ℤ × FRepo) := do
  let (writeId, r) := r.nextWriteId
  let r ← r.applyUserOverwriteAtPath path node writeId true
  return (writeId, r)

/-- `ackUserWriteWithWriteId:`, of a write that was accepted. -/
def ackUserWriteWithWriteId (r : FRepo) (writeId : ℤ) : Option FRepo := do
  let (pendingWriteTree, _) ← r.pendingWriteTree.removeWriteId writeId
  return { r with pendingWriteTree }

/-- `onDataUpdate:` -/
def onDataUpdate (r : FRepo) (path : FPath) (data : Json) : FRepo :=
  { r with serverCache := r.serverCache.updateChild path (.nodeFrom data) }

/-- `getView:`: the node that an observer of `path` is told. -/
def eventCache (r : FRepo) (path : FPath) : Option (Option FNode) :=
  r.pendingWriteTree.calculateCompleteEventCacheAtPath path (some (r.serverCache.getChild path))
    none false

end FRepo

/-- A put on its way: what it writes, and the id that its callback keeps. -/
structure Put where
  writeId : ℤ
  write : BackendWrite

/-- The record of it in the client. -/
def Put.record (put : Put) : FWriteRecord :=
  ⟨put.writeId, put.write.path, .nodeFrom put.write.value, true⟩

/-- The database tells the device `x` of a put that it has taken. -/
def FRepo.hear {δ : Type} [DecidableEq δ] (x : δ) (r : FRepo) (p : δ × Put) : Option FRepo :=
  let r := r.onDataUpdate p.2.write.path p.2.write.value
  if p.1 = x then r.ackUserWriteWithWriteId p.2.writeId else some r

/-- The devices with their clients, and the database. -/
structure Clients (δ : Type) where
  autoIds : AutoIds δ
  /-- the puts the database has taken, and the devices that made them -/
  log : List (δ × Put)
  /-- the puts of a device that the database has not taken, the oldest first -/
  outbox : δ → List Put
  /-- how many puts a device has been told -/
  told : δ → ℕ
  repo : δ → FRepo
  chat : δ → ChatView

namespace Clients

variable {δ : Type} [DecidableEq δ]

/-- All devices are launched, on an empty database. -/
def launch : Clients δ := ⟨.launch, [], fun _ => [], fun _ => 0, fun _ => .init, fun _ => .new⟩

/-- A device makes a write. -/
def set (c : Clients δ) (x : δ) (w : BackendWrite) : Option (Clients δ) := do
  let (writeId, repo) ← (c.repo x).set w.path (.nodeFrom w.value)
  return { c with
    outbox := Function.update c.outbox x (c.outbox x ++ [⟨writeId, w⟩])
    repo := Function.update c.repo x repo }

/-- One step, where the device `x` is signed in as `uid x` and has the chat of `convo x`
open. -/
def step (uid convo : δ → String) (c : Clients δ) : Action δ → Option (Clients δ)
  | .sendMessage x now rand draft => do
    let p ← c.autoIds.childByAutoId ⟨x, now, rand⟩
    { c with autoIds := p.2 }.set x (.sendMessage draft.id (draft.sent (uid x) p.1))
  | .write x w => c.set x w
  | .take x =>
    match c.outbox x with
    | [] => none
    | put :: puts => some { c with
        log := c.log ++ [(x, put)]
        outbox := Function.update c.outbox x puts }
  | .tell x n =>
    if c.told x ≤ n ∧ n ≤ c.log.length then do
      let repo ← ((c.log.take n).drop (c.told x)).foldlM (FRepo.hear x) (c.repo x)
      return { c with
        told := Function.update c.told x n
        repo := Function.update c.repo x repo }
    else none
  | .deliver x e calls => do
    match ← (c.repo x).eventCache (FPath.initWith ("conversations" ++ "/" ++ convo x)) with
    | none => return c
    | some node =>
      let chat ← (c.chat x).receive (uid x) ⟨e.apply node.val, calls⟩
      return { c with chat := Function.update c.chat x chat }

/-- What the devices read, and what has become of their writes. -/
def messenger (c : Clients δ) : Messenger δ where
  autoIds := c.autoIds
  log := c.log.map fun p => (p.1, p.2.write)
  outbox x := (c.outbox x).map Put.write
  told := c.told
  chat := c.chat

/-- The puts of a device that it has not been told of. -/
def pending (c : Clients δ) (x : δ) : List Put :=
  ((c.log.drop (c.told x)).filter fun p => p.1 = x).map Prod.snd ++ c.outbox x

end Clients

/-- The same, but for the order in which a node is enumerated. -/
inductive Action.SameButOrder {δ : Type} : Action δ → Action δ → Prop
  | refl (a : Action δ) : SameButOrder a a
  | deliver (x : δ) (e e' : Enumeration) (calls : ℕ → Backend.Calls) :
      SameButOrder (.deliver x e calls) (.deliver x e' calls)

/-! ## One client -/

namespace FRepo

open BackendWrite

/-- The client has been told these writes, and these puts are pending. -/
structure Follows (r : FRepo) (heard : List BackendWrite) (puts : List Put) : Prop where
  valid : ∀ w ∈ heard ++ puts.map Put.write, w.Valid
  serverCache : r.serverCache = database heard
  counter : 0 ≤ r.writeIdCounter
  holds : r.pendingWriteTree.Holds (puts.map Put.record) (r.writeIdCounter - 1)
  stores : r.pendingWriteTree.Stores

variable {r : FRepo} {heard : List BackendWrite} {puts : List Put} {put : Put} {w : BackendWrite}
  {path : FPath}

theorem follows_init : init.Follows [] [] where
  valid _ h := absurd h List.not_mem_nil
  serverCache := rfl
  counter := le_rfl
  holds := FWriteTree.holds_init
  stores := FWriteTree.stores_init

/-- **A write is made** and stays pending. -/
theorem Follows.set (h : r.Follows heard puts) (hw : w.Valid) :
    ∃ r', r.set w.path (.nodeFrom w.value) = some (r.writeIdCounter, r') ∧
      r'.Follows heard (puts ++ [⟨r.writeIdCounter, w⟩]) := by
  have hid : r.writeIdCounter - 1 < (Put.record ⟨r.writeIdCounter, w⟩).writeId := by
    simp [Put.record]
  obtain ⟨t', ht', hholds⟩ := h.holds.addOverwriteAtPath hid rfl hw.isEmpty
  have hstores := h.stores.addOverwriteAtPath (FNode.wellFormed_nodeFrom hw.stored) ht'
  refine ⟨⟨r.writeIdCounter + 1, r.serverCache, t'⟩, ?_, ?_, h.serverCache, ?_, ?_, hstores⟩
  · have hadd : r.pendingWriteTree.addOverwriteAtPath
        ⟨r.writeIdCounter, w.path, .nodeFrom w.value, true⟩ = some t' := ht'
    simp [FRepo.set, nextWriteId, applyUserOverwriteAtPath, hadd]
  · intro w' hw'
    rw [List.map_append, ← List.append_assoc] at hw'
    rcases List.mem_append.mp hw' with hw' | hw'
    · exact h.valid w' hw'
    · rw [List.mem_singleton.mp hw']
      exact hw
  · exact Int.add_nonneg h.counter (by decide)
  · simpa [Put.record] using hholds

/-- **Data come** from the server. -/
theorem Follows.onDataUpdate (h : r.Follows heard puts) (hw : w.Valid) :
    (r.onDataUpdate w.path w.value).Follows (heard ++ [w]) puts where
  valid w' hw' := by
    simp only [List.mem_append, List.mem_singleton] at hw'
    rcases hw' with (hw' | rfl) | hw'
    · exact h.valid w' (List.mem_append_left _ hw')
    · exact hw
    · exact h.valid w' (List.mem_append_right _ hw')
  serverCache := by
    rw [database, List.foldl_append, ← database, ← h.serverCache]
    rfl
  counter := h.counter
  holds := h.holds
  stores := h.stores

/-- **The oldest write is acknowledged.** -/
theorem Follows.ack (h : r.Follows heard (put :: puts)) :
    ∃ r', r.ackUserWriteWithWriteId put.writeId = some r' ∧ r'.Follows heard puts := by
  have hlast : -1 ≤ r.writeIdCounter - 1 := by
    have := h.counter
    omega
  have hremovable : FWriteTree.Removable [] put.record (puts.map Put.record) :=
    Or.inr fun w' hw' => absurd hw' List.not_mem_nil
  have hholds : r.pendingWriteTree.Holds ([] ++ put.record :: puts.map Put.record)
      (r.writeIdCounter - 1) := h.holds
  obtain ⟨t', changed, ht', hholds'⟩ := hholds.removeWriteId hlast hremovable
  have hremove : r.pendingWriteTree.removeWriteId put.writeId = some (t', changed) := ht'
  refine ⟨⟨r.writeIdCounter, r.serverCache, t'⟩, ?_, ?_, h.serverCache, h.counter, hholds',
    h.stores.removeWriteId ht'⟩
  · simp [ackUserWriteWithWriteId, hremove]
  · intro w' hw'
    refine h.valid w' ?_
    rw [List.map_cons]
    exact ((List.sublist_cons_self _ _).append_left heard).subset hw'

/-- The client is told one put after the other. -/
theorem Follows.foldlM_hear {δ : Type} [DecidableEq δ] {x : δ} {ps : List (δ × Put)}
    (h : r.Follows heard ((ps.filter fun p => p.1 = x).map Prod.snd ++ puts))
    (hps : ∀ p ∈ ps, p.2.write.Valid) : ∃ r', ps.foldlM (hear x) r = some r' ∧
      r'.Follows (heard ++ ps.map fun p => p.2.write) puts := by
  induction ps generalizing r heard with
  | nil => exact ⟨r, rfl, by simpa using h⟩
  | cons p ps ih =>
    rw [List.forall_mem_cons] at hps
    rw [List.map_cons, List.append_cons, List.foldlM_cons, hear]
    by_cases hx : p.1 = x
    · rw [List.filter_cons_of_pos (by simpa using hx)] at h
      obtain ⟨r', hr', h'⟩ := (h.onDataUpdate hps.1).ack
      rw [if_pos hx, hr']
      exact ih h' hps.2
    · rw [List.filter_cons_of_neg (by simpa using hx)] at h
      rw [if_neg hx]
      exact ih (h.onDataUpdate hps.1) hps.2

/-- The writes of the app, as they are made to a tree. -/
theorem leaves_foldl_set {n : FNode} {ws : List BackendWrite} (hws : ∀ w ∈ ws, w.Valid) :
    (ws.foldl BackendWrite.set n).leaves =
      PathMap.replay (ws.map fun w => (w.path, (FNode.nodeFrom w.value).leaves)) n.leaves := by
  induction ws generalizing n with
  | nil => rfl
  | cons w ws ih =>
    rw [List.forall_mem_cons] at hws
    rw [List.foldl_cons, ih hws.2, List.map_cons, PathMap.replay_cons, BackendWrite.set,
      FNode.leaves_updateChild hws.1.isEmpty]

/-- **What is shown at a path** is what the writes have made there. -/
theorem Follows.eventCache (h : r.Follows heard puts) (path : FPath) :
    ∃ n, r.eventCache path = some (some n) ∧ n.Proper ∧
      n.leaves = ((database (heard ++ puts.map Put.write)).getChild path).leaves := by
  have hheard : ∀ w ∈ heard, w.Valid := fun w hw => h.valid w (List.mem_append_left _ hw)
  have hputs : ∀ w ∈ puts.map Put.write, w.Valid := fun w hw =>
    h.valid w (List.mem_append_right _ hw)
  obtain ⟨n, hn, hleaves⟩ := h.holds.cache (FNode.below_leaves (n := r.serverCache))
  refine ⟨n, hn, ?_, ?_⟩
  · refine h.stores.proper_cache h.holds.proper (FNode.Proper.getChild ?_ path) hn
    rw [h.serverCache]
    exact (Registers.heldBy_database hheard).proper
  · rw [hleaves, ← FNode.below_leaves, database, List.foldl_append, leaves_foldl_set hputs,
      h.serverCache, List.map_map, List.map_map]
    rfl

end FRepo

/-! ## All clients -/

namespace Clients

open BackendWrite

variable {δ : Type} [DecidableEq δ] {c c' : Clients δ} {x : δ}
  {w : BackendWrite}

/-- What holds of the clients: each of them has been told the writes that it should have,
and the others of the device are pending. -/
structure Good (c : Clients δ) : Prop where
  valid : ∀ p ∈ c.log, p.2.write.Valid
  told : ∀ x, c.told x ≤ c.log.length
  repo : ∀ x, (c.repo x).Follows ((c.log.take (c.told x)).map fun p => p.2.write) (c.pending x)

theorem map_write_update (outbox : δ → List Put) (x : δ) (puts : List Put) :
    (fun y => (Function.update outbox x puts y).map Put.write) =
      Function.update (fun y => (outbox y).map Put.write) x (puts.map Put.write) :=
  Function.comp_update (List.map Put.write) outbox x puts

/-- What a device reads is what it has been told, and then its pending writes. -/
theorem view_messenger (c : Clients δ) (x : δ) : c.messenger.view x =
    (c.log.take (c.told x)).map (fun p => p.2.write) ++ (c.pending x).map Put.write := by
  have hown (l : List (δ × Put)) : ((l.map fun p => (p.1, p.2.write)).filter fun p => p.1 = x) =
      (l.filter fun p => p.1 = x).map fun p => (p.1, p.2.write) := by
    rw [List.filter_map]
    rfl
  simp [Messenger.view, messenger, pending, ← List.map_take, ← List.map_drop, hown,
    Function.comp_def]

theorem good_launch : (launch : Clients δ).Good where
  valid _ h := absurd h List.not_mem_nil
  told _ := le_rfl
  repo _ := FRepo.follows_init

/-- **A client shows** what its device reads. -/
theorem Good.eventCache (h : c.Good) (x : δ) (path : FPath) :
    ∃ n, (c.repo x).eventCache path = some (some n) ∧
      n.val.Same ((database (c.messenger.view x)).getChild path).val := by
  obtain ⟨n, hn, hproper, hleaves⟩ := (h.repo x).eventCache path
  refine ⟨n, hn, ?_⟩
  rw [view_messenger]
  refine hproper.same_val (FNode.Proper.getChild ?_ path) hleaves
  exact (Registers.heldBy_database (h.repo x).valid).proper

theorem Good.set (h : c.Good) (hw : w.Valid) (x : δ) : ∃ c', c.set x w = some c' ∧ c'.Good ∧
    c'.messenger = { c.messenger with
      outbox := Function.update c.messenger.outbox x (c.messenger.outbox x ++ [w]) } := by
  obtain ⟨r', hr', hfollows⟩ := (h.repo x).set hw
  refine ⟨{ c with
    outbox := Function.update c.outbox x (c.outbox x ++ [⟨(c.repo x).writeIdCounter, w⟩])
    repo := Function.update c.repo x r' }, ?_, ⟨h.valid, h.told, fun y => ?_⟩, ?_⟩
  · rw [Clients.set, hr']
    rfl
  · by_cases hy : y = x
    · subst hy
      simpa [pending] using hfollows
    · simpa [pending, Function.update_of_ne hy] using h.repo y
  · simp [messenger, map_write_update]

/-- **The database takes a write.** -/
theorem Good.take (h : c.Good) {put : Put} {puts : List Put} (hx : c.outbox x = put :: puts) :
    Good { c with log := c.log ++ [(x, put)], outbox := Function.update c.outbox x puts } where
  valid p hp := by
    rcases List.mem_append.mp hp with hp | hp
    · exact h.valid p hp
    · rw [List.mem_singleton.mp hp]
      refine (h.repo x).valid put.write (List.mem_append_right _ (List.mem_map_of_mem ?_))
      simp [pending, hx]
  told y := by
    rw [List.length_append]
    exact (h.told y).trans (Nat.le_add_right _ _)
  repo y := by
    have hy := h.repo y
    have hpending : pending { c with
        log := c.log ++ [(x, put)]
        outbox := Function.update c.outbox x puts } y = c.pending y := by
      rw [pending, pending, List.drop_append_of_le_length (h.told y), List.filter_append]
      by_cases heq : y = x
      · subst heq
        simp [hx]
      · simp [Function.update_of_ne heq, Ne.symm heq]
    rw [hpending, List.take_append_of_le_length (h.told y)]
    exact hy

/-- **The database tells a device** of more puts. -/
theorem Good.tell (h : c.Good) {n : ℕ} (hle : c.told x ≤ n) (hn : n ≤ c.log.length) :
    ∃ r', ((c.log.take n).drop (c.told x)).foldlM (FRepo.hear x) (c.repo x) = some r' ∧
      Good { c with told := Function.update c.told x n, repo := Function.update c.repo x r' } := by
  have hdrop : c.log.drop (c.told x) = (c.log.take n).drop (c.told x) ++ c.log.drop n := by
    rw [← List.drop_append_of_le_length, List.take_append_drop]
    rwa [List.length_take, min_eq_left hn]
  have htake : c.log.take (c.told x) ++ (c.log.take n).drop (c.told x) = c.log.take n := by
    have hle' : c.log.take (c.told x) = (c.log.take n).take (c.told x) := by
      rw [List.take_take, min_eq_left hle]
    rw [hle', List.take_append_drop]
  have hfollows := h.repo x
  rw [pending, hdrop, List.filter_append, List.map_append, List.append_assoc] at hfollows
  obtain ⟨r', hr', hfollows'⟩ := hfollows.foldlM_hear fun p hp =>
    h.valid p (List.mem_of_mem_take (List.mem_of_mem_drop hp))
  refine ⟨r', hr', h.valid, fun y => ?_, fun y => ?_⟩
  · by_cases hy : y = x
    · subst hy
      simpa using hn
    · simpa [Function.update_of_ne hy] using h.told y
  · by_cases hy : y = x
    · subst hy
      rw [← List.map_append, htake] at hfollows'
      simpa [pending] using hfollows'
    · simpa [pending, Function.update_of_ne hy] using h.repo y

/-- **One step** of the clients is one of the devices. -/
theorem Good.step (h : c.Good) (uid convo : δ → String) {a : Action δ} (ha : a.Valid) :
    ∃ a', Action.SameButOrder a a' ∧
      (c.step uid convo a).map messenger = c.messenger.step uid convo a' ∧
      ∀ c', c.step uid convo a = some c' → c'.Good := by
  cases a with
  | sendMessage x now rand draft =>
    refine ⟨_, .refl _, ?_⟩
    rw [Clients.step, Messenger.step]
    change _ = Option.map _ (c.autoIds.childByAutoId ⟨x, now, rand⟩) ∧ _
    cases hid : c.autoIds.childByAutoId ⟨x, now, rand⟩ with
    | none => exact ⟨rfl, fun c' hc' => by cases hc'⟩
    | some p =>
      obtain ⟨device, hget, -, -⟩ := AutoIds.of_childByAutoId_eq_some hid
      have hw : (BackendWrite.sendMessage draft.id (draft.sent (uid x) p.1)).Valid :=
        ⟨ha.1, Messenger.valid_of_get hget ha.2⟩
      have hnew : Good { c with autoIds := p.2 } := ⟨h.valid, h.told, h.repo⟩
      obtain ⟨c', hc', hgood, hsame⟩ := hnew.set hw x
      rw [Option.bind_eq_bind, Option.bind_some, hc']
      refine ⟨congrArg some hsame, fun c'' hc'' => ?_⟩
      obtain rfl := Option.some.inj hc''
      exact hgood
  | write x w =>
    have hw : w.Valid := by
      cases w with
      | sendMessage id m => exact absurd ha not_false
      | _ => exact ha
    obtain ⟨c', hc', hgood, hsame⟩ := h.set hw x
    refine ⟨_, .refl _, ?_⟩
    rw [Clients.step, hc']
    refine ⟨congrArg some hsame, fun c'' hc'' => ?_⟩
    obtain rfl := Option.some.inj hc''
    exact hgood
  | take x =>
    refine ⟨_, .refl _, ?_⟩
    rw [Clients.step, Messenger.step]
    have houtbox : c.messenger.outbox x = (c.outbox x).map Put.write := rfl
    cases hx : c.outbox x with
    | nil => simp [houtbox, hx]
    | cons put puts =>
      simp only [houtbox, hx, List.map_cons]
      refine ⟨?_, fun c' hc' => ?_⟩
      · simp [messenger, map_write_update]
      · obtain rfl := Option.some.inj hc'
        exact h.take hx
  | tell x n =>
    refine ⟨_, .refl _, ?_⟩
    rw [Clients.step, Messenger.step]
    have hlength : c.messenger.log.length = c.log.length := List.length_map ..
    rw [hlength]
    change _ = (if c.told x ≤ n ∧ n ≤ c.log.length then some _ else none) ∧ _
    by_cases hn : c.told x ≤ n ∧ n ≤ c.log.length
    · obtain ⟨r', hr', hgood⟩ := h.tell hn.1 hn.2
      rw [if_pos hn, if_pos hn, hr']
      refine ⟨rfl, fun c' hc' => ?_⟩
      obtain rfl := Option.some.inj hc'
      exact hgood
    · rw [if_neg hn, if_neg hn]
      exact ⟨rfl, fun c' hc' => by cases hc'⟩
  | deliver x e calls =>
    obtain ⟨n, hn, hsame⟩ := h.eventCache x (FPath.initWith ("conversations" ++ "/" ++ convo x))
    obtain ⟨e', he'⟩ := hsame.getMessages_eq e
    refine ⟨_, .deliver x e e' calls, ?_⟩
    have hreceive : (c.chat x).receive (uid x) ⟨e.apply n.val, calls⟩ =
        (c.chat x).receive (uid x) ⟨e'.apply (c.messenger.conversation x (convo x)), calls⟩ := by
      rw [ChatView.receive, he']
      rfl
    rw [Clients.step, Messenger.step, hn]
    simp only [Option.bind_eq_bind, Option.bind_some, hreceive]
    change _ = Option.map _ (ChatView.receive _ (c.chat x) _) ∧ _
    cases (c.chat x).receive (uid x) ⟨e'.apply (c.messenger.conversation x (convo x)), calls⟩ with
    | none => exact ⟨rfl, fun c' hc' => by cases hc'⟩
    | some chat =>
      refine ⟨rfl, fun c' hc' => ?_⟩
      obtain rfl := Option.some.inj hc'
      exact ⟨h.valid, h.told, h.repo⟩

/-- A run of the clients, as one of the devices. -/
theorem exists_run_messenger (uid convo : δ → String) {as : List (Action δ)}
    (hvalid : ∀ a ∈ as, a.Valid) :
    ∃ as', List.Forall₂ Action.SameButOrder as as' ∧
      (Runs.run (step uid convo) launch as).map messenger =
        Runs.run (Messenger.step uid convo) .launch as' ∧
      ∀ c, Runs.run (step uid convo) launch as = some c → c.Good :=
  Runs.run_simulation messenger Good Action.SameButOrder
    (fun _ a ha h => h.step uid convo (hvalid a ha)) good_launch

end Clients

theorem run_clients_sampleActions : ∃ c,
    Runs.run (Clients.step sampleUsers fun _ => "c") .launch sampleActions = some c ∧
      c.messenger.NoCollision ∧ (c.messenger.visible false "c").length = 2 := by
  have hrun : (Runs.run (Clients.step sampleUsers fun _ => "c") .launch sampleActions).map
      (fun c => (c.messenger.autoIds.issued.map fun a => (a.device, a.name),
        (c.messenger.visible false "c").length)) =
      some ([(true, "-------4000000000000"), (false, "-------4111111111111")], 2) := by
    decide +kernel
  obtain ⟨c, hc, heq⟩ := Option.map_eq_some_iff.mp hrun
  obtain ⟨hissued, hlen⟩ := Prod.mk.inj heq
  refine ⟨c, hc, ?_, hlen⟩
  rw [Messenger.noCollision_iff, hissued]
  decide

/-- **The clients refine the devices.** For every run of the clients there is one of
`Messenger` that differs from it in the order in which nodes are enumerated, and in nothing
else: the one fails where the other does, and if not, names, writes and chats are the same in
the end. -/
theorem clients_refine {δ : Type} [DecidableEq δ] {uid convo : δ → String} {as : List (Action δ)}
    (hvalid : ∀ a ∈ as, a.Valid) : ∃ as', List.Forall₂ Action.SameButOrder as as' ∧
      (Runs.run (Clients.step uid convo) .launch as).map Clients.messenger =
        Runs.run (Messenger.step uid convo) .launch as' := by
  obtain ⟨as', has', hrun, -⟩ := Clients.exists_run_messenger uid convo hvalid
  exact ⟨as', has', hrun⟩

/-- The chat is told of both messages, its own one in front. -/
theorem clients_refine_sampleActions : ∃ as',
    List.Forall₂ Action.SameButOrder (sampleActions ++
      [.deliver false ⟨List.reverse, List.reverse_perm⟩ sampleCalls]) as' ∧
      (Runs.run (Clients.step sampleUsers fun _ => "c") .launch (sampleActions ++
        [.deliver false ⟨List.reverse, List.reverse_perm⟩ sampleCalls])).map Clients.messenger =
        Runs.run (Messenger.step sampleUsers fun _ => "c") .launch as' := by
  refine clients_refine ?_
  rw [List.forall_mem_append]
  exact ⟨valid_sampleActions, by simp [Action.Valid]⟩

namespace Clients

open Messenger

variable {δ : Type} [DecidableEq δ] {as as' : List (Action δ)}

omit [DecidableEq δ] in
theorem valid_of_sameButOrder (h : List.Forall₂ Action.SameButOrder as as')
    (hvalid : ∀ a ∈ as, a.Valid) : ∀ a ∈ as', a.Valid := by
  induction h with
  | nil => exact hvalid
  | @cons a a' as as' ha h ih =>
    rw [List.forall_mem_cons] at hvalid ⊢
    refine ⟨?_, ih hvalid.2⟩
    cases ha with
    | refl => exact hvalid.1
    | deliver => trivial

omit [DecidableEq δ] in
theorem filterMap_idCall? (h : List.Forall₂ Action.SameButOrder as as') :
    as'.filterMap idCall? = as.filterMap idCall? := by
  induction h with
  | nil => rfl
  | cons ha h ih =>
    cases ha with
    | refl => rw [List.filterMap_cons, List.filterMap_cons, ih]
    | deliver => exact ih

end Clients

open Messenger in
/-- **Chats on top of clients.** In every run of the clients, what an open chat is shown when
its observer is called are the messages that its device knows, each exactly once, as they
were sent and by date. -/
theorem clients_deliver {δ : Type} [DecidableEq δ] {uid convo : δ → String}
    (hconvo : ∀ x, FPath.IsPiece (convo x)) {as : List (Action δ)} (hvalid : ∀ a ∈ as, a.Valid)
    (hclocks : AutoIds.Clocks (as.filterMap idCall?)) {c : Clients δ}
    (hrun : Runs.run (Clients.step uid convo) .launch as = some c)
    (hcollision : c.messenger.NoCollision) (x : δ) (e : Enumeration) {calls : ℕ → Backend.Calls}
    (hcalls : FreshCalls calls (c.messenger.visible x (convo x)).length) :
    ∃ c', c.step uid convo (.deliver x e calls) = some c' ∧
      (c'.chat x).ShowsSent (uid x) (c.messenger.visible x (convo x)) ∧
      ∀ y, y ≠ x → c'.chat y = c.chat y := by
  obtain ⟨as', has', hrun', hgoodClients⟩ := Clients.exists_run_messenger uid convo hvalid
  rw [hrun] at hrun'
  rw [← Clients.filterMap_idCall? has'] at hclocks
  have hgood := good_of_run hconvo (Clients.valid_of_sameButOrder has' hvalid) hrun'.symm
    (nodup_names hclocks hrun'.symm hcollision)
  obtain ⟨a', ha', hstep, -⟩ :=
    (hgoodClients c hrun).step uid convo (a := .deliver x e calls) trivial
  obtain ⟨e', rfl⟩ : ∃ e', a' = .deliver x e' calls := by
    cases ha' with
    | refl => exact ⟨e, rfl⟩
    | deliver _ _ e' => exact ⟨e', rfl⟩
  obtain ⟨chat, hchat, hshows⟩ : ∃ chat, (c.messenger.chat x).receive (uid x)
      ⟨e'.apply (c.messenger.conversation x (convo x)), calls⟩ = some chat ∧
      chat.ShowsSent (uid x) (c.messenger.visible x (convo x)) :=
    hgood.deliver (hconvo x) e' hcalls
  rw [Messenger.step, hchat, Option.map_some] at hstep
  obtain ⟨c', hc', hsame⟩ := Option.map_eq_some_iff.mp hstep
  have hchats : c'.chat = Function.update c.chat x chat := congrArg Messenger.chat hsame
  refine ⟨c', hc', ?_, ?_⟩
  · rw [hchats]
    simpa using hshows
  · intro y hy
    rw [hchats, Function.update_of_ne hy]

theorem clients_deliver_sampleActions : ∃ c c',
    Runs.run (Clients.step sampleUsers fun _ => "c") .launch sampleActions = some c ∧
      c.step sampleUsers (fun _ => "c")
        (.deliver false ⟨List.reverse, List.reverse_perm⟩ sampleCalls) = some c' ∧
      (c'.chat false).ShowsSent "v" (c.messenger.visible false "c") ∧
      ∀ y, y ≠ false → c'.chat y = c.chat y := by
  obtain ⟨c, hc, hcollision, hlen⟩ := run_clients_sampleActions
  have hcalls : Messenger.FreshCalls sampleCalls (c.messenger.visible false "c").length := by
    rw [hlen, Messenger.FreshCalls]
    decide
  obtain ⟨c', hc', hshows⟩ := clients_deliver (fun _ => ⟨by decide, by decide⟩)
    valid_sampleActions clocks_sampleActions hc hcollision false ⟨List.reverse, List.reverse_perm⟩
    hcalls
  exact ⟨c, c', hc, hc', hshows⟩

end MoonMessenger
