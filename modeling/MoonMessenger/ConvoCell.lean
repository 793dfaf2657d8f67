import MoonMessenger.ConvoList
import MoonMessenger.ConvoName
import MoonMessenger.Decoding
import MoonMessenger.Lib.Runs

/-!
# The cells of the conversation list

Cells are reused. Each `ConvoCell.applyData` registers observers and starts a request for
its item, and takes nothing back that earlier items have registered and started. So what
is written to a cell can come from any item that it has ever been given.

The timer of a cell is no callback of an item, and is left out: every thirty seconds it
writes the relative time of `date`, which is that of the cell's own making until the first
message is told.

`belongs_iff_oneConversation`: whatever the order in which the callbacks run, a cell shows
its current conversation only, exactly if all items it is given are one conversation.
-/

namespace MoonMessenger

/-- A value written to the cell, and the conversation whose callback has written it. -/
structure Written (α : Type) where
  convo : UUID
  value : α

/-- A block that a callback for `convo` has put on the main queue. -/
inductive CellBlock where
  | name (convo : UUID) (name : String)
  | message (convo : UUID) (text dateStr : String)

/-- The conversation a block is about. -/
def CellBlock.convo : CellBlock → UUID
  | name convo _ => convo
  | message convo _ _ => convo

/-- A cell, and what can still call back. -/
structure ConvoCell (Image : Type) where
  /-- the conversation of the latest `applyData` -/
  item : Option UUID
  username : Option (Written String)
  text : Option (Written String)
  time : Option (Written String)
  /-- an image, or the placeholder of the item -/
  image : Option (Written (Option Image))
  /-- `none` is the date of the cell's own making -/
  date : Option (Written Date)
  /-- the observers that `getConvoName` has registered -/
  nameObservers : List UUID
  /-- those of `getConvoMessage`, each with the uid it has captured -/
  messageObservers : List (UUID × String)
  /-- the requests of `getImage` that have not come to an end -/
  imageRequests : List UUID
  /-- the blocks on the main queue -/
  blocks : List CellBlock

namespace ConvoCell

variable {Image : Type}

/-- What can happen to a cell. -/
inductive Event (Image : Type) where
  /-- the cell is given an item, while `currentUser` is signed in -/
  | applyData (item : ConvoItem) (currentUser : Option String)
  /-- the observer number `k` of a name is told `value`; `i` and `j` are random choices -/
  | name (k : ℕ) (value : Json) (i : Fin RandomName.a.length) (j : Fin RandomName.b.length)
  /-- the observer number `k` of messages is told `value` -/
  | message (k : ℕ) (value : Json) (calls : ℕ → Backend.Calls) (now : Date)
  /-- the request number `k` ends, with an image or not -/
  | image (k : ℕ) (result : Option Image)
  /-- the main queue runs the oldest block -/
  | main

/-- The item an event gives to the cell. -/
def Event.item? : Event Image → Option ConvoItem
  | .applyData item _ => some item
  | _ => none

/-- A new cell. -/
def new : ConvoCell Image := ⟨none, none, none, none, none, none, [], [], [], []⟩

/-- `applyData` -/
def applyData (s : ConvoCell Image) (item : ConvoItem) (currentUser : Option String) :
    ConvoCell Image :=
  { s with
    item := some item.id
    image := some ⟨item.id, none⟩
    imageRequests := s.imageRequests ++ [item.id]
    nameObservers := s.nameObservers ++ [item.id]
    messageObservers := s.messageObservers ++ currentUser.toList.map fun user => (item.id, user) }

/-- A block writes what it was made with. -/
def runBlock (s : ConvoCell Image) : CellBlock → ConvoCell Image
  | .name convo name => { s with username := some ⟨convo, name⟩ }
  | .message convo text dateStr =>
    { s with text := some ⟨convo, text⟩, time := some ⟨convo, dateStr⟩ }

/-- One event. -/
def step (relativeTime : Date → String) (s : ConvoCell Image) :
    Event Image → Option (ConvoCell Image)
  | .applyData item currentUser => some (s.applyData item currentUser)
  | .name k value i j => do
    let convo ← s.nameObservers[k]?
    let (_, name) := Backend.getConvoName value (RandomName.random i j)
    return { s with blocks := s.blocks ++ [.name convo name] }
  | .message k value calls now => do
    let (convo, user) ← s.messageObservers[k]?
    let (text, date, dateStr) := Backend.getConvoMessage relativeTime user value calls now
    -- the date is set at once, the labels by the block
    return { s with
      date := some ⟨convo, date⟩
      blocks := s.blocks ++ [.message convo text dateStr] }
  | .image k result => do
    let convo ← s.imageRequests[k]?
    return { s with
      image := (result.map fun image => ⟨convo, some image⟩).or s.image
      imageRequests := s.imageRequests.eraseIdx k }
  | .main =>
    match s.blocks with
    | [] => none
    | block :: blocks => some ({ s with blocks := blocks }.runBlock block)

/-- What is written belongs to the conversation of the latest `applyData`. -/
structure Belongs (s : ConvoCell Image) : Prop where
  username : ∀ w ∈ s.username, s.item = some w.convo
  text : ∀ w ∈ s.text, s.item = some w.convo
  time : ∀ w ∈ s.time, s.item = some w.convo
  image : ∀ w ∈ s.image, s.item = some w.convo

/-- The conversations that are written, or can be. -/
def mentioned (s : ConvoCell Image) : List UUID :=
  s.username.toList.map Written.convo ++ s.text.toList.map Written.convo ++
    s.time.toList.map Written.convo ++ s.image.toList.map Written.convo ++
    s.date.toList.map Written.convo ++ s.nameObservers ++ s.messageObservers.map Prod.fst ++
    s.imageRequests ++ s.blocks.map CellBlock.convo

variable {relativeTime : Date → String} {s s' : ConvoCell Image} {e : Event Image}

theorem belongs_of_mentioned (h : ∀ convo ∈ s.mentioned, s.item = some convo) : s.Belongs where
  username w hw := h w.convo (by simp [mentioned, Option.mem_def.mp hw])
  text w hw := h w.convo (by simp [mentioned, Option.mem_def.mp hw])
  time w hw := h w.convo (by simp [mentioned, Option.mem_def.mp hw])
  image w hw := h w.convo (by simp [mentioned, Option.mem_def.mp hw])

/-- Only `applyData` brings in a conversation, its own. -/
theorem mentioned_step (h : step relativeTime s e = some s') {convo : UUID}
    (hconvo : convo ∈ s'.mentioned) :
    convo ∈ s.mentioned ∨ some convo = e.item?.map ConvoItem.id := by
  simp only [mentioned, List.mem_append] at hconvo ⊢
  cases e with
  | applyData item currentUser =>
    obtain rfl := Option.some.inj h
    cases currentUser <;> grind [applyData, Event.item?]
  | name k value i j =>
    obtain ⟨convo', hk, h⟩ := Option.bind_eq_some_iff.mp h
    obtain rfl := Option.some.inj h
    have hmem := List.mem_of_getElem? hk
    grind [CellBlock.convo]
  | message k value calls now =>
    obtain ⟨⟨convo', user⟩, hk, h⟩ := Option.bind_eq_some_iff.mp h
    obtain rfl := Option.some.inj h
    have hmem := List.mem_map_of_mem (f := Prod.fst) (List.mem_of_getElem? hk)
    grind [CellBlock.convo]
  | image k result =>
    obtain ⟨convo', hk, h⟩ := Option.bind_eq_some_iff.mp h
    obtain rfl := Option.some.inj h
    have hmem := List.mem_of_getElem? hk
    have hsub := List.eraseIdx_subset (l := s.imageRequests) (k := k)
    cases result <;> grind
  | main =>
    rw [step] at h
    split at h
    · cases h
    · rename_i block blocks hblocks
      obtain rfl := Option.some.inj h
      rw [hblocks]
      cases block <;> grind [runBlock, CellBlock.convo]

/-- `applyData`, and nothing else, gives the cell another conversation. -/
theorem item_step (h : step relativeTime s e = some s') :
    s'.item = (e.item?.map ConvoItem.id).or s.item := by
  cases e with
  | applyData item currentUser =>
    obtain rfl := Option.some.inj h
    rfl
  | name k value i j =>
    obtain ⟨convo, -, h⟩ := Option.bind_eq_some_iff.mp h
    obtain rfl := Option.some.inj h
    rfl
  | message k value calls now =>
    obtain ⟨⟨convo, user⟩, -, h⟩ := Option.bind_eq_some_iff.mp h
    obtain rfl := Option.some.inj h
    rfl
  | image k result =>
    obtain ⟨convo, -, h⟩ := Option.bind_eq_some_iff.mp h
    obtain rfl := Option.some.inj h
    rfl
  | main =>
    rw [step] at h
    split at h
    · cases h
    · rename_i block blocks hblocks
      obtain rfl := Option.some.inj h
      cases block <;> rfl

/-! ## Runs -/

/-- The items that the cell has been given. -/
def given (es : List (Event Image)) : List ConvoItem := es.filterMap Event.item?

/-- What the items given to the cell say about it. -/
structure Tracks (items : List ConvoItem) (s : ConvoCell Image) : Prop where
  item : s.item = items.getLast?.map ConvoItem.id
  mentioned : ∀ convo ∈ s.mentioned, ∃ item ∈ items, item.id = convo

variable {items : List ConvoItem} {hist es : List (Event Image)}

theorem given_append (es es' : List (Event Image)) : given (es ++ es') = given es ++ given es' :=
  List.filterMap_append

theorem given_concat (hist : List (Event Image)) (e : Event Image) :
    given (hist ++ [e]) = given hist ++ e.item?.toList := by
  rw [given_append]
  cases e <;> rfl

theorem given_sublist (h : hist <+: es) : (given hist).Sublist (given es) :=
  h.sublist.filterMap Event.item?

theorem Tracks.step (h : Tracks (given hist) s)
    (hs : ConvoCell.step relativeTime s e = some s') : Tracks (given (hist ++ [e])) s' := by
  rw [given_concat]
  refine ⟨?_, fun convo hconvo => ?_⟩
  · rw [item_step hs, h.item, List.getLast?_append]
    cases e.item? <;> rfl
  · rcases mentioned_step hs hconvo with hold | hnew
    · obtain ⟨item, hitem, hid⟩ := h.mentioned convo hold
      exact ⟨item, List.mem_append_left _ hitem, hid⟩
    · obtain ⟨item, hitem, hid⟩ := Option.map_eq_some_iff.mp hnew.symm
      exact ⟨item, List.mem_append_right _ (Option.mem_toList.mpr hitem), hid⟩

/-- If all items are one conversation, what is written belongs to it. -/
theorem Tracks.belongs (h : Tracks items s) (hone : ∀ a ∈ items, ∀ b ∈ items, a.id = b.id) :
    s.Belongs := by
  refine belongs_of_mentioned fun convo hconvo => ?_
  obtain ⟨item, hitem, rfl⟩ := h.mentioned convo hconvo
  have hlast := List.getLast?_eq_some_getLast (List.ne_nil_of_mem hitem)
  rw [h.item, hlast]
  exact congrArg some (hone _ (List.getLast_mem _) _ hitem)

/-! ## A late name -/

/-- The cell after it has been given `items` one by one. -/
def applyAll (s : ConvoCell Image) (items : List ConvoItem) : ConvoCell Image :=
  items.foldl (fun s item => s.applyData item none) s

theorem run_applyData (items : List ConvoItem) (s : ConvoCell Image) :
    Runs.run (step relativeTime) s (items.map fun item => .applyData item none) =
      some (s.applyAll items) := by
  induction items generalizing s with
  | nil => rfl
  | cons item items ih => exact ih (s.applyData item none)

theorem given_applyData (items : List ConvoItem) :
    given (items.map fun item => (.applyData item none : Event Image)) = items := by
  induction items with
  | nil => rfl
  | cons item items ih => exact congrArg (item :: ·) ih

theorem applyAll_concat (items : List ConvoItem) (item : ConvoItem) :
    s.applyAll (items ++ [item]) = (s.applyAll items).applyData item none :=
  List.foldl_append

@[simp] theorem blocks_applyAll (items : List ConvoItem) (s : ConvoCell Image) :
    (s.applyAll items).blocks = s.blocks := by
  induction items generalizing s with
  | nil => rfl
  | cons item items ih => exact ih (s.applyData item none)

@[simp] theorem nameObservers_applyAll (items : List ConvoItem) (s : ConvoCell Image) :
    (s.applyAll items).nameObservers = s.nameObservers ++ items.map ConvoItem.id := by
  induction items generalizing s with
  | nil => exact (List.append_nil _).symm
  | cons item items ih => exact (ih (s.applyData item none)).trans (by simp [applyData])

/-- The cell is given `a`, later `b`, and only then the name of `a` arrives. -/
theorem not_belongs_of_lateName {value : Json} {i : Fin RandomName.a.length}
    {j : Fin RandomName.b.length} {a b : ConvoItem} {between : List ConvoItem} (hne : a.id ≠ b.id) :
    ∃ s s', Runs.run (step relativeTime) (new : ConvoCell Image)
        ((a :: between ++ [b]).map (fun item => .applyData item none) ++ [.name 0 value i j]) =
          some s ∧ step relativeTime s .main = some s' ∧ ¬ s'.Belongs := by
  let name := (Backend.getConvoName value (RandomName.random i j)).2
  let t : ConvoCell Image := new.applyAll (a :: between ++ [b])
  have hblocks : t.blocks = [] := blocks_applyAll _ _
  have hobserver : t.nameObservers[0]? = some a.id := by
    rw [nameObservers_applyAll]
    rfl
  have hitem : t.item = some b.id := by
    simp only [t, applyAll_concat]
    rfl
  have hname : step relativeTime t (.name 0 value i j) =
      some { t with blocks := [.name a.id name] } := by
    simp [step, hobserver, hblocks, name]
  refine ⟨{ t with blocks := [.name a.id name] },
    { t with username := some ⟨a.id, name⟩, blocks := [] }, ?_, rfl, fun h => ?_⟩
  · rw [Runs.run_concat, run_applyData]
    exact hname
  · have hid := h.username _ rfl
    rw [hitem] at hid
    exact hne (Option.some.inj hid).symm

/-- Two conversations among the items: the first item and a later one differ. -/
theorem exists_split_of_ids (h : ¬ ∀ a ∈ items, ∀ b ∈ items, a.id = b.id) :
    ∃ a between b rest, items = a :: between ++ b :: rest ∧ a.id ≠ b.id := by
  cases items with
  | nil => exact absurd (fun a ha => absurd ha List.not_mem_nil) h
  | cons a items =>
    have hex : ∃ b ∈ items, a.id ≠ b.id := by
      by_contra hall
      push Not at hall
      have hfirst : ∀ b ∈ a :: items, a.id = b.id := List.forall_mem_cons.mpr ⟨rfl, hall⟩
      exact h fun b hb c hc => (hfirst b hb).symm.trans (hfirst c hc)
    obtain ⟨b, hb, hne⟩ := hex
    obtain ⟨between, rest, rfl⟩ := List.append_of_mem hb
    exact ⟨a, between, b, rest, rfl, hne⟩

end ConvoCell

/-- **A cell shows its current conversation only, if it never gets another.** Whatever
items a cell is given: in every run in which it is given just these, in order, mixed with
callbacks in any order, everything written to the cell belongs to its current
conversation after each callback, if and only if all items are one conversation. -/
theorem belongs_iff_oneConversation {Image : Type} (relativeTime : Date → String)
    (items : List ConvoItem) :
    (∀ es : List (ConvoCell.Event Image), ConvoCell.given es = items →
      Runs.Always (ConvoCell.step relativeTime) (fun _ _ e s' => e.item? = none → s'.Belongs)
        .new es) ↔
      ∀ a ∈ items, ∀ b ∈ items, a.id = b.id := by
  refine ⟨fun h => ?_, fun hone es hes => ?_⟩
  · by_contra hids
    obtain ⟨a, between, b, rest, rfl, hne⟩ := ConvoCell.exists_split_of_ids hids
    let late : List (ConvoCell.Event Image) :=
      (a :: between ++ [b]).map (fun item => .applyData item none) ++
        [.name 0 .null ⟨0, by decide⟩ ⟨0, by decide⟩]
    obtain ⟨s, s', hs, hs', hnot⟩ := ConvoCell.not_belongs_of_lateName hne
    refine hnot (h (late ++ [.main] ++ rest.map fun item => .applyData item none) ?_ late .main s s'
      (List.prefix_append _ _) hs hs' rfl)
    simp only [late, ConvoCell.given_append, ConvoCell.given_applyData]
    simp [ConvoCell.given, ConvoCell.Event.item?, List.filterMap_cons]
  · refine Runs.always_of_invariant (fun hist s => s.Tracks (ConvoCell.given hist)) ?_ ?_
    · exact ⟨rfl, fun convo hconvo => absurd hconvo List.not_mem_nil⟩
    · intro hist s e s' hpre _ h hs
      have h' := h.step hs
      refine ⟨h', fun _ => h'.belongs fun a ha b hb => ?_⟩
      have hsub := (ConvoCell.given_sublist hpre).subset
      rw [hes] at hsub
      exact hone a (hsub ha) b (hsub hb)

/-- A name that arrives after the cell has been given another conversation. -/
theorem not_always_belongs :
    ¬ ∀ (relativeTime : Date → String) (es : List (ConvoCell.Event Unit)),
      Runs.Always (ConvoCell.step relativeTime) (fun _ _ e s' => e.item? = none → s'.Belongs)
        .new es := by
  intro hall
  let a : ConvoItem := ⟨.replicate 0, "User", ⟨0⟩, "Message"⟩
  let b : ConvoItem := ⟨.replicate 1, "User", ⟨0⟩, "Message"⟩
  have hbelongs := hall (fun _ => "")
    [.applyData a none, .applyData b none, .name 0 (.string "Our Channel") ⟨0, by decide⟩
      ⟨0, by decide⟩, .main]
    [.applyData a none, .applyData b none, .name 0 (.string "Our Channel") ⟨0, by decide⟩
      ⟨0, by decide⟩] .main _ _ (List.prefix_refl _) rfl rfl rfl
  exact absurd (Option.some.inj (hbelongs.username _ rfl)) (by decide)

end MoonMessenger
