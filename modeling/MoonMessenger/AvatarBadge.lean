import MoonMessenger.Message
import MoonMessenger.Lib.Runs

/-!
# The avatar badge

`AvatarBadge.setAvatar` asks for the image of a message's sender, and its closure shows
whatever arrives. The collection view reuses the badge: neither is its image reset then,
nor are requests cancelled or matched with the message that the badge is for.

`showsSender_iff` says for which sequences of messages every order of the answers shows
the right avatar.
-/

namespace MoonMessenger

/-- A badge, as `setAvatar` and its requests leave it. -/
structure AvatarBadge (Image : Type) where
  /-- `imageView.image`; `none` is the placeholder -/
  image : Option Image
  /-- the `userId` of the message of the latest `setAvatar` -/
  latest : Option String
  /-- the requests that have not been answered, by the id they were made for -/
  requests : List String

namespace AvatarBadge

variable {Image : Type}

/-- What can happen to a badge. -/
inductive Event where
  | setAvatar (message : Message)
  /-- the request number `k` of those pending delivers its image -/
  | completes (k : ℕ)
  /-- it fails: `getImage` does not call its completion -/
  | fails (k : ℕ)

/-- A badge that was just made. -/
def new : AvatarBadge Image := ⟨none, none, []⟩

/-- One event; `stored` is the image storage. -/
def step (stored : String → Option Image) (s : AvatarBadge Image) :
    Event → Option (AvatarBadge Image)
  | .setAvatar message =>
    some { s with latest := some message.userId, requests := s.requests ++ [message.userId] }
  | .completes k => do
    let userId ← s.requests[k]?
    let image ← stored userId
    return { s with image := some image, requests := s.requests.eraseIdx k }
  | .fails k => do
    let _ ← s.requests[k]?
    return { s with requests := s.requests.eraseIdx k }

/-- The message of an event, if it is a call of `setAvatar`. -/
def Event.message? : Event → Option Message
  | .setAvatar message => some message
  | _ => none

/-- The messages of the calls of `setAvatar`. -/
def messages (es : List Event) : List Message := es.filterMap Event.message?

/-- The badge shows the placeholder, or the stored image of the sender of the latest
message. -/
def ShowsSender (stored : String → Option Image) (s : AvatarBadge Image) : Prop :=
  s.image = none ∨ ∃ userId, s.latest = some userId ∧ s.image = stored userId

/-- What the messages so far say about a badge. -/
structure Tracks (stored : String → Option Image) (hist : List Event) (s : AvatarBadge Image) :
    Prop where
  latest : s.latest = (messages hist).getLast?.map Message.userId
  /-- what was asked for, and what arrived, belongs to some sender so far -/
  requests : ∀ userId ∈ s.requests, ∃ m ∈ messages hist, m.userId = userId
  image : s.image = none ∨ ∃ m ∈ messages hist, s.image = stored m.userId

variable {stored : String → Option Image} {hist : List Event} {s s' : AvatarBadge Image} {e : Event}
  {k : ℕ}

theorem messages_append (es es' : List Event) :
    messages (es ++ es') = messages es ++ messages es' := List.filterMap_append

@[simp] theorem messages_setAvatar (ms : List Message) :
    messages (ms.map Event.setAvatar) = ms := by
  induction ms with
  | nil => rfl
  | cons m ms ih => exact congrArg (m :: ·) ih

theorem step_completes :
    step stored s (.completes k) = some s' ↔ ∃ userId image, s.requests[k]? = some userId ∧
      stored userId = some image ∧
      s' = { s with image := some image, requests := s.requests.eraseIdx k } := by
  simp only [step, Option.bind_eq_bind, Option.bind_eq_some_iff, Option.pure_def, Option.some.injEq]
  refine ⟨fun ⟨userId, huserId, image, himage, hs'⟩ => ?_, ?_⟩
  · exact ⟨userId, image, huserId, himage, hs'.symm⟩
  · exact fun ⟨userId, image, huserId, himage, hs'⟩ => ⟨userId, huserId, image, himage, hs'.symm⟩

theorem step_fails (hs : step stored s (.fails k) = some s') :
    s' = { s with requests := s.requests.eraseIdx k } := by
  simp only [step, Option.bind_eq_bind, Option.bind_eq_some_iff, Option.pure_def,
    Option.some.injEq] at hs
  obtain ⟨_, -, rfl⟩ := hs
  rfl

/-- An event that is no call of `setAvatar` adds no message. -/
theorem Tracks.concat (h : Tracks stored hist s) (he : e.message? = none) :
    Tracks stored (hist ++ [e]) s := by
  have hmessages : messages (hist ++ [e]) = messages hist := by
    rw [messages_append, messages, messages, List.filterMap_cons_none he, List.filterMap_nil,
      List.append_nil]
  obtain ⟨hlatest, hrequests, himage⟩ := h
  rw [← hmessages] at hlatest hrequests himage
  exact ⟨hlatest, hrequests, himage⟩

/-- A request that is answered pends no longer. -/
theorem Tracks.eraseIdx (h : Tracks stored hist s) (k : ℕ) :
    Tracks stored hist { s with requests := s.requests.eraseIdx k } := by
  refine ⟨h.latest, ?_, h.image⟩
  intro userId huserId
  exact h.requests userId (List.mem_of_mem_eraseIdx huserId)

/-- Every event keeps track. -/
theorem Tracks.step (h : Tracks stored hist s) (hs : AvatarBadge.step stored s e = some s') :
    Tracks stored (hist ++ [e]) s' := by
  cases e with
  | setAvatar message =>
    obtain rfl := Option.some.inj hs
    have hmessages : messages (hist ++ [.setAvatar message]) = messages hist ++ [message] :=
      messages_append _ _
    constructor
    · simp [hmessages]
    · intro userId huserId
      rw [hmessages]
      rcases List.mem_append.mp huserId with hold | hnew
      · obtain ⟨m, hm, hmId⟩ := h.requests userId hold
        exact ⟨m, List.mem_append_left _ hm, hmId⟩
      · exact ⟨message, by simp, (List.mem_singleton.mp hnew).symm⟩
    · rw [hmessages]
      refine h.image.imp id ?_
      rintro ⟨m, hm, himage⟩
      exact ⟨m, List.mem_append_left _ hm, himage⟩
  | completes k =>
    obtain ⟨userId, image, huserId, himage, rfl⟩ := step_completes.mp hs
    obtain ⟨m, hm, rfl⟩ := h.requests userId (List.mem_of_getElem? huserId)
    refine Tracks.concat ?_ rfl
    exact { h.eraseIdx k with image := Or.inr ⟨m, hm, himage.symm⟩ }
  | fails k =>
    obtain rfl := step_fails hs
    exact (h.eraseIdx k).concat rfl

/-- Where no image belongs to an earlier sender alone, the badge shows the latest one's. -/
theorem Tracks.showsSender (h : Tracks stored hist s)
    (hms : (messages hist).Pairwise fun a b =>
      stored a.userId = none ∨ stored a.userId = stored b.userId) : s.ShowsSender stored := by
  rcases h.image with hnone | ⟨m, hm, himage⟩
  · exact Or.inl hnone
  · rcases List.eq_nil_or_concat' (messages hist) with hnil | ⟨ms, last, hlast⟩
    · rw [hnil] at hm
      cases hm
    · rw [hlast] at hm hms
      have hlatest : s.latest = some last.userId := by
        rw [h.latest, hlast]
        simp
      rcases List.mem_append.mp hm with hold | hnew
      · rcases (List.pairwise_append.mp hms).2.2 m hold last (by simp) with hnone | heq
        · exact Or.inl (himage.trans hnone)
        · exact Or.inr ⟨_, hlatest, himage.trans heq⟩
      · obtain rfl := List.mem_singleton.mp hnew
        exact Or.inr ⟨_, hlatest, himage⟩

/-- Calls of `setAvatar`, with no answer yet. -/
theorem run_setAvatar (ms : List Message) (s : AvatarBadge Image) :
    Runs.run (step stored) s (ms.map .setAvatar) = some
      { s with
        latest := (ms.getLast?.map Message.userId).or s.latest
        requests := s.requests ++ ms.map Message.userId } := by
  induction ms using List.reverseRecOn with
  | nil => simp
  | append_singleton ms m ih =>
    rw [List.map_append, List.map_singleton, Runs.run_concat, ih]
    simp [step]

/-- An order of the answers: the first `j + 1` messages are set, then the image asked for
with the message number `i` arrives, then the others are set. -/
def overtaking (ms : List Message) (i j : ℕ) : List Event :=
  (ms.take (j + 1)).map .setAvatar ++ [.completes i] ++ (ms.drop (j + 1)).map .setAvatar

@[simp] theorem messages_overtaking (ms : List Message) (i j : ℕ) :
    messages (overtaking ms i j) = ms := by
  rw [overtaking, messages_append, messages_append, messages_setAvatar, messages_setAvatar]
  have hcompletes : messages [.completes i] = [] := rfl
  rw [hcompletes, List.append_nil, List.take_append_drop]

/-- In this order, the badge for the message number `j` shows the image of number `i`. -/
theorem exists_step_overtaking {ms : List Message} {i j : ℕ} (hij : i < j) (hj : j < ms.length)
    {image : Image} (himage : stored ms[i].userId = some image) :
    ∃ s s', Runs.run (step stored) new ((ms.take (j + 1)).map .setAvatar) = some s ∧
      step stored s (.completes i) = some s' ∧ s'.latest = some ms[j].userId ∧
      s'.image = some image := by
  have hi : ((ms.take (j + 1)).map Message.userId)[i]? = some ms[i].userId := by
    rw [List.getElem?_map, List.getElem?_take_of_lt (by omega), List.getElem?_eq_getElem]
    rfl
  have hlast : (ms.take (j + 1)).getLast? = some ms[j] := by
    rw [List.getLast?_take, if_neg (by omega)]
    simp [hj]
  refine ⟨_, _, run_setAvatar _ _, step_completes.mpr ⟨_, image, hi, himage, rfl⟩, ?_, rfl⟩
  simp [hlast]

end AvatarBadge

open AvatarBadge in
/-- **The avatar is the sender's, if no earlier sender's image differs from it.** Whatever
images are stored, a sequence of `setAvatar` calls on one badge shows, after every step and
in every order in which the requests are answered or fail, the placeholder or the image of
the latest message's sender, if and only if among the messages each that comes before
another has a sender without an image, or with the same. -/
theorem showsSender_iff {Image : Type} (stored : String → Option Image) (ms : List Message) :
    (∀ es, messages es = ms → Runs.Always (AvatarBadge.step stored)
        (fun _ _ _ s' => s'.ShowsSender stored) .new es) ↔
      ms.Pairwise fun a b => stored a.userId = none ∨ stored a.userId = stored b.userId := by
  refine ⟨fun hall => List.pairwise_iff_getElem.mpr fun i j hi hj hij => ?_, fun hms es hes => ?_⟩
  · cases himage : stored ms[i].userId with
    | none => exact Or.inl rfl
    | some image =>
      obtain ⟨s, s', hs, hs', hlatest, hshown⟩ := exists_step_overtaking hij hj himage
      rcases hall (overtaking ms i j) (messages_overtaking ms i j) _ _ s s'
        (List.prefix_append _ _) hs hs' with hnone | ⟨userId, huserId, hstored⟩
      · rw [hshown] at hnone
        cases hnone
      · rw [hlatest] at huserId
        obtain rfl := Option.some.inj huserId
        exact Or.inr (hshown.symm.trans hstored)
  · refine Runs.always_of_invariant (Tracks stored) ⟨rfl, by simp [new], Or.inl rfl⟩ ?_
    intro hist s e s' hpre _ h hs
    have h' := h.step hs
    refine ⟨h', h'.showsSender (hms.sublist ?_)⟩
    obtain ⟨rest, rfl⟩ := hpre
    rw [← hes, messages_append (hist ++ [e])]
    exact List.sublist_append_left _ _

/-- Ann's image arrives after the badge has been reused for Bea. -/
theorem not_always_showsSender :
    ¬ ∀ (Image : Type) (stored : String → Option Image) (es : List AvatarBadge.Event),
      Runs.Always (AvatarBadge.step stored) (fun _ _ _ s' => s'.ShowsSender stored) .new es := by
  intro hall
  let message (userId : String) : Message :=
    .init (.replicate 0) (.replicate 0) "Hello" .incoming ⟨0⟩ true true false "User" userId
  rcases hall String some
    [.setAvatar (message "Ann"), .setAvatar (message "Bea"), .completes 0]
    [.setAvatar (message "Ann"), .setAvatar (message "Bea")] (.completes 0) _ _
    (List.prefix_refl _) rfl rfl with hnone | ⟨userId, huserId, hstored⟩
  · cases hnone
  · obtain rfl := Option.some.inj huserId
    exact absurd (Option.some.inj hstored) (by decide)

end MoonMessenger
