import MoonMessenger.Json
import MoonMessenger.Lib.Runs

/-!
# Channel names

`Backend.getConvoName` observes the name of a channel; told that there is none, it writes
a random one. What it has been told can be out of date by then. The system: any number
of clients with one queue of observed values each, the writes in flight, and the
database, which applies them one at a time.

`name_kept` says when a name a user has chosen is safe: if, when it is applied, no random
name is on its way (`Settled`), and only then.
-/

namespace MoonMessenger

namespace RandomName

/-- The first words of `String.random`. -/
def a : List String :=
  ["Cool", "Interesting", "Informed", "Spicy", "Juicy", "Moist", "Funny", "Goofy", "Angry",
    "Filthy", "Sinister", "Hairless"]

/-- The second words. -/
def b : List String :=
  ["Cow", "Hippo", "Lion", "Tiger", "Anteater", "Alpaca", "Baboon", "Bear", "Bullfrog",
    "Bumblebee", "Desert Tortoise"]

/-- `String.random`, by the places of the elements `randomElement` returns. The lists are
not empty, so it returns one. -/
def random (i : Fin a.length) (j : Fin b.length) : String := a[i] ++ " " ++ b[j]

end RandomName

namespace Backend

/-- What the observer of `getConvoName` does with a value, when `.random()` returns
`newName`: the name it writes, if any, and the one it calls the completion with. -/
def getConvoName (value : Json) (newName : String) : Option String × String :=
  match value.asString? with
  | some res => (none, res)
  | none => (some newName, newName)

end Backend

/-- A write of `convoData/<id>/name`. -/
inductive NameWrite where
  /-- by `setConvoName` -/
  | chosen (name : String)
  /-- by the observer of `getConvoName` -/
  | default (name : String)

/-- The name written. -/
def NameWrite.name : NameWrite → String
  | chosen name => name
  | default name => name

/-- The channel's name and those who work on it: the clients `C`. -/
structure NameState (C : Type) where
  /-- the value of `convoData/<id>/name` -/
  name : Json
  /-- has the client called `getConvoName`? -/
  observes : C → Bool
  /-- the values a client has been told and not processed yet, the oldest first -/
  queue : C → List Json
  /-- the writes the database has not applied yet -/
  inFlight : List NameWrite

/-- The atomic steps. -/
inductive NameEvent (C : Type) where
  /-- the client calls `getConvoName`: it will be told the value there is. A device that
  calls it twice has two observers, which are two clients -/
  | getConvoName (c : C)
  /-- the client processes the oldest value it has been told; `i` and `j` are the random
  choices -/
  | process (c : C) (i : Fin RandomName.a.length) (j : Fin RandomName.b.length)
  /-- some client calls `setConvoName` -/
  | setConvoName (name : String)
  /-- the database applies the write number `k` and tells those who observe the name -/
  | apply (k : ℕ)

namespace NameState

variable {C : Type} [DecidableEq C]

/-- The start: nobody has done anything. -/
def start (name : Json) : NameState C where
  name := name
  observes _ := false
  queue _ := []
  inFlight := []

/-- One step. -/
def step (s : NameState C) : NameEvent C → Option (NameState C)
  | .getConvoName c =>
    if s.observes c then none
    else some { s with
      observes := Function.update s.observes c true
      queue := Function.update s.queue c (s.queue c ++ [s.name]) }
  | .process c i j =>
    match s.queue c with
    | [] => none
    | value :: rest => some { s with
        queue := Function.update s.queue c rest
        inFlight := s.inFlight ++
          (Backend.getConvoName value (RandomName.random i j)).1.toList.map .default }
  | .setConvoName name => some { s with inFlight := s.inFlight ++ [.chosen name] }
  | .apply k =>
    match s.inFlight[k]? with
    | none => none
    | some write => some { s with
        name := .string write.name
        queue := fun c => if s.observes c then s.queue c ++ [.string write.name] else s.queue c
        inFlight := s.inFlight.eraseIdx k }

/-- The step applies a name that a user has chosen. -/
def AppliesChosen (s : NameState C) (e : NameEvent C) : Prop :=
  ∃ k name, e = .apply k ∧ s.inFlight[k]? = some (.chosen name)

/-- In the course of these events a name that a user has chosen has been applied. -/
def ChosenApplied (s₀ : NameState C) (hist : List (NameEvent C)) : Prop :=
  ∃ before e after s, hist = before ++ e :: after ∧ Runs.run step s₀ before = some s ∧
    s.AppliesChosen e

/-- The step changes the name only if it applies one that a user has chosen. -/
def ChangedByUser (s : NameState C) (e : NameEvent C) (s' : NameState C) : Prop :=
  s'.name ≠ s.name → s.AppliesChosen e

/-- No default is on its way: none is in flight, and no client has yet to process that
there is no name. -/
structure Settled (s : NameState C) : Prop where
  inFlight : ∀ write ∈ s.inFlight, ∃ name, write = .chosen name
  queue : ∀ c, ∀ value ∈ s.queue c, value.asString?.isSome

/-! ## Inversion -/

section Inversion

variable {s s' : NameState C}

theorem step_getConvoName {c : C} (h : s.step (.getConvoName c) = some s') :
    s' = { s with
      observes := Function.update s.observes c true
      queue := Function.update s.queue c (s.queue c ++ [s.name]) } := by
  rw [step] at h
  split at h
  · cases h
  · exact (Option.some.inj h).symm

theorem step_process {c : C} {i : Fin RandomName.a.length} {j : Fin RandomName.b.length}
    (h : s.step (.process c i j) = some s') :
    ∃ value rest, s.queue c = value :: rest ∧ s' = { s with
      queue := Function.update s.queue c rest
      inFlight := s.inFlight ++
        (Backend.getConvoName value (RandomName.random i j)).1.toList.map .default } := by
  rw [step] at h
  split at h
  · cases h
  · rename_i value rest hqueue
    exact ⟨value, rest, hqueue, (Option.some.inj h).symm⟩

theorem step_apply {k : ℕ} (h : s.step (.apply k) = some s') :
    ∃ write, s.inFlight[k]? = some write ∧ s' = { s with
      name := .string write.name
      queue := fun c => if s.observes c then s.queue c ++ [.string write.name] else s.queue c
      inFlight := s.inFlight.eraseIdx k } := by
  rw [step] at h
  split at h
  · cases h
  · rename_i write hwrite
    exact ⟨write, hwrite, (Option.some.inj h).symm⟩

end Inversion

/-! ## Settled states -/

section Settled

variable {s s' : NameState C} {e : NameEvent C}

/-- There is a name. -/
def Named (s : NameState C) : Prop := s.name.asString?.isSome

/-- A client that processes a name writes nothing. -/
theorem getConvoName_of_isSome {value : Json} (h : value.asString?.isSome) (newName : String) :
    (Backend.getConvoName value newName).1 = none := by
  obtain ⟨res, hres⟩ := Option.isSome_iff_exists.mp h
  rw [Backend.getConvoName, hres]

/-- Once there is a name there always is one. -/
theorem Named.step (h : s.Named) (hs : s.step e = some s') : s'.Named := by
  cases e with
  | getConvoName c =>
    obtain rfl := step_getConvoName hs
    exact h
  | process c i j =>
    obtain ⟨value, rest, -, rfl⟩ := step_process hs
    exact h
  | setConvoName name =>
    obtain rfl := Option.some.inj hs
    exact h
  | apply k =>
    obtain ⟨write, -, rfl⟩ := step_apply hs
    exact rfl

/-- Applying a write puts no default on its way: it tells the clients a name. -/
theorem Settled.apply {k : ℕ} (h : s.Settled) (hs : s.step (.apply k) = some s') :
    s'.Settled := by
  obtain ⟨write, -, rfl⟩ := step_apply hs
  refine ⟨fun write' hwrite' => h.inFlight write' (List.mem_of_mem_eraseIdx hwrite'),
    fun c value hvalue => ?_⟩
  dsimp only at hvalue
  split at hvalue
  · rcases List.mem_append.mp hvalue with hvalue | hvalue
    · exact h.queue c value hvalue
    · obtain rfl := List.mem_singleton.mp hvalue
      exact rfl
  · exact h.queue c value hvalue

/-- A queue that may have been updated holds what its update or it itself held. -/
theorem mem_of_mem_update {queue : C → List Json} {c c' : C} {values : List Json} {value : Json}
    (h : value ∈ Function.update queue c values c') : value ∈ values ∨ value ∈ queue c' := by
  rcases eq_or_ne c' c with rfl | hc
  · rw [Function.update_self] at h
    exact Or.inl h
  · rw [Function.update_of_ne hc] at h
    exact Or.inr h

/-- Where no default is on its way and there is a name, none gets on its way. -/
theorem Settled.step (h : s.Settled) (hnamed : s.Named) (hs : s.step e = some s') :
    s'.Settled := by
  cases e with
  | getConvoName c =>
    obtain rfl := step_getConvoName hs
    refine ⟨h.inFlight, fun c' value hvalue => ?_⟩
    rcases mem_of_mem_update hvalue with hvalue | hvalue
    · rcases List.mem_append.mp hvalue with hvalue | hvalue
      · exact h.queue c value hvalue
      · obtain rfl := List.mem_singleton.mp hvalue
        exact hnamed
    · exact h.queue c' value hvalue
  | process c i j =>
    obtain ⟨value, rest, hqueue, rfl⟩ := step_process hs
    have hvalue : value ∈ s.queue c := by rw [hqueue]; exact List.mem_cons_self ..
    have hnone := getConvoName_of_isSome (h.queue c value hvalue) (RandomName.random i j)
    refine ⟨fun write hwrite => ?_, fun c' value' hvalue' => ?_⟩
    · simp only [hnone, Option.toList_none, List.map_nil, List.append_nil] at hwrite
      exact h.inFlight write hwrite
    · rcases mem_of_mem_update hvalue' with hvalue' | hvalue'
      · exact h.queue c value' (by rw [hqueue]; exact List.mem_cons_of_mem _ hvalue')
      · exact h.queue c' value' hvalue'
  | setConvoName name =>
    obtain rfl := Option.some.inj hs
    refine ⟨fun write hwrite => ?_, h.queue⟩
    rcases List.mem_append.mp hwrite with hwrite | hwrite
    · exact h.inFlight write hwrite
    · exact ⟨name, List.mem_singleton.mp hwrite⟩
  | apply k => exact h.apply hs

/-- Where no default is in flight, only users change the name. -/
theorem Settled.changedByUser (h : s.Settled) (hs : s.step e = some s') :
    s.ChangedByUser e s' := by
  intro hne
  cases e with
  | getConvoName c =>
    obtain rfl := step_getConvoName hs
    exact absurd rfl hne
  | process c i j =>
    obtain ⟨value, rest, -, rfl⟩ := step_process hs
    exact absurd rfl hne
  | setConvoName name =>
    obtain rfl := Option.some.inj hs
    exact absurd rfl hne
  | apply k =>
    obtain ⟨write, hwrite, -⟩ := step_apply hs
    obtain ⟨name, rfl⟩ := h.inFlight write (List.mem_of_getElem? hwrite)
    exact ⟨k, name, rfl, hwrite⟩

theorem named_of_appliesChosen (h : s.AppliesChosen e) (hs : s.step e = some s') : s'.Named := by
  obtain ⟨k, name, rfl, -⟩ := h
  obtain ⟨write, -, rfl⟩ := step_apply hs
  exact rfl

end Settled

/-! ## Unsettled states -/

section Unsettled

variable {s : NameState C}

/-- A default in flight can be applied last. -/
theorem not_changedByUser_of_mem {name : String} (hmem : .default name ∈ s.inFlight) :
    ¬ ∀ es, Runs.Always step (fun _ s e s' => s.ChangedByUser e s') s es := by
  intro hall
  obtain ⟨k, hk⟩ := List.getElem?_of_mem hmem
  obtain ⟨other, hother⟩ : ∃ other : String, other ≠ name := by
    have : Nontrivial String := ⟨"", "a", by decide⟩
    exact exists_ne name
  -- a user chooses another name, which is applied before the default
  let s₁ : NameState C := { s with inFlight := s.inFlight ++ [.chosen other] }
  have h₁ : s.step (.setConvoName other) = some s₁ := rfl
  have hlast : s₁.inFlight[s.inFlight.length]? = some (.chosen other) := List.getElem?_concat_length
  obtain ⟨s₂, h₂, hname₂, hinFlight₂⟩ : ∃ s₂, s₁.step (.apply s.inFlight.length) = some s₂ ∧
      s₂.name = .string other ∧ s₂.inFlight = s.inFlight := by
    refine ⟨_, by rw [step, hlast], rfl, ?_⟩
    rw [List.eraseIdx_append_of_length_le le_rfl, Nat.sub_self]
    exact List.append_nil _
  rw [← hinFlight₂] at hk
  obtain ⟨s₃, h₃, hname₃⟩ : ∃ s₃, s₂.step (.apply k) = some s₃ ∧ s₃.name = .string name :=
    ⟨_, by rw [step, hk], rfl⟩
  have hrun : Runs.run step s [.setConvoName other, .apply s.inFlight.length] = some s₂ := by
    simp only [Runs.run_cons, Runs.run_nil, h₁, h₂, Option.bind_some]
  have hchanged := hall ([.setConvoName other, .apply s.inFlight.length] ++ [.apply k]) _ _ _ _
    (List.prefix_refl _) hrun h₃
  have hne : s₃.name ≠ s₂.name := by
    rw [hname₂, hname₃]
    exact fun heq => hother (Json.string.inj heq).symm
  obtain ⟨k', name', hk', hchosen⟩ := hchanged hne
  obtain rfl := NameEvent.apply.inj hk'
  rw [hk] at hchosen
  cases hchosen

/-- A client that has been told that there is no name gets a default in flight. -/
theorem exists_run_default {c : C} {value : Json} (hvalue : value.asString? = none)
    {values : List Json} (hqueue : s.queue c = values) (hmem : value ∈ values) :
    ∃ es s' name, Runs.run step s es = some s' ∧ .default name ∈ s'.inFlight := by
  induction values generalizing s with
  | nil => cases hmem
  | cons v rest ih =>
    let i : Fin RandomName.a.length := ⟨0, by decide⟩
    let j : Fin RandomName.b.length := ⟨0, by decide⟩
    obtain ⟨s', hs', hqueue', hinFlight'⟩ : ∃ s', s.step (.process c i j) = some s' ∧
        s'.queue c = rest ∧ s'.inFlight = s.inFlight ++
          (Backend.getConvoName v (RandomName.random i j)).1.toList.map .default :=
      ⟨_, by rw [step, hqueue], Function.update_self .., rfl⟩
    cases hv : v.asString? with
    | none =>
      refine ⟨[.process c i j], s', RandomName.random i j, ?_, ?_⟩
      · rw [Runs.run_cons, hs', Option.bind_some, Runs.run_nil]
      · rw [hinFlight', Backend.getConvoName, hv]
        exact List.mem_append_right _ (List.mem_singleton_self _)
    | some res =>
      have hrest : value ∈ rest := by
        rcases List.mem_cons.mp hmem with rfl | hrest
        · rw [hvalue] at hv
          cases hv
        · exact hrest
      obtain ⟨es, s'', name, hrun, hdefault⟩ := ih hqueue' hrest
      exact ⟨.process c i j :: es, s'', name, by rw [Runs.run_cons, hs']; exact hrun, hdefault⟩

/-- Where a default is on its way, it can overwrite what users choose. -/
theorem settled_of_always (h : ∀ es, Runs.Always step (fun _ s e s' => s.ChangedByUser e s') s es) :
    s.Settled := by
  refine ⟨fun write hwrite => ?_, fun c value hvalue => ?_⟩
  · cases write with
    | chosen name => exact ⟨name, rfl⟩
    | default name => exact absurd h (not_changedByUser_of_mem hwrite)
  · by_contra hnone
    rw [Option.not_isSome_iff_eq_none] at hnone
    obtain ⟨es, s', name, hrun, hdefault⟩ := exists_run_default hnone rfl hvalue
    exact not_changedByUser_of_mem hdefault fun es' => (h (es ++ es')).drop hrun

end Unsettled

/-- From a settled state with a name, only users change it. -/
theorem Settled.always {s : NameState C} (h : s.Settled) (hnamed : s.Named)
    (es : List (NameEvent C)) :
    Runs.Always NameState.step (fun _ s e s' => s.ChangedByUser e s') s es := by
  refine Runs.always_of_invariant (fun _ s => s.Settled ∧ s.Named) ⟨h, hnamed⟩ ?_
  rintro hist t e t' - - ⟨ht, htnamed⟩ ht'
  exact ⟨⟨ht.step htnamed ht', htnamed.step ht'⟩, ht.changedByUser ht'⟩

/-- Applying a chosen name puts no default on its way, and takes none off. -/
theorem settled_iff_of_appliesChosen {s s' : NameState C} {e : NameEvent C}
    (hchosen : s.AppliesChosen e) (hs : s.step e = some s') : s'.Settled ↔ s.Settled := by
  obtain ⟨k, name, rfl, hk⟩ := hchosen
  refine ⟨fun h => ?_, fun h => h.apply hs⟩
  obtain ⟨write, -, rfl⟩ := step_apply hs
  refine ⟨fun write' hwrite' => ?_, fun c value hvalue => h.queue c value ?_⟩
  · obtain ⟨i, hi⟩ := List.getElem?_of_mem hwrite'
    by_cases hik : i = k
    · subst hik
      exact ⟨name, Option.some.inj (hi.symm.trans hk)⟩
    · exact h.inFlight write' (List.mem_eraseIdx_iff_getElem?.mpr ⟨i, hik, hi⟩)
  · dsimp only
    split
    · exact List.mem_append_left _ hvalue
    · exact hvalue

theorem chosenApplied_concat {s₀ s : NameState C} {hist : List (NameEvent C)} {e : NameEvent C}
    (hs : Runs.run step s₀ hist = some s) (h : ChosenApplied s₀ (hist ++ [e])) :
    ChosenApplied s₀ hist ∨ s.AppliesChosen e := by
  obtain ⟨before, e', after, t, hsplit, ht, hchosen⟩ := h
  rcases List.eq_nil_or_concat' after with rfl | ⟨after, e'', rfl⟩
  · obtain ⟨rfl, he⟩ := List.append_inj' hsplit rfl
    obtain rfl : e = e' := List.singleton_inj.mp he
    obtain rfl := Option.some.inj (hs.symm.trans ht)
    exact Or.inr hchosen
  · rw [← List.cons_append, ← List.append_assoc] at hsplit
    obtain ⟨rfl, -⟩ := List.append_inj' hsplit rfl
    exact Or.inl ⟨before, e', after, t, rfl, ht, hchosen⟩

end NameState

open NameState in
/-- **A chosen name is kept when no default is on its way.** In every run in which no
default is on its way whenever a name that a user has chosen is applied, every later
change of the name is a user's. And only then: where one is on its way, the run can go
on so that it overwrites what users chose. -/
theorem name_kept {C : Type} [DecidableEq C] (name : Json) (es : List (NameEvent C)) :
    (Runs.Always step (fun _ s e _ => s.AppliesChosen e → s.Settled) (.start name) es →
      Runs.Always step (fun hist s e s' => ChosenApplied (.start name) hist →
        s.ChangedByUser e s') (.start name) es) ∧
    ∀ s e s', Runs.run step (.start name) es = some s → s.AppliesChosen e → s.step e = some s' →
      ((∀ es', Runs.Always step (fun _ s e s' => s.ChangedByUser e s') s' es') ↔ s.Settled) := by
  refine ⟨fun hsettled => ?_, fun s e s' _ hchosen hs' => ?_⟩
  · refine Runs.always_of_invariant
      (fun hist s => ChosenApplied (.start name) hist → s.Settled ∧ s.Named) ?_ ?_
    · rintro ⟨before, e, after, -, hsplit, -⟩
      exact absurd hsplit (by simp)
    · intro hist s e s' hpre hs hI hs'
      refine ⟨fun happlied => ?_, fun happlied => (hI happlied).1.changedByUser hs'⟩
      rcases chosenApplied_concat hs happlied with happlied | hchosen
      · obtain ⟨h, hnamed⟩ := hI happlied
        exact ⟨h.step hnamed hs', hnamed.step hs'⟩
      · have h := hsettled hist e s s' hpre hs hs' hchosen
        exact ⟨(settled_iff_of_appliesChosen hchosen hs').mpr h, named_of_appliesChosen hchosen hs'⟩
  · rw [← settled_iff_of_appliesChosen hchosen hs']
    exact ⟨settled_of_always, fun h => h.always (named_of_appliesChosen hchosen hs')⟩

open NameState in
/-- A client is told that there is no name; before it processes that, a user's name is
applied; the client's default overwrites it. -/
theorem not_name_kept :
    ¬ ∀ es : List (NameEvent ℕ), Runs.Always step
      (fun hist s e s' => ChosenApplied (.start .null) hist → s.ChangedByUser e s')
      (.start .null) es := by
  intro hall
  let i : Fin RandomName.a.length := ⟨0, by decide⟩
  let j : Fin RandomName.b.length := ⟨0, by decide⟩
  let hist : List (NameEvent ℕ) :=
    [.getConvoName 0, .setConvoName "Our Channel", .apply 0, .process 0 i j]
  have happlied : ChosenApplied (.start .null) hist :=
    ⟨[.getConvoName 0, .setConvoName "Our Channel"], .apply 0, [.process 0 i j], _, rfl, rfl, 0,
      "Our Channel", rfl, rfl⟩
  obtain ⟨s, hs, s', hs', hname, hname', hinFlight⟩ : ∃ s, Runs.run step (.start .null) hist =
      some s ∧ ∃ s', s.step (.apply 0) = some s' ∧ s.name = .string "Our Channel" ∧
      s'.name = .string (RandomName.random i j) ∧
      s.inFlight = [.default (RandomName.random i j)] :=
    ⟨_, rfl, _, rfl, rfl, rfl, rfl⟩
  have hne : s'.name ≠ s.name := by
    rw [hname, hname']
    exact fun heq => absurd (Json.string.inj heq) (by decide)
  obtain ⟨k, name, hk, hchosen⟩ :=
    hall (hist ++ [.apply 0]) hist _ s s' (List.prefix_refl _) hs hs' happlied hne
  obtain rfl := NameEvent.apply.inj hk
  rw [hinFlight] at hchosen
  cases hchosen

end MoonMessenger
