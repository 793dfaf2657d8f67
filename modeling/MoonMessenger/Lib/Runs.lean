import Mathlib.Data.List.Basic
import Mathlib.Data.List.Infix

/-!
# Runs of a partial step function

A system is a step function `σ → α → Option σ`: from a state, an action either
leads to a next state or is impossible (the program traps, the action is not
enabled). A *run* folds the step function over a list of actions.

* `run_invariant` — an invariant of the steps holds at the end of a run; `run_history` is
  the same for one that relates the history to the state.
* `run_induction` — the same for an invariant relating the history to the state,
  kept by every admissible action: then the run does not fail, either.
* `exists_run_iff`, `exists_run_iff_of_history` — where each step succeeds exactly on
  certain actions, so does a run.
* `run_simulation` — where each step is, through a map of the states, one of another
  system under a related action, so is a run.
* `Always` — a property of every transition of a run. `run_always` and
  `always_of_invariant` are the invariant rules for it, for runs that have to be
  shown to succeed and for those given; `always_congr` compares two of them, under an
  invariant that one of them keeps if need be (`always_iff_of_invariant`), `always_and`
  takes them together, and `always_state_iff` characterises the transitions that keep a
  property of states.
* `foldlM_range_induction`, `foldlM_range_invariant` — the same for a counting loop.
-/

namespace Runs

universe u v

variable {σ : Type u} {α : Type v} {step : σ → α → Option σ}

/-- Run a list of actions from a state; `none` as soon as one of them fails. -/
def run (step : σ → α → Option σ) (s : σ) (as : List α) : Option σ :=
  as.foldlM step s

@[simp] theorem run_nil (s : σ) : run step s [] = some s := rfl

@[simp] theorem run_cons (s : σ) (a : α) (as : List α) :
    run step s (a :: as) = (step s a).bind fun s' => run step s' as := rfl

@[simp] theorem run_append (s : σ) (as bs : List α) :
    run step s (as ++ bs) = (run step s as).bind fun s' => run step s' bs := by
  induction as generalizing s with
  | nil => rfl
  | cons a as ih =>
    simp only [List.cons_append, run_cons, ih, Option.bind_assoc]

/-- The last action of a run is a step from the state the others reach. -/
theorem run_concat (s : σ) (as : List α) (a : α) :
    run step s (as ++ [a]) = (run step s as).bind fun s' => step s' a := by
  rw [run_append]
  congr 1
  funext s'
  rw [run_cons]
  cases step s' a <;> rfl

/-- What relates the actions taken so far to the state, and is kept by every transition of
the run of `as`, holds wherever that run comes. -/
theorem run_history {s₀ : σ} (I : List α → σ → Prop) {as : List α} (h₀ : I [] s₀)
    (hstep : ∀ hist a s s', hist ++ [a] <+: as → run step s₀ hist = some s → I hist s →
      step s a = some s' → I (hist ++ [a]) s') {hist : List α} {s : σ} (hpre : hist <+: as)
    (hs : run step s₀ hist = some s) : I hist s := by
  induction hist using List.reverseRecOn generalizing s with
  | nil =>
    obtain rfl := Option.some.inj hs
    exact h₀
  | append_singleton hist a ih =>
    rw [run_concat] at hs
    obtain ⟨r, hr, hrs⟩ := Option.bind_eq_some_iff.mp hs
    exact hstep hist a r s hpre hr (ih ((List.prefix_append hist [a]).trans hpre) hr) hrs

/-- What holds at the start and is kept by every step holds at the end of a run. -/
theorem run_invariant (I : σ → Prop) {s₀ s : σ} {as : List α} (h₀ : I s₀)
    (hstep : ∀ s a s', I s → step s a = some s' → I s') (hs : run step s₀ as = some s) : I s :=
  run_history (fun _ s => I s) h₀ (fun _ a s s' _ _ hI hs' => hstep s a s' hI hs')
    (List.prefix_refl as) hs

/-- **Invariant rule.** `I` relates the actions taken so far to the state. If it
holds at the start and every action that keeps the history admissible (`Ok`)
succeeds and keeps `I`, then an admissible run succeeds and ends in `I`. -/
theorem run_induction {s₀ : σ} (I : List α → σ → Prop) (Ok : List α → Prop)
    (hok : ∀ as a, Ok (as ++ [a]) → Ok as) (h₀ : I [] s₀)
    (hstep : ∀ as s a, I as s → Ok (as ++ [a]) →
      ∃ s', step s a = some s' ∧ I (as ++ [a]) s') :
    ∀ as, Ok as → ∃ s, run step s₀ as = some s ∧ I as s := by
  intro as
  induction as using List.reverseRecOn with
  | nil => exact fun _ => ⟨s₀, rfl, h₀⟩
  | append_singleton as a ih =>
    intro hOk
    obtain ⟨s, hs, hI⟩ := ih (hok as a hOk)
    obtain ⟨s', hs', hI'⟩ := hstep as s a hI hOk
    exact ⟨s', by rw [run_concat, hs]; exact hs', hI'⟩

/-- Where a step succeeds exactly on the actions with `Q`, and keeps the states in which
that is so, a run succeeds exactly when all its actions have `Q`. -/
theorem exists_run_iff (I : σ → Prop) {Q : α → Prop} (as : List α)
    (hstep : ∀ s, ∀ a ∈ as, I s → ((∃ s', step s a = some s') ↔ Q a))
    (hI : ∀ s, ∀ a ∈ as, ∀ s', I s → step s a = some s' → I s') {s : σ} (hs : I s) :
    (∃ t, run step s as = some t) ↔ ∀ a ∈ as, Q a := by
  induction as generalizing s with
  | nil => exact iff_of_true ⟨s, rfl⟩ fun a ha => absurd ha List.not_mem_nil
  | cons a as ih =>
    have ha : a ∈ a :: as := List.mem_cons_self ..
    have htail {s' : σ} (hs' : I s') : (∃ t, run step s' as = some t) ↔ ∀ a ∈ as, Q a :=
      ih (fun s b hb => hstep s b (List.mem_cons_of_mem a hb))
        (fun s b hb => hI s b (List.mem_cons_of_mem a hb)) hs'
    rw [List.forall_mem_cons, ← hstep s a ha hs]
    refine ⟨fun ⟨t, ht⟩ => ?_, fun ⟨⟨s', hs'⟩, has⟩ => ?_⟩
    · obtain ⟨s', hs', ht'⟩ := Option.bind_eq_some_iff.mp ht
      exact ⟨⟨s', hs'⟩, (htail (hI s a ha s' hs hs')).mp ⟨t, ht'⟩⟩
    · obtain ⟨t, ht⟩ := (htail (hI s a ha s' hs hs')).mpr has
      exact ⟨t, by rw [run_cons, hs']; exact ht⟩

/-- A condition on histories that survives dropping the last action survives passing
to a prefix. -/
theorem admissible_of_isPrefix {Ok : List α → Prop} (hok : ∀ as a, Ok (as ++ [a]) → Ok as)
    {as bs : List α} (hab : as <+: bs) (hOk : Ok bs) : Ok as := by
  obtain ⟨cs, rfl⟩ := hab
  induction cs using List.reverseRecOn with
  | nil => rwa [List.append_nil] at hOk
  | append_singleton cs c ih =>
    rw [← List.append_assoc] at hOk
    exact ih (hok _ c hOk)

/-- The same, where the history says which actions succeed: an admissible run succeeds
exactly when each of its actions has `Q` after those before it. -/
theorem exists_run_iff_of_history {s₀ : σ} (I : List α → σ → Prop) (Ok : List α → Prop)
    {Q : List α → α → Prop} (hok : ∀ as a, Ok (as ++ [a]) → Ok as) (h₀ : I [] s₀)
    (hstep : ∀ as s a, I as s → Ok (as ++ [a]) → ((∃ s', step s a = some s') ↔ Q as a))
    (hI : ∀ as s a s', I as s → Ok (as ++ [a]) → step s a = some s' → I (as ++ [a]) s')
    {as : List α} (hOk : Ok as) :
    (∃ t, run step s₀ as = some t) ↔ ∀ hist a, hist ++ [a] <+: as → Q hist a := by
  induction as using List.reverseRecOn with
  | nil => exact iff_of_true ⟨s₀, rfl⟩ fun hist a hpre => by simp at hpre
  | append_singleton as a ih =>
    have hOk' := hok as a hOk
    have hlast {s : σ} (hs : run step s₀ as = some s) : (∃ t, step s a = some t) ↔ Q as a := by
      refine hstep as s a (run_history I h₀ ?_ (List.prefix_refl as) hs) hOk
      intro hist b r r' hpre _ hr hr'
      exact hI hist r b r' hr (admissible_of_isPrefix hok hpre hOk') hr'
    refine ⟨fun ⟨t, ht⟩ hist b hpre => ?_, fun hQ => ?_⟩
    · rw [run_concat] at ht
      obtain ⟨s, hs, hst⟩ := Option.bind_eq_some_iff.mp ht
      rcases List.prefix_concat_iff.mp hpre with heq | hpre
      · obtain ⟨rfl, hb⟩ := List.append_inj' heq rfl
        obtain rfl := List.singleton_inj.mp hb
        exact (hlast hs).mp ⟨t, hst⟩
      · exact (ih hOk').mp ⟨s, hs⟩ hist b hpre
    · obtain ⟨s, hs⟩ := (ih hOk').mpr fun hist b hpre =>
        hQ hist b (hpre.trans (List.prefix_append as [a]))
      obtain ⟨t, ht⟩ := (hlast hs).mpr (hQ as a (List.prefix_refl _))
      exact ⟨t, by rw [run_concat, hs]; exact ht⟩

/-- **Simulation rule.** Seen through `f`, each step from a state with `I` is a step of
another system, which succeeds if it does, under an action that `R` relates to it. Then a run
is, seen through `f`, one of that system. -/
theorem run_simulation {σ' : Type*} {β : Type*} {step' : σ' → β → Option σ'} (f : σ → σ')
    (I : σ → Prop) (R : α → β → Prop) {as : List α}
    (hstep : ∀ s, ∀ a ∈ as, I s → ∃ b, R a b ∧ (step s a).map f = step' (f s) b ∧
      ∀ s', step s a = some s' → I s') {s : σ} (hs : I s) :
    ∃ bs, List.Forall₂ R as bs ∧ (run step s as).map f = run step' (f s) bs ∧
      ∀ t, run step s as = some t → I t := by
  induction as generalizing s with
  | nil =>
    refine ⟨[], .nil, rfl, ?_⟩
    intro t ht
    obtain rfl := Option.some.inj ht
    exact hs
  | cons a as ih =>
    have htail {s : σ} (hs : I s) := ih (fun s b hb => hstep s b (List.mem_cons_of_mem a hb)) hs
    obtain ⟨b, hab, hmap, hI⟩ := hstep s a (List.mem_cons_self ..) hs
    cases hsa : step s a with
    | none =>
      -- neither system gets any further, whatever the other actions are
      obtain ⟨bs, hbs, -, -⟩ := htail hs
      refine ⟨b :: bs, .cons hab hbs, ?_, ?_⟩
      · rw [run_cons, run_cons, ← hmap, hsa]
        rfl
      · intro t ht
        simp [hsa] at ht
    | some s' =>
      obtain ⟨bs, hbs, hrun, hend⟩ := htail (hI s' hsa)
      refine ⟨b :: bs, .cons hab hbs, ?_, ?_⟩
      · rw [run_cons, run_cons, ← hmap, hsa]
        exact hrun
      · intro t ht
        rw [run_cons, hsa] at ht
        exact hend t ht

/-- `P` holds of every transition of the run of `as` from `s₀`: of the history
before it, the state it starts in, its action and the state it leads to. -/
def Always (step : σ → α → Option σ) (P : List α → σ → α → σ → Prop) (s₀ : σ)
    (as : List α) : Prop :=
  ∀ hist a s s', hist ++ [a] <+: as → run step s₀ hist = some s → step s a = some s' →
    P hist s a s'

/-- What always holds holds of the last transition. -/
theorem Always.last {P : List α → σ → α → σ → Prop} {s₀ s' : σ} (as : List α) (a : α)
    (h : Always step P s₀ (as ++ [a])) (hrun : run step s₀ (as ++ [a]) = some s') :
    ∃ s, run step s₀ as = some s ∧ P as s a s' := by
  rw [run_concat] at hrun
  obtain ⟨s, hs, hs'⟩ := Option.bind_eq_some_iff.mp hrun
  exact ⟨s, hs, h as a s s' (List.prefix_refl _) hs hs'⟩

/-- **Invariant rule, with transitions.** If moreover every such action is a
transition with `P`, then `P` holds of every transition of an admissible run. -/
theorem run_always (step : σ → α → Option σ) (s₀ : σ) (I : List α → σ → Prop) (Ok : List α → Prop)
    (P : List α → σ → α → σ → Prop)
    (hok : ∀ as a, Ok (as ++ [a]) → Ok as) (h₀ : I [] s₀)
    (hstep : ∀ as s a, I as s → Ok (as ++ [a]) →
      ∃ s', step s a = some s' ∧ I (as ++ [a]) s' ∧ P as s a s') {as : List α} (hOk : Ok as) :
    (∃ s, run step s₀ as = some s ∧ I as s) ∧ Always step P s₀ as := by
  have hrun := run_induction I Ok hok h₀ fun as s a hI hOk' => by
    obtain ⟨s', hs', hI', -⟩ := hstep as s a hI hOk'
    exact ⟨s', hs', hI'⟩
  refine ⟨hrun as hOk, fun hist a s s' hpre hs hs' => ?_⟩
  have hOk' : Ok (hist ++ [a]) := admissible_of_isPrefix hok hpre hOk
  obtain ⟨t, ht, hI⟩ := hrun hist (hok hist a hOk')
  obtain rfl : s = t := Option.some.inj (hs.symm.trans ht)
  obtain ⟨t', ht', -, hP⟩ := hstep hist s a hI hOk'
  obtain rfl : s' = t' := Option.some.inj (hs'.symm.trans ht')
  exact hP

/-- **Invariant rule for transitions.** An invariant that holds at the start and that
every transition of a run keeps gives every property that the transitions have under
it. -/
theorem always_of_invariant {s₀ : σ} (I : List α → σ → Prop) {P : List α → σ → α → σ → Prop}
    {as : List α} (h₀ : I [] s₀)
    (hstep : ∀ hist s a s', hist ++ [a] <+: as → run step s₀ hist = some s → I hist s →
      step s a = some s' → I (hist ++ [a]) s' ∧ P hist s a s') : Always step P s₀ as := by
  intro hist a s s' hpre hs hs'
  have hI : I hist s :=
    run_history I h₀ (fun hist b r r' hpre' hr hI hr' => (hstep hist r b r' hpre' hr hI hr').1)
      ((List.prefix_append hist [a]).trans hpre) hs
  exact (hstep hist s a s' hpre hs hI hs').2

/-- **Two properties at once.** If `P` and `Q` agree on the transitions from states in the
invariant, and the transitions with `P` keep it, then the two hold throughout the same
runs. -/
theorem always_iff_of_invariant {s₀ : σ} (I : List α → σ → Prop)
    {P Q : List α → σ → α → σ → Prop} {as : List α} (h₀ : I [] s₀)
    (hstep : Always step (fun hist s a s' => I hist s →
      (P hist s a s' ↔ Q hist s a s') ∧ (P hist s a s' → I (hist ++ [a]) s')) s₀ as) :
    Always step P s₀ as ↔ Always step Q s₀ as := by
  refine ⟨fun hP => ?_, fun hQ => ?_⟩
  · refine always_of_invariant I h₀ fun hist s a s' hpre hs hI hs' => ?_
    obtain ⟨hiff, hkeep⟩ := hstep hist a s s' hpre hs hs' hI
    have hP' := hP hist a s s' hpre hs hs'
    exact ⟨hkeep hP', hiff.mp hP'⟩
  · refine always_of_invariant I h₀ fun hist s a s' hpre hs hI hs' => ?_
    obtain ⟨hiff, hkeep⟩ := hstep hist a s s' hpre hs hs' hI
    have hP' := hiff.mpr (hQ hist a s s' hpre hs hs')
    exact ⟨hkeep hP', hP'⟩

/-- A property of states that holds at the start and is kept by the transitions with `Q`,
and by no other, holds after every transition of a run exactly when all of them have
`Q`. -/
theorem always_state_iff {s₀ : σ} {K : σ → Prop} {Q : List α → σ → α → σ → Prop} {as : List α}
    (h₀ : K s₀)
    (hstep : Always step (fun hist s a s' => K s → (K s' ↔ Q hist s a s')) s₀ as) :
    Always step (fun _ _ _ s' => K s') s₀ as ↔ Always step Q s₀ as :=
  always_iff_of_invariant (fun _ s => K s) h₀ fun hist a s s' hpre hs hs' hK =>
    ⟨hstep hist a s s' hpre hs hs' hK, id⟩

/-- What holds at the start and after every transition holds at the end. -/
theorem Always.end_state {s₀ s : σ} {K : σ → Prop} (h₀ : K s₀) {as : List α}
    (h : Always step (fun _ _ _ s' => K s') s₀ as) (hs : run step s₀ as = some s) : K s := by
  rcases List.eq_nil_or_concat' as with rfl | ⟨as, a, rfl⟩
  · obtain rfl := Option.some.inj hs
    exact h₀
  · obtain ⟨_, -, hK⟩ := h.last as a hs
    exact hK

/-- What always holds, whatever the history, holds of what follows any point of a run. -/
theorem Always.drop {s₀ s : σ} {P : σ → α → σ → Prop} {as bs : List α}
    (h : Always step (fun _ => P) s₀ (as ++ bs)) (hs : run step s₀ as = some s) :
    Always step (fun _ => P) s bs := by
  intro hist a t t' hpre ht ht'
  refine h (as ++ hist) a t t' ?_ ?_ ht'
  · rw [List.append_assoc]
    exact (List.prefix_append_right_inj as).mpr hpre
  · rw [run_append, hs]
    exact ht

/-- Two transition properties that agree on every transition of a run hold
throughout it together. -/
theorem always_congr {s₀ : σ} {P Q : List α → σ → α → σ → Prop} {as : List α}
    (h : Always step (fun hist s a s' => P hist s a s' ↔ Q hist s a s') s₀ as) :
    Always step P s₀ as ↔ Always step Q s₀ as := by
  refine ⟨fun hP hist a s s' hpre hrun hs' => ?_, fun hQ hist a s s' hpre hrun hs' => ?_⟩
  · exact (h hist a s s' hpre hrun hs').mp (hP hist a s s' hpre hrun hs')
  · exact (h hist a s s' hpre hrun hs').mpr (hQ hist a s s' hpre hrun hs')

theorem always_and {s₀ : σ} {P Q : List α → σ → α → σ → Prop} {as : List α} :
    Always step (fun hist s a s' => P hist s a s' ∧ Q hist s a s') s₀ as ↔
      Always step P s₀ as ∧ Always step Q s₀ as := by
  refine ⟨fun h => ⟨?_, ?_⟩, fun ⟨hP, hQ⟩ hist a s s' hpre hrun hs' => ?_⟩
  · exact fun hist a s s' hpre hrun hs' => (h hist a s s' hpre hrun hs').1
  · exact fun hist a s s' hpre hrun hs' => (h hist a s s' hpre hrun hs').2
  · exact ⟨hP hist a s s' hpre hrun hs', hQ hist a s s' hpre hrun hs'⟩

/-- **Loop rule.** A loop over `0, …, n - 1` whose body keeps `P` (indexed by
the number of iterations done) never fails and ends in `P n`. -/
theorem foldlM_range_induction {f : σ → ℕ → Option σ} (P : ℕ → σ → Prop) {s₀ : σ} (h₀ : P 0 s₀)
    {n : ℕ} (hstep : ∀ i s, i < n → P i s → ∃ s', f s i = some s' ∧ P (i + 1) s') :
    ∃ s, (List.range n).foldlM f s₀ = some s ∧ P n s := by
  induction n with
  | zero => exact ⟨s₀, rfl, h₀⟩
  | succ n ih =>
    obtain ⟨s, hs, hP⟩ := ih fun i s hi => hstep i s (by omega)
    obtain ⟨s', hs', hP'⟩ := hstep n s (by omega) hP
    refine ⟨s', ?_, hP'⟩
    rw [List.range_succ, List.foldlM_append, hs]
    simpa using hs'

/-- What the body of such a loop keeps whenever it succeeds holds if the loop does. -/
theorem foldlM_range_invariant {f : σ → ℕ → Option σ} (P : ℕ → σ → Prop) {s₀ t : σ} (h₀ : P 0 s₀)
    {n : ℕ} (hstep : ∀ i s s', i < n → P i s → f s i = some s' → P (i + 1) s')
    (h : (List.range n).foldlM f s₀ = some t) : P n t := by
  induction n generalizing t with
  | zero =>
    obtain rfl := Option.some.inj h
    exact h₀
  | succ n ih =>
    rw [List.range_succ, List.foldlM_append] at h
    obtain ⟨s, hs, hst⟩ := Option.bind_eq_some_iff.mp h
    have hP := ih (fun i s s' hi => hstep i s s' (by omega)) hs
    exact hstep n s t (by omega) hP (by simpa using hst)

end Runs
