import Mathlib.Data.Set.Insert
import MoonMessenger.Lib.Runs

/-!
# Read-modify-write requests on one cell

Requests share a cell. Each of them reads it once and later, with the cell perhaps
changed by others in between, writes what it makes of what it read; nothing locks the
cell. When the cell is a collection and each request means to add an element of its
own (`Collects`), a write can take away what others added since the read.

`always_keeps_iff` says exactly when that happens: a run keeps every element, from the
start on, if and only if each write comes from a request that read all that is there,
its own element aside (`UpToDate`).
-/

namespace ReadModifyWrite

universe u v w x

variable {ι : Type u} {σ : Type v} {ρ : Type w} {κ : Type x}

/-- What the requests do to the cell. -/
structure Requests (ι : Type u) (σ : Type v) (ρ : Type w) where
  /-- what a request gets when it reads, if it gets an answer -/
  read : ι → σ → Option ρ
  /-- the cell after a request has written -/
  write : ι → ρ → σ → σ

/-- How far a request has come. -/
inductive Phase (ρ : Type w) where
  | idle
  /-- it has read, and not written yet -/
  | pending (r : ρ)
  | written

/-- The cell and the requests. -/
structure State (ι : Type u) (σ : Type v) (ρ : Type w) where
  cell : σ
  phase : ι → Phase ρ

/-- The start: nothing has been requested. -/
def State.init (cell : σ) : State ι σ ρ := ⟨cell, fun _ => .idle⟩

/-- The atomic steps. -/
inductive Event (ι : Type u) where
  | read (i : ι)
  | write (i : ι)

variable [DecidableEq ι]

/-- The request `i` gets to the phase `p` and leaves the cell as `c`. -/
def State.advance (s : State ι σ ρ) (i : ι) (p : Phase ρ) (c : σ) : State ι σ ρ :=
  ⟨c, Function.update s.phase i p⟩

@[simp] theorem State.cell_advance (s : State ι σ ρ) (i : ι) (p : Phase ρ) (c : σ) :
    (s.advance i p c).cell = c := rfl

@[simp] theorem State.phase_advance_self (s : State ι σ ρ) (i : ι) (p : Phase ρ) (c : σ) :
    (s.advance i p c).phase i = p := Function.update_self ..

theorem State.phase_advance_of_ne {i j : ι} (h : j ≠ i) (s : State ι σ ρ) (p : Phase ρ) (c : σ) :
    (s.advance i p c).phase j = s.phase j := Function.update_of_ne h ..

/-- One step of one request. -/
def step (R : Requests ι σ ρ) (s : State ι σ ρ) : Event ι → Option (State ι σ ρ)
  | .read i =>
    match s.phase i with
    | .idle => (R.read i s.cell).map fun r => s.advance i (.pending r) s.cell
    | _ => none
  | .write i =>
    match s.phase i with
    | .pending r => some (s.advance i .written (R.write i r s.cell))
    | _ => none

/-! ## Inversion -/

section Inversion

variable {R : Requests ι σ ρ} {s s' : State ι σ ρ} {i : ι}

theorem step_read (h : step R s (.read i) = some s') :
    ∃ r, s.phase i = .idle ∧ R.read i s.cell = some r ∧ s' = s.advance i (.pending r) s.cell := by
  rw [step] at h
  split at h
  · rename_i hidle
    obtain ⟨r, hr, rfl⟩ := Option.map_eq_some_iff.mp h
    exact ⟨r, hidle, hr, rfl⟩
  · cases h

theorem step_write (h : step R s (.write i) = some s') :
    ∃ r, s.phase i = .pending r ∧ s' = s.advance i .written (R.write i r s.cell) := by
  rw [step] at h
  split at h
  · rename_i r hr
    exact ⟨r, hr, (Option.some.inj h).symm⟩
  · cases h

theorem step_read_eq {r : ρ} (hidle : s.phase i = .idle) (hr : R.read i s.cell = some r) :
    step R s (.read i) = some (s.advance i (.pending r) s.cell) := by
  rw [step, hidle, hr]
  rfl

theorem step_write_eq {r : ρ} (hpending : s.phase i = .pending r) :
    step R s (.write i) = some (s.advance i .written (R.write i r s.cell)) := by
  rw [step, hpending]

end Inversion

/-- A request that has written stays so. -/
theorem phase_step_of_written {R : Requests ι σ ρ} {s s' : State ι σ ρ} {e : Event ι} {i : ι}
    (hi : s.phase i = .written) (hs : step R s e = some s') : s'.phase i = .written := by
  cases e with
  | read j =>
    obtain ⟨r, hidle, -, rfl⟩ := step_read hs
    have hij : i ≠ j := by
      rintro rfl
      rw [hidle] at hi
      cases hi
    rw [State.phase_advance_of_ne hij, hi]
  | write j =>
    obtain ⟨r, hpending, rfl⟩ := step_write hs
    have hij : i ≠ j := by
      rintro rfl
      rw [hpending] at hi
      cases hi
    rw [State.phase_advance_of_ne hij, hi]

/-- At the end of a run, the requests that wrote in it have written. -/
theorem phase_of_write_mem {R : Requests ι σ ρ} {s₀ s : State ι σ ρ} {es : List (Event ι)} {i : ι}
    (hmem : .write i ∈ es) (hs : Runs.run (step R) s₀ es = some s) : s.phase i = .written := by
  refine Runs.run_history (fun hist s => .write i ∈ hist → s.phase i = .written)
    (fun hmem => absurd hmem List.not_mem_nil) ?_ (List.prefix_refl es) hs hmem
  intro hist e r r' _ _ ih hr' hmem
  rcases List.mem_append.mp hmem with hmem | hmem
  · exact phase_step_of_written (ih hmem) hr'
  · obtain rfl := List.mem_singleton.mp hmem
    obtain ⟨_, -, rfl⟩ := step_write hr'
    exact State.phase_advance_self ..

/-- Two overlapping requests: the second write knows nothing of the first. -/
theorem run_overlap {R : Requests ι σ ρ} {i j : ι} (hij : i ≠ j) {c : σ} {r r' : ρ}
    (hi : R.read i c = some r) (hj : R.read j c = some r') :
    ∃ s, Runs.run (step R) (.init c) [.read i, .read j, .write i, .write j] = some s ∧
      s.cell = R.write j r' (R.write i r c) := by
  let s₁ : State ι σ ρ := (State.init c).advance i (.pending r) c
  let s₂ := s₁.advance j (.pending r') c
  let s₃ := s₂.advance i .written (R.write i r c)
  let s₄ := s₃.advance j .written (R.write j r' (R.write i r c))
  have h₁ : step R (.init c) (.read i) = some s₁ := step_read_eq rfl hi
  have h₂ : step R s₁ (.read j) = some s₂ :=
    step_read_eq (State.phase_advance_of_ne hij.symm ..) hj
  have h₃ : step R s₂ (.write i) = some s₃ :=
    step_write_eq ((State.phase_advance_of_ne hij ..).trans (State.phase_advance_self ..))
  have h₄ : step R s₃ (.write j) = some s₄ :=
    step_write_eq ((State.phase_advance_of_ne hij.symm ..).trans (State.phase_advance_self ..))
  refine ⟨s₄, ?_, rfl⟩
  simp only [Runs.run_cons, Runs.run_nil, h₁, h₂, h₃, h₄, Option.bind_some]

/-! ## Collections -/

/-- The cell is a collection with the elements `contents`; a request reads all of them
and writes what it read with its own element added. -/
structure Collects (R : Requests ι σ ρ) (contents : σ → Set κ) (seen : ρ → Set κ) (own : ι → κ) :
    Prop where
  read : ∀ i r c, R.read i c = some r → seen r = contents c
  write : ∀ i r c, contents (R.write i r c) = insert (own i) (seen r)

/-- Nothing is lost: the elements there were at the start, and those of the requests
that have written. -/
structure Keeps (contents : σ → Set κ) (own : ι → κ) (c₀ : σ) (s : State ι σ ρ) : Prop where
  initial : contents c₀ ⊆ contents s.cell
  written : ∀ i, s.phase i = .written → own i ∈ contents s.cell

/-- A write comes from a request that has read all that is there, its own element
aside. -/
def UpToDate (contents : σ → Set κ) (seen : ρ → Set κ) (own : ι → κ) (s : State ι σ ρ) :
    Event ι → Prop
  | .read _ => True
  | .write i => ∀ r, s.phase i = .pending r → contents s.cell ⊆ insert (own i) (seen r)

section Collections

variable {R : Requests ι σ ρ} {contents : σ → Set κ} {seen : ρ → Set κ} {own : ι → κ} {c₀ : σ}
  {s s' : State ι σ ρ}

/-- Nothing comes from elsewhere. -/
def Within (contents : σ → Set κ) (own : ι → κ) (c₀ : σ) (s : State ι σ ρ) (es : Set κ) : Prop :=
  ∀ k ∈ es, k ∈ contents c₀ ∨ ∃ i, s.phase i = .written ∧ own i = k

/-- The elements in the cell, and those a request has read, come from the start or from
a write. -/
structure Accounted (contents : σ → Set κ) (seen : ρ → Set κ) (own : ι → κ) (c₀ : σ)
    (s : State ι σ ρ) : Prop where
  cell : Within contents own c₀ s (contents s.cell)
  pending : ∀ i r, s.phase i = .pending r → Within contents own c₀ s (seen r)

/-- A step forgets no write. -/
theorem Within.advance {es : Set κ} (h : Within contents own c₀ s es) {i : ι} {p : Phase ρ}
    (hi : s.phase i ≠ .written) (c : σ) : Within contents own c₀ (s.advance i p c) es := by
  intro k hk
  rcases h k hk with h₀ | ⟨j, hj, hown⟩
  · exact Or.inl h₀
  · have hji : j ≠ i := by
      rintro rfl
      exact hi hj
    exact Or.inr ⟨j, by rw [State.phase_advance_of_ne hji, hj], hown⟩

/-- Every step keeps the account. -/
theorem Accounted.step (hR : Collects R contents seen own) (h : Accounted contents seen own c₀ s)
    {e : Event ι} (hs : step R s e = some s') : Accounted contents seen own c₀ s' := by
  cases e with
  | read i =>
    obtain ⟨r, hidle, hr, rfl⟩ := step_read hs
    have hi : s.phase i ≠ .written := by simp [hidle]
    refine ⟨h.cell.advance hi _, fun j r' hj => ?_⟩
    by_cases hji : j = i
    · subst hji
      rw [State.phase_advance_self] at hj
      obtain rfl := Phase.pending.inj hj
      rw [hR.read _ _ _ hr]
      exact h.cell.advance hi _
    · rw [State.phase_advance_of_ne hji] at hj
      exact (h.pending j r' hj).advance hi _
  | write i =>
    obtain ⟨r, hpending, rfl⟩ := step_write hs
    have hi : s.phase i ≠ .written := by simp [hpending]
    refine ⟨fun k hk => ?_, fun j r' hj => ?_⟩
    · rw [State.cell_advance, hR.write] at hk
      rcases hk with rfl | hk
      · exact Or.inr ⟨i, State.phase_advance_self .., rfl⟩
      · exact (h.pending i r hpending).advance hi _ k hk
    · have hji : j ≠ i := by
        rintro rfl
        simp at hj
      rw [State.phase_advance_of_ne hji] at hj
      exact (h.pending j r' hj).advance hi _

/-- **One step.** Where nothing has been lost, a step loses nothing exactly when it is up
to date. -/
theorem keeps_step_iff (hR : Collects R contents seen own) (h : Accounted contents seen own c₀ s)
    (hkeeps : Keeps contents own c₀ s) {e : Event ι} (hs : step R s e = some s') :
    Keeps contents own c₀ s' ↔ UpToDate contents seen own s e := by
  cases e with
  | read i =>
    obtain ⟨r, -, -, rfl⟩ := step_read hs
    refine iff_of_true ⟨hkeeps.initial, fun j hj => hkeeps.written j ?_⟩ trivial
    have hji : j ≠ i := by
      rintro rfl
      simp at hj
    rwa [State.phase_advance_of_ne hji] at hj
  | write i =>
    obtain ⟨r, hpending, rfl⟩ := step_write hs
    refine ⟨fun hkeeps' r' hr' k hk => ?_, fun hupToDate => ⟨fun k hk => ?_, fun j hj => ?_⟩⟩
    · obtain rfl := Phase.pending.inj (hpending.symm.trans hr')
      rw [← hR.write i r s.cell]
      rcases h.cell k hk with h₀ | ⟨j, hj, rfl⟩
      · exact hkeeps'.initial h₀
      · have hji : j ≠ i := by
          rintro rfl
          rw [hpending] at hj
          cases hj
        exact hkeeps'.written j (by rw [State.phase_advance_of_ne hji, hj])
    · rw [State.cell_advance, hR.write]
      exact hupToDate r hpending (hkeeps.initial hk)
    · rw [State.cell_advance, hR.write]
      by_cases hji : j = i
      · subst hji
        exact Set.mem_insert _ _
      · rw [State.phase_advance_of_ne hji] at hj
        exact hupToDate r hpending (hkeeps.written j hj)

omit [DecidableEq ι] in
theorem keeps_init (contents : σ → Set κ) (own : ι → κ) (c₀ : σ) :
    Keeps contents own c₀ (State.init c₀ : State ι σ ρ) :=
  ⟨subset_rfl, fun i hi => by cases hi⟩

/-- **Lost updates.** Every state of a run keeps what there was at the start and what
has been written if and only if every write of the run is up to date. -/
theorem always_keeps_iff (hR : Collects R contents seen own) (c₀ : σ) (es : List (Event ι)) :
    Runs.Always (step R) (fun _ _ _ s' => Keeps contents own c₀ s') (.init c₀) es ↔
      Runs.Always (step R) (fun _ s e _ => UpToDate contents seen own s e) (.init c₀) es := by
  have haccounted : Accounted contents seen own c₀ (State.init c₀ : State ι σ ρ) :=
    ⟨fun k hk => Or.inl hk, fun i r hi => by cases hi⟩
  refine Runs.always_state_iff (keeps_init contents own c₀) ?_
  intro hist e s s' _ hs hs' hkeeps
  refine keeps_step_iff hR ?_ hkeeps hs'
  exact Runs.run_invariant (Accounted contents seen own c₀) haccounted
    (fun s e s' h hs => h.step hR hs) hs

end Collections

end ReadModifyWrite
