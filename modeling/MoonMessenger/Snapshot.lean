import Mathlib.Data.List.Basic
import Mathlib.Data.List.Nodup
import Mathlib.Data.List.Perm.Basic

/-!
# Diffable data source snapshots

`NSDiffableDataSourceSnapshot<Section, Item>`: an ordered list of sections, each
with its items in order. Section identifiers are pairwise distinct and so are the
item identifiers of the whole snapshot, where items are compared by their own
`==`. UIKit raises a fatal exception when an operation would break this or names
a section that is not there; such an operation returns `none` here. So every
`Snapshot` value is one the library can hold.

The lemmas at the end describe the operations on a snapshot whose last section is
known, which is where the app edits it.
-/

namespace MoonMessenger

variable {σ ι : Type}

/-! ## Section lists -/

/-- New sections start without items. -/
theorem flatMap_emptySections (ids : List σ) :
    (ids.map fun id => (id, ([] : List ι))).flatMap Prod.snd = [] := by
  induction ids with
  | nil => rfl
  | cons id ids ih => exact ih

variable [DecidableEq σ]

/-- The sections with `items` put at the end of `sec`. -/
def withItems (sections : List (σ × List ι)) (sec : σ) (items : List ι) : List (σ × List ι) :=
  sections.map fun p => if p.1 = sec then (p.1, p.2 ++ items) else p

theorem map_fst_withItems (sections : List (σ × List ι)) (sec : σ) (items : List ι) :
    (withItems sections sec items).map Prod.fst = sections.map Prod.fst := by
  rw [withItems, List.map_map]
  refine List.map_congr_left fun p _ => ?_
  simp only [Function.comp_apply]
  split <;> rfl

theorem withItems_of_notMem {sections : List (σ × List ι)} {sec : σ}
    (h : sec ∉ sections.map Prod.fst) (items : List ι) :
    withItems sections sec items = sections := by
  refine (List.map_congr_left fun p hp => ?_).trans (List.map_id _)
  have hne : p.1 ≠ sec := fun he => h (he ▸ List.mem_map_of_mem hp)
  rw [if_neg hne]
  rfl

theorem withItems_concat {sections : List (σ × List ι)} {sec : σ}
    (h : sec ∉ sections.map Prod.fst) (old items : List ι) :
    withItems (sections ++ [(sec, old)]) sec items = sections ++ [(sec, old ++ items)] := by
  have hrest := withItems_of_notMem h items
  rw [withItems] at hrest ⊢
  rw [List.map_append, hrest, List.map_singleton, if_pos rfl]

theorem flatMap_withItems_perm {sections : List (σ × List ι)} {sec : σ} {items : List ι}
    (hnd : (sections.map Prod.fst).Nodup) (hmem : sec ∈ sections.map Prod.fst) :
    ((withItems sections sec items).flatMap Prod.snd).Perm
      (sections.flatMap Prod.snd ++ items) := by
  obtain ⟨p, hp, rfl⟩ := List.mem_map.mp hmem
  obtain ⟨l₁, l₂, rfl⟩ := List.append_of_mem hp
  rw [List.map_append, List.map_cons, List.nodup_middle, List.nodup_cons, List.mem_append,
    not_or] at hnd
  have h₁ := withItems_of_notMem hnd.1.1 items
  have h₂ := withItems_of_notMem hnd.1.2 items
  rw [withItems] at h₁ h₂ ⊢
  rw [List.map_append, List.map_cons, h₁, h₂, if_pos rfl]
  simp only [List.flatMap_append, List.flatMap_cons, List.append_assoc]
  exact (List.perm_append_left_iff _).mpr <|
    (List.perm_append_left_iff _).mpr List.perm_append_comm

/-! ## Snapshots -/

variable [BEq ι]

/-- Two item identifiers the snapshot tells apart. -/
abbrev Distinct (a b : ι) : Prop := (a == b) = false

/-- A snapshot. -/
@[ext] structure Snapshot (σ ι : Type) [DecidableEq σ] [BEq ι] where
  /-- the sections in order, each with its items -/
  sections : List (σ × List ι)
  /-- no section identifier occurs twice -/
  nodup_sections : (sections.map Prod.fst).Nodup
  /-- no item identifier occurs twice, in whatever sections -/
  distinct_items : (sections.flatMap Prod.snd).Pairwise Distinct

namespace Snapshot

/-- The empty snapshot. -/
def empty : Snapshot σ ι := ⟨[], List.nodup_nil, List.Pairwise.nil⟩

/-- `sectionIdentifiers` -/
def sectionIdentifiers (s : Snapshot σ ι) : List σ := s.sections.map Prod.fst

/-- `itemIdentifiers`, over all sections -/
def itemIdentifiers (s : Snapshot σ ι) : List ι := s.sections.flatMap Prod.snd

/-- `itemIdentifiers(inSection:)` -/
def itemIdentifiersInSection (s : Snapshot σ ι) (sec : σ) : Option (List ι) :=
  (s.sections.find? fun p => p.1 = sec).map Prod.snd

/-- `appendSections`, which raises unless the identifiers are new and distinct. -/
def appendSections (s : Snapshot σ ι) (ids : List σ) : Option (Snapshot σ ι) :=
  if h : (s.sectionIdentifiers ++ ids).Nodup then
    some ⟨s.sections ++ ids.map fun id => (id, []),
      by simpa [sectionIdentifiers, Function.comp_def] using h,
      by rw [List.flatMap_append, flatMap_emptySections, List.append_nil]
         exact s.distinct_items⟩
  else none

/-- `deleteAllItems`, which removes the sections too. -/
def deleteAllItems (_ : Snapshot σ ι) : Snapshot σ ι := empty

/-! ### The last section -/

variable {s : Snapshot σ ι} {rest : List (σ × List ι)} {sec : σ} {old : List ι}

@[simp] theorem sections_deleteAllItems (s : Snapshot σ ι) : s.deleteAllItems.sections = [] := rfl

theorem appendSections_eq_some {ids : List σ} (h : (s.sectionIdentifiers ++ ids).Nodup) :
    ∃ s', s.appendSections ids = some s' ∧
      s'.sections = s.sections ++ ids.map fun id => (id, []) := by
  rw [appendSections, dif_pos h]
  exact ⟨_, rfl, rfl⟩

/-- Sections are added without items. -/
theorem itemIdentifiers_of_appendSections {s' : Snapshot σ ι} {ids : List σ}
    (h : s.appendSections ids = some s') : s'.itemIdentifiers = s.itemIdentifiers := by
  rw [appendSections] at h
  split at h
  · obtain rfl := Option.some.inj h
    change (s.sections ++ ids.map fun id => (id, ([] : List ι))).flatMap Prod.snd = _
    rw [List.flatMap_append, flatMap_emptySections, List.append_nil]
    rfl
  · cases h

theorem getLast?_sectionIdentifiers (hs : s.sections = rest ++ [(sec, old)]) :
    s.sectionIdentifiers.getLast? = some sec := by
  rw [sectionIdentifiers, hs, List.map_append, List.map_singleton, List.getLast?_concat]

theorem itemIdentifiers_of_last (hs : s.sections = rest ++ [(sec, old)]) :
    s.itemIdentifiers = rest.flatMap Prod.snd ++ old := by
  simp [itemIdentifiers, hs]

theorem notMem_rest (hs : s.sections = rest ++ [(sec, old)]) : sec ∉ rest.map Prod.fst := by
  have hnd := s.nodup_sections
  rw [hs, List.map_append, List.map_singleton, List.nodup_append] at hnd
  exact fun hmem => hnd.2.2 sec hmem sec (List.mem_singleton_self sec) rfl

theorem itemIdentifiersInSection_last (hs : s.sections = rest ++ [(sec, old)]) :
    s.itemIdentifiersInSection sec = some old := by
  have hrest : rest.find? (fun p => p.1 = sec) = none := by
    rw [List.find?_eq_none]
    intro p hp he
    exact notMem_rest hs (of_decide_eq_true he ▸ List.mem_map_of_mem hp)
  rw [itemIdentifiersInSection, hs, List.find?_append, hrest]
  simp

variable [EquivBEq ι]

theorem Distinct.symm {a b : ι} (h : Distinct a b) : Distinct b a := by
  rw [Distinct, BEq.comm]
  exact h

/-- `appendItems(_:toSection:)`, by default to the last section; raises when there
is no such section or when an identifier is not new. -/
def appendItems (s : Snapshot σ ι) (items : List ι) (toSection : Option σ) :
    Option (Snapshot σ ι) :=
  match toSection.or s.sectionIdentifiers.getLast? with
  | none => none
  | some sec =>
    if h : sec ∈ s.sectionIdentifiers ∧ (s.itemIdentifiers ++ items).Pairwise Distinct then
      some ⟨withItems s.sections sec items,
        by rw [map_fst_withItems]; exact s.nodup_sections,
        (flatMap_withItems_perm s.nodup_sections h.1).symm.pairwise h.2 Distinct.symm⟩
    else none

/-- `deleteItems` -/
def deleteItems (s : Snapshot σ ι) (ids : List ι) : Snapshot σ ι where
  sections := s.sections.map fun p => (p.1, p.2.filter fun x => !ids.any fun y => y == x)
  nodup_sections := by
    rw [List.map_map]
    exact s.nodup_sections
  distinct_items := by
    rw [List.flatMap_map, ← List.filter_flatMap]
    exact s.distinct_items.sublist List.filter_sublist

/-! ### Editing the last section -/

/-- Appending to the last section succeeds as soon as the items are new. -/
theorem appendItems_last {items : List ι} (hs : s.sections = rest ++ [(sec, old)])
    (hd : (s.itemIdentifiers ++ items).Pairwise Distinct) (toSection : Option σ)
    (hto : toSection.or s.sectionIdentifiers.getLast? = some sec) :
    ∃ s', s.appendItems items toSection = some s' ∧
      s'.sections = rest ++ [(sec, old ++ items)] := by
  have hmem : sec ∈ s.sectionIdentifiers :=
    List.mem_of_getLast? (getLast?_sectionIdentifiers hs)
  refine ⟨_, by rw [appendItems, hto]; exact dif_pos ⟨hmem, hd⟩, ?_⟩
  change withItems s.sections sec items = _
  rw [hs, withItems_concat (notMem_rest hs)]

/-- Appending succeeds for new items only. -/
theorem pairwise_of_appendItems {s' : Snapshot σ ι} {items : List ι} {toSection : Option σ}
    (h : s.appendItems items toSection = some s') :
    (s.itemIdentifiers ++ items).Pairwise Distinct := by
  rw [appendItems] at h
  split at h
  · cases h
  · split at h
    · rename_i hd
      exact hd.2
    · cases h

/-- What is appended to the last section comes last. -/
theorem itemIdentifiers_of_appendItems {s' : Snapshot σ ι} {items : List ι}
    (h : s.appendItems items s.sectionIdentifiers.getLast? = some s') :
    s'.itemIdentifiers = s.itemIdentifiers ++ items := by
  rcases List.eq_nil_or_concat' s.sections with hnil | ⟨rest, ⟨sec, old⟩, hs⟩
  · have hlast : s.sectionIdentifiers.getLast? = none := by simp [sectionIdentifiers, hnil]
    simp [appendItems, hlast] at h
  · obtain ⟨t, ht, hsections⟩ := appendItems_last hs (pairwise_of_appendItems h)
      s.sectionIdentifiers.getLast? (by rw [getLast?_sectionIdentifiers hs]; rfl)
    obtain rfl := Option.some.inj (h.symm.trans ht)
    rw [itemIdentifiers_of_last hsections, itemIdentifiers_of_last hs, List.append_assoc]

omit [EquivBEq ι] in
/-- Deleting items leaves the sections. -/
theorem sectionIdentifiers_deleteItems (s : Snapshot σ ι) (ids : List ι) :
    (s.deleteItems ids).sectionIdentifiers = s.sectionIdentifiers := by
  rw [sectionIdentifiers, deleteItems, List.map_map]
  rfl

/-- The items before the last one are other items. -/
theorem beq_last_eq_false {init : List ι} {x y : ι} (hs : s.itemIdentifiers = init ++ [x])
    (hy : y ∈ init) : (x == y) = false := by
  have hd := s.distinct_items
  rw [← itemIdentifiers, hs, List.pairwise_append] at hd
  exact Distinct.symm (hd.2.2 y hy x (List.mem_singleton_self x))

/-- Deleting the last item leaves the others. -/
theorem itemIdentifiers_deleteItems_last {init : List ι} {x : ι}
    (hs : s.itemIdentifiers = init ++ [x]) : (s.deleteItems [x]).itemIdentifiers = init := by
  have hfilter : (s.deleteItems [x]).itemIdentifiers =
      s.itemIdentifiers.filter fun y => !([x].any fun z => z == y) := by
    rw [itemIdentifiers, deleteItems, List.flatMap_map, itemIdentifiers, List.filter_flatMap]
  rw [hfilter, hs, List.filter_append, List.filter_eq_self.mpr]
  · simp
  · intro y hy
    simp [beq_last_eq_false hs hy]

/-- Deleting the last item takes it off the last section. -/
theorem deleteItems_last {x : ι} (hs : s.sections = rest ++ [(sec, old ++ [x])]) :
    (s.deleteItems [x]).sections = rest ++ [(sec, old)] := by
  have hitems : s.itemIdentifiers = (rest.flatMap Prod.snd ++ old) ++ [x] := by
    rw [itemIdentifiers_of_last hs, List.append_assoc]
  have hkeep : ∀ y ∈ rest.flatMap Prod.snd ++ old, (!([x].any fun z => z == y)) = true := by
    intro y hy
    simp [beq_last_eq_false hitems hy]
  have hrest :
      rest.map (fun p => (p.1, p.2.filter fun y => !([x].any fun z => z == y))) = rest := by
    refine (List.map_congr_left fun p hp => ?_).trans (List.map_id _)
    rw [List.filter_eq_self.mpr]
    · rfl
    · intro y hy
      exact hkeep y (List.mem_append_left _ (List.mem_flatMap.mpr ⟨p, hp, hy⟩))
  have hold : old.filter (fun y => !([x].any fun z => z == y)) = old :=
    List.filter_eq_self.mpr fun y hy => hkeep y (List.mem_append_right _ hy)
  simp only [deleteItems, hs, List.map_append, hrest, List.map_singleton, List.filter_append, hold]
  simp

end Snapshot

end MoonMessenger
