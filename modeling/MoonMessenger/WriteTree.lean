import MoonMessenger.CompoundWrite
import MoonMessenger.Lib.Runs

/-!
# Pending writes

`FWriteTree.m`: what the client shows at a path while its writes have not been
acknowledged. A write is made to the tree of visible writes when it is recorded, and taken
out of it when it is removed, if need be by building the tree anew. Merges are left out;
the app makes none.

* `eventCache_eq_replay` — over whole runs, the tree that is shown is the server's with
  the pending writes made one after the other;
* `eventCache_excluding` — so it is without some of the writes, where no tree of visible
  writes is kept.
-/

namespace MoonMessenger

open PathMap

/-- `FWriteRecord`, of an overwrite. -/
structure FWriteRecord where
  writeId : ℤ
  path : FPath
  overwrite : FNode
  visible : Bool

/-- What a record writes. -/
def FWriteRecord.write (record : FWriteRecord) : FPath × PathMap String Leaf :=
  (record.path, record.overwrite.leaves)

/-- `FWriteTree` -/
structure FWriteTree where
  visibleWrites : FCompoundWrite
  allWrites : List FWriteRecord
  lastWriteId : ℤ

namespace FWriteTree

/-- `init` -/
def init : FWriteTree := ⟨.emptyWrite, [], -1⟩

/-- `addOverwriteAtPath:`; `none` where its assertion fails. -/
def addOverwriteAtPath (t : FWriteTree) (record : FWriteRecord) : Option FWriteTree :=
  if record.writeId > t.lastWriteId then do
    let visibleWrites ←
      if record.visible then t.visibleWrites.addWrite record.overwrite record.path
      else some t.visibleWrites
    return ⟨visibleWrites, t.allWrites ++ [record], record.writeId⟩
  else none

/-- The body of the loop of `layerTreeFromWrites:`. -/
def layer (filter : FWriteRecord → Bool) (treeRoot : FPath) (compoundWrite : FCompoundWrite)
    (record : FWriteRecord) : Option FCompoundWrite :=
  if filter record then
    let writePath := record.path
    if treeRoot.contains writePath then do
      let relativePath ← FPath.relativePathFrom treeRoot writePath
      compoundWrite.addWrite record.overwrite relativePath
    else if writePath.contains treeRoot then do
      let relativePath ← FPath.relativePathFrom writePath treeRoot
      compoundWrite.addWrite (record.overwrite.getChild relativePath) []
    else some compoundWrite
  else some compoundWrite

/-- `layerTreeFromWrites:filter:treeRoot:` -/
def layerTreeFromWrites (writes : List FWriteRecord) (filter : FWriteRecord → Bool)
    (treeRoot : FPath) : Option FCompoundWrite :=
  writes.foldlM (layer filter treeRoot) .emptyWrite

/-- `resetTree`. The default filter keeps every write. -/
def resetTree (t : FWriteTree) : Option FWriteTree := do
  let visibleWrites ← layerTreeFromWrites t.allWrites (fun _ => true) []
  return ⟨visibleWrites, t.allWrites, (t.allWrites.getLast?.map FWriteRecord.writeId).getD (-1)⟩

/-- The loop of `removeWriteId:`, with `i` writes still to look at: is the removed write
still visible, and does it overlap with another one? -/
def overlapLoop (allWrites : List FWriteRecord) (index : ℕ) (writeToRemove : FWriteRecord) :
    ℕ → Bool → Bool × Bool
  | 0, overlaps => (true, overlaps)
  | i + 1, overlaps =>
    match allWrites[i]? with
    | some currentWrite =>
      if currentWrite.visible then
        if index ≤ i ∧ currentWrite.path.contains writeToRemove.path then (false, overlaps)
        else if writeToRemove.path.contains currentWrite.path then
          overlapLoop allWrites index writeToRemove i true
        else overlapLoop allWrites index writeToRemove i overlaps
      else overlapLoop allWrites index writeToRemove i overlaps
    | none => overlapLoop allWrites index writeToRemove i overlaps

/-- `removeWriteId:`; `none` where its assertion fails. -/
def removeWriteId (t : FWriteTree) (writeId : ℤ) : Option (FWriteTree × Bool) := do
  let index ← t.allWrites.findIdx? fun record => record.writeId = writeId
  let writeToRemove ← t.allWrites[index]?
  let allWrites := t.allWrites.eraseIdx index
  let (removedWriteWasVisible, removedWriteOverlapsWithOtherWrites) :=
    if writeToRemove.visible then
      overlapLoop allWrites index writeToRemove allWrites.length false
    else (false, false)
  let t := { t with allWrites := allWrites }
  if !removedWriteWasVisible then return (t, false)
  else if removedWriteOverlapsWithOtherWrites then return (← t.resetTree, true)
  else
    return ({ t with visibleWrites := t.visibleWrites.removeWriteAtPath writeToRemove.path }, true)

/-- `calculateCompleteEventCacheAtPath:`; the outer `none` is an exception. -/
def calculateCompleteEventCacheAtPath (t : FWriteTree) (treePath : FPath)
    (completeServerCache : Option FNode) (writeIdsToExclude : Option (List ℤ))
    (includeHiddenWrites : Bool) : Option (Option FNode) :=
  if writeIdsToExclude.isNone && !includeHiddenWrites then do
    match ← t.visibleWrites.completeNodeAtPath treePath with
    | some shadowingNode => return some shadowingNode
    | none =>
      let subMerge ← t.visibleWrites.childCompoundWriteAtPath treePath
      if subMerge.isEmpty then return completeServerCache
      else if completeServerCache.isNone && !(← subMerge.hasCompleteWriteAtPath []) then return none
      else return some (subMerge.applyToNode (completeServerCache.getD .emptyNode))
  else do
    let merge ← t.visibleWrites.childCompoundWriteAtPath treePath
    if !includeHiddenWrites && merge.isEmpty then return completeServerCache
    else if !includeHiddenWrites && completeServerCache.isNone &&
        !(← merge.hasCompleteWriteAtPath []) then return none
    else
      let filter := fun record : FWriteRecord =>
        (record.visible || includeHiddenWrites) &&
          !(writeIdsToExclude.getD []).contains record.writeId &&
          (record.path.contains treePath || treePath.contains record.path)
      let mergeAtPath ← layerTreeFromWrites t.allWrites filter treePath
      return some (mergeAtPath.applyToNode (completeServerCache.getD .emptyNode))

/-! ## Layering -/

section Layer

variable {w : FCompoundWrite} {record : FWriteRecord} {filter : FWriteRecord → Bool}
  {treeRoot : FPath}

/-- The writes that a record makes below the root of a tree. -/
def relativeWrites (treeRoot : FPath) (record : FWriteRecord) :
    List (FPath × PathMap String Leaf) :=
  if treeRoot <+: record.path then [(record.path.drop treeRoot.length, record.overwrite.leaves)]
  else if record.path <+: treeRoot then
    [([], below (treeRoot.drop record.path.length) record.overwrite.leaves)]
  else []

/-- One more record is layered on top. -/
theorem layer_eq_some (treeRoot : FPath) (h : w.Sound) {ws : List (FPath × PathMap String Leaf)}
    (hws : (w.overlay h).Represents ws) (hrecord : record.overwrite.isEmpty = false)
    (hfilter : filter record) : ∃ w' h', layer filter treeRoot w record = some w' ∧
      (FCompoundWrite.overlay w' h').Represents (ws ++ relativeWrites treeRoot record) := by
  rw [layer, if_pos hfilter]
  by_cases hle : treeRoot <+: record.path
  · obtain ⟨path, hpath⟩ := hle
    obtain ⟨w', h', hw', hadd⟩ := FCompoundWrite.overlay_addWrite h hrecord path
    refine ⟨w', h', ?_, ?_⟩
    · rw [if_pos (FPath.contains_iff.mpr ⟨path, hpath⟩), ← hpath, FPath.relativePathFrom_append]
      exact hw'
    · rw [relativeWrites, ← hpath, if_pos (List.prefix_append _ _), List.drop_left, hadd]
      exact hws.add (path, _)
  · by_cases hge : record.path <+: treeRoot
    · obtain ⟨path, hpath⟩ := hge
      obtain ⟨w', h', hw', hadd⟩ :=
        FCompoundWrite.overlay_addWrite_nil h (record.overwrite.getChild path)
      refine ⟨w', h', ?_, ?_⟩
      · rw [if_neg (by rwa [FPath.contains_iff]), if_pos (FPath.contains_iff.mpr ⟨path, hpath⟩),
          ← hpath, FPath.relativePathFrom_append]
        exact hw'
      · rw [relativeWrites, if_neg hle, if_pos ⟨path, hpath⟩, ← hpath, List.drop_left, hadd,
          ← FNode.below_leaves]
        exact hws.add ([], _)
    · refine ⟨w, h, ?_, ?_⟩
      · rw [if_neg (by rwa [FPath.contains_iff]), if_neg (by rwa [FPath.contains_iff])]
      · rw [relativeWrites, if_neg hle, if_neg hge, List.append_nil]
        exact hws

/-- **Layering** the records that pass the filter. -/
theorem layerTreeFromWrites_eq_some (filter : FWriteRecord → Bool) (treeRoot : FPath)
    {ws : List FWriteRecord}
    (hws : ∀ record ∈ ws, record.overwrite.isEmpty = false) :
    ∃ w h, layerTreeFromWrites ws filter treeRoot = some w ∧
      (FCompoundWrite.overlay w h).Represents
        ((ws.filter filter).flatMap (relativeWrites treeRoot)) := by
  induction ws using List.reverseRecOn with
  | nil =>
    refine ⟨.emptyWrite, FCompoundWrite.sound_emptyWrite, rfl, ?_⟩
    rw [FCompoundWrite.overlay_emptyWrite]
    exact Overlay.represents_empty
  | append_singleton ws record ih =>
    obtain ⟨w, h, hw, hrep⟩ := ih fun r hr => hws r (List.mem_append_left _ hr)
    rw [layerTreeFromWrites] at hw ⊢
    rw [List.foldlM_append, hw, List.filter_append, List.flatMap_append]
    simp only [Option.bind_eq_bind, Option.bind_some, List.foldlM_cons, List.foldlM_nil,
      Option.pure_def, Option.bind_fun_some]
    by_cases hfilter : filter record
    · obtain ⟨w', h', hw', hrep'⟩ := layer_eq_some treeRoot h hrep (hws record (by simp)) hfilter
      refine ⟨w', h', hw', ?_⟩
      rw [List.filter_singleton, hfilter]
      simpa using hrep'
    · refine ⟨w, h, ?_, ?_⟩
      · rw [layer, if_neg hfilter]
      · rw [List.filter_singleton, Bool.eq_false_iff.mpr hfilter]
        simpa using hrep

/-- From the root on, a record makes its own write. -/
theorem flatMap_relativeWrites_nil (ws : List FWriteRecord) :
    ws.flatMap (relativeWrites []) = ws.map FWriteRecord.write := by
  induction ws with
  | nil => rfl
  | cons record ws ih =>
    rw [List.flatMap_cons, List.map_cons, ih, relativeWrites, if_pos List.nil_prefix]
    rfl

theorem proper_layerTreeFromWrites {ws : List FWriteRecord}
    (hws : ∀ record ∈ ws, record.overwrite.isEmpty = false)
    (hw : layerTreeFromWrites ws filter [] = some w) : w.writeTree.Proper := by
  induction ws using List.reverseRecOn generalizing w with
  | nil =>
    obtain rfl := Option.some.inj hw
    exact FImmutableTree.proper_empty
  | append_singleton ws record ih =>
    rw [layerTreeFromWrites, List.foldlM_append] at hw
    obtain ⟨w', hw', hlast⟩ := Option.bind_eq_some_iff.mp hw
    have hproper := ih (fun r hr => hws r (List.mem_append_left _ hr)) hw'
    obtain ⟨w'', hw'', hsame⟩ := Option.bind_eq_some_iff.mp hlast
    obtain rfl := Option.some.inj hsame
    rw [layer] at hw''
    split at hw''
    · exact FCompoundWrite.proper_addWrite hproper (hws record (by simp)) hw''
    · obtain rfl := Option.some.inj hw''
      exact hproper

end Layer

/-! ## Removing a write -/

section Remove

variable {l ws₁ ws₂ : List FWriteRecord} {w : FWriteRecord} {index i : ℕ} {overlaps : Bool}

theorem exists_lt_succ {P : ℕ → FWriteRecord → Prop} :
    (∃ j record, j < i + 1 ∧ l[j]? = some record ∧ P j record) ↔
      (∃ record, l[i]? = some record ∧ P i record) ∨
        ∃ j record, j < i ∧ l[j]? = some record ∧ P j record := by
  constructor
  · rintro ⟨j, record, hj, h⟩
    rcases Nat.lt_succ_iff_lt_or_eq.mp hj with hj | rfl
    · exact Or.inr ⟨j, record, hj, h⟩
    · exact Or.inl ⟨record, h⟩
  · rintro (⟨record, h⟩ | ⟨j, record, hj, h⟩)
    · exact ⟨i, record, Nat.lt_succ_self i, h⟩
    · exact ⟨j, record, Nat.lt_succ_of_lt hj, h⟩

/-- The removed write is not visible when a later one covers it. -/
theorem overlapLoop_fst_eq_false_iff : (overlapLoop l index w i overlaps).1 = false ↔
    ∃ j record, j < i ∧ l[j]? = some record ∧ record.visible ∧ index ≤ j ∧
      record.path <+: w.path := by
  induction i generalizing overlaps with
  | zero => simp [overlapLoop]
  | succ i ih =>
    rw [exists_lt_succ, overlapLoop]
    cases hget : l[i]? with
    | none => simpa using ih
    | some record =>
      simp only [Option.some.injEq, exists_eq_left', FPath.contains_iff]
      by_cases hvisible : record.visible
      · rw [if_pos hvisible]
        by_cases hcov : index ≤ i ∧ record.path <+: w.path
        · rw [if_pos hcov]
          exact iff_of_true rfl (Or.inl ⟨hvisible, hcov⟩)
        · rw [if_neg hcov, or_iff_right fun h => hcov h.2]
          split
          · exact ih
          · exact ih
      · rw [if_neg hvisible, or_iff_right fun h => hvisible h.1]
        exact ih

/-- If it is visible, it overlaps with another write when it covers one. -/
theorem overlapLoop_snd_iff (h : (overlapLoop l index w i overlaps).1 = true) :
    (overlapLoop l index w i overlaps).2 = true ↔ overlaps = true ∨
      ∃ j record, j < i ∧ l[j]? = some record ∧ record.visible ∧ w.path <+: record.path := by
  induction i generalizing overlaps with
  | zero => simp [overlapLoop]
  | succ i ih =>
    rw [exists_lt_succ]
    rw [overlapLoop] at h ⊢
    cases hget : l[i]? with
    | none =>
      simp only [hget] at h
      simpa using ih h
    | some record =>
      simp only [hget, FPath.contains_iff] at h
      simp only [Option.some.injEq, exists_eq_left', FPath.contains_iff]
      by_cases hvisible : record.visible
      · rw [if_pos hvisible] at h ⊢
        by_cases hcov : index ≤ i ∧ record.path <+: w.path
        · rw [if_pos hcov] at h
          cases h
        · rw [if_neg hcov] at h ⊢
          by_cases hle : w.path <+: record.path
          · rw [if_pos hle] at h ⊢
            rw [ih h]
            exact iff_of_true (Or.inl rfl) (Or.inr (Or.inl ⟨hvisible, hle⟩))
          · rw [if_neg hle] at h ⊢
            rw [ih h, or_iff_right (a := _ ∧ _) fun h' => hle h'.2]
      · rw [if_neg hvisible] at h ⊢
        rw [ih h, or_iff_right (a := _ ∧ _) fun h' => hvisible h'.1]

/-- No pending write made before it lies above it, unless a later one covers it. So it is
when writes are acknowledged in the order they were made, and when no path is above
another. -/
def Removable (ws₁ : List FWriteRecord) (w : FWriteRecord) (ws₂ : List FWriteRecord) : Prop :=
  (∃ w' ∈ ws₂, w'.path <+: w.path) ∨ ∀ w' ∈ ws₁, w'.path <+: w.path → w'.path = w.path

/-- What holds of the writes that are pending: they are visible and leave something, the
tree of visible writes stands for them, and their ids are at most `last`. -/
structure Holds (t : FWriteTree) (ws : List FWriteRecord) (last : ℤ) : Prop where
  allWrites : t.allWrites = ws
  proper : t.visibleWrites.writeTree.Proper
  represents : (t.visibleWrites.overlay (Or.inl proper)).Represents (ws.map FWriteRecord.write)
  visible : ∀ record ∈ ws, record.visible
  nonempty : ∀ record ∈ ws, record.overwrite.isEmpty = false
  writeIds : (ws.map FWriteRecord.writeId).Nodup
  le_last : ∀ record ∈ ws, record.writeId ≤ last
  lastWriteId_le : t.lastWriteId ≤ last

section Holds

variable {t : FWriteTree} {ws : List FWriteRecord} {last : ℤ} {record : FWriteRecord}

theorem holds_init : Holds init [] (-1) where
  allWrites := rfl
  proper := FImmutableTree.proper_empty
  represents := by
    have hempty : (FCompoundWrite.emptyWrite.overlay FCompoundWrite.sound_emptyWrite).Represents
        [] := by
      rw [FCompoundWrite.overlay_emptyWrite]
      exact Overlay.represents_empty
    exact hempty
  visible record h := absurd h List.not_mem_nil
  nonempty record h := absurd h List.not_mem_nil
  writeIds := List.nodup_nil
  le_last record h := absurd h List.not_mem_nil
  lastWriteId_le := le_rfl

/-- **A write is recorded.** -/
theorem Holds.addOverwriteAtPath (h : Holds t ws last) (hid : last < record.writeId)
    (hvisible : record.visible) (hnonempty : record.overwrite.isEmpty = false) :
    ∃ t', t.addOverwriteAtPath record = some t' ∧ Holds t' (ws ++ [record]) record.writeId := by
  obtain ⟨w', h', hw', hadd⟩ :=
    FCompoundWrite.overlay_addWrite (Or.inl h.proper) hnonempty record.path
  have hproper := FCompoundWrite.proper_addWrite h.proper hnonempty hw'
  refine ⟨⟨w', t.allWrites ++ [record], record.writeId⟩, ?_, ?_⟩
  · rw [FWriteTree.addOverwriteAtPath, if_pos (h.lastWriteId_le.trans_lt hid), if_pos hvisible, hw']
    rfl
  · have hold (P : FWriteRecord → Prop) (hws : ∀ r ∈ ws, P r) (hr : P record) :
        ∀ r ∈ ws ++ [record], P r := by
      intro r hr'
      rcases List.mem_append.mp hr' with hr' | hr'
      · exact hws r hr'
      · rwa [List.mem_singleton.mp hr']
    refine ⟨by rw [h.allWrites], hproper, ?_, hold _ h.visible hvisible,
      hold _ h.nonempty hnonempty, ?_, ?_, le_rfl⟩
    · rw [List.map_append, List.map_singleton, hadd]
      exact h.represents.add record.write
    · rw [List.map_append, List.map_singleton, ← List.concat_eq_append, List.nodup_concat]
      refine ⟨fun hmem => ?_, h.writeIds⟩
      obtain ⟨r, hr, heq⟩ := List.mem_map.mp hmem
      have := h.le_last r hr
      omega
    · exact hold _ (fun r hr => (h.le_last r hr).trans hid.le) le_rfl

/-- The tree is built anew. -/
theorem resetTree_eq_some (hws : ∀ r ∈ t.allWrites, r.overwrite.isEmpty = false) :
    ∃ w hproper, t.resetTree = some ⟨w, t.allWrites,
        (t.allWrites.getLast?.map FWriteRecord.writeId).getD (-1)⟩ ∧
      (FCompoundWrite.overlay w (Or.inl hproper)).Represents
        (t.allWrites.map FWriteRecord.write) := by
  obtain ⟨w, h, hw, hrep⟩ :=
    layerTreeFromWrites_eq_some (fun _ => true) [] hws
  have hproper := proper_layerTreeFromWrites hws hw
  refine ⟨w, hproper, ?_, ?_⟩
  · rw [resetTree, hw]
    rfl
  · rw [List.filter_true, flatMap_relativeWrites_nil] at hrep
    exact hrep

/-- The write that is looked up. -/
theorem findIdx?_writeId {ws₁ ws₂ : List FWriteRecord} {w : FWriteRecord}
    (hnd : ((ws₁ ++ w :: ws₂).map FWriteRecord.writeId).Nodup) :
    (ws₁ ++ w :: ws₂).findIdx? (fun r => r.writeId = w.writeId) = some ws₁.length := by
  rw [List.findIdx?_append, List.findIdx?_cons]
  have hnone : ws₁.findIdx? (fun r => decide (r.writeId = w.writeId)) = none := by
    rw [List.findIdx?_eq_none_iff]
    intro r hr
    rw [List.map_append, List.map_cons, List.nodup_middle, List.nodup_cons, List.mem_append,
      not_or] at hnd
    exact decide_eq_false fun heq => hnd.1.1 (heq ▸ List.mem_map_of_mem hr)
  rw [hnone]
  simp

/-- The loop finds what covers the removed write, and what that covers. -/
theorem overlapLoop_of_visible {ws₁ ws₂ : List FWriteRecord} {w : FWriteRecord}
    (hvisible : ∀ r ∈ ws₁ ++ ws₂, r.visible) :
    let loop := overlapLoop (ws₁ ++ ws₂) ws₁.length w (ws₁ ++ ws₂).length false
    (loop.1 = false ↔ ∃ w' ∈ ws₂, w'.path <+: w.path) ∧
      (loop.1 = true → (loop.2 = true ↔ ∃ w' ∈ ws₁ ++ ws₂, w.path <+: w'.path)) := by
  refine ⟨?_, fun hfst => ?_⟩
  · rw [overlapLoop_fst_eq_false_iff]
    constructor
    · rintro ⟨j, r, -, hr, -, hj, hle⟩
      rw [List.getElem?_append_right hj] at hr
      exact ⟨r, List.mem_of_getElem? hr, hle⟩
    · rintro ⟨r, hr, hle⟩
      obtain ⟨j, hj⟩ := List.getElem?_of_mem hr
      have hget : (ws₁ ++ ws₂)[ws₁.length + j]? = some r := by
        rw [List.getElem?_append_right (Nat.le_add_right _ _), Nat.add_sub_cancel_left, hj]
      exact ⟨_, r, (List.getElem?_eq_some_iff.mp hget).1, hget,
        hvisible r (List.mem_append_right _ hr), Nat.le_add_right _ _, hle⟩
  · rw [overlapLoop_snd_iff hfst, or_iff_right Bool.false_ne_true]
    constructor
    · rintro ⟨j, r, -, hr, -, hle⟩
      exact ⟨r, List.mem_of_getElem? hr, hle⟩
    · rintro ⟨r, hr, hle⟩
      obtain ⟨j, hj⟩ := List.getElem?_of_mem hr
      exact ⟨j, r, (List.getElem?_eq_some_iff.mp hj).1, hj, hvisible r hr, hle⟩

/-- What the loop decides. -/
theorem Holds.removeWriteId_eq {ws₁ ws₂ : List FWriteRecord} {w : FWriteRecord}
    (h : Holds t (ws₁ ++ w :: ws₂) last) : t.removeWriteId w.writeId =
      let loop := overlapLoop (ws₁ ++ ws₂) ws₁.length w (ws₁ ++ ws₂).length false
      let t' := { t with allWrites := ws₁ ++ ws₂ }
      if !loop.1 then some (t', false)
      else if loop.2 then t'.resetTree.map fun t'' => (t'', true)
      else some ({ t' with visibleWrites := t.visibleWrites.removeWriteAtPath w.path }, true) := by
  have hw : w ∈ ws₁ ++ w :: ws₂ := by simp
  have hget : (ws₁ ++ w :: ws₂)[ws₁.length]? = some w := by simp
  have herase : (ws₁ ++ w :: ws₂).eraseIdx ws₁.length = ws₁ ++ ws₂ := by
    rw [List.eraseIdx_append_of_length_le le_rfl, Nat.sub_self, List.eraseIdx_cons_zero]
  simp only [FWriteTree.removeWriteId, h.allWrites, findIdx?_writeId h.writeIds, hget, herase,
    h.visible w hw, Option.bind_eq_bind, Option.bind_some, Option.pure_def, if_true]
  split
  · rfl
  · split
    · cases FWriteTree.resetTree _ <;> rfl
    · rfl

/-- **A write is removed.** -/
theorem Holds.removeWriteId {ws₁ ws₂ : List FWriteRecord} {w : FWriteRecord}
    (h : Holds t (ws₁ ++ w :: ws₂) last) (hlast : -1 ≤ last) (hremovable : Removable ws₁ w ws₂) :
    ∃ t' changed, t.removeWriteId w.writeId = some (t', changed) ∧ Holds t' (ws₁ ++ ws₂) last := by
  have hsub : (ws₁ ++ ws₂).Sublist (ws₁ ++ w :: ws₂) :=
    (List.sublist_cons_self w ws₂).append_left ws₁
  have hvisible : ∀ r ∈ ws₁ ++ ws₂, r.visible := fun r hr => h.visible r (hsub.subset hr)
  have hnonempty : ∀ r ∈ ws₁ ++ ws₂, r.overwrite.isEmpty = false := fun r hr =>
    h.nonempty r (hsub.subset hr)
  have hle_last : ∀ r ∈ ws₁ ++ ws₂, r.writeId ≤ last := fun r hr => h.le_last r (hsub.subset hr)
  have hrep := h.represents
  rw [List.map_append, List.map_cons] at hrep
  obtain ⟨hcovered, hoverlaps⟩ := overlapLoop_of_visible (w := w) hvisible
  rw [h.removeWriteId_eq]
  generalize overlapLoop (ws₁ ++ ws₂) ws₁.length w (ws₁ ++ ws₂).length false = loop at *
  obtain ⟨visible, overlaps⟩ := loop
  cases visible with
  | false =>
    obtain ⟨w', hw', hle⟩ := hcovered.mp rfl
    refine ⟨_, _, rfl, rfl, h.proper, ?_, hvisible, hnonempty, h.writeIds.sublist (hsub.map _),
      hle_last, h.lastWriteId_le⟩
    rw [List.map_append]
    exact hrep.erase_of_covered ⟨w'.write, List.mem_map_of_mem hw', hle⟩
  | true =>
    have hnot : ∀ w' ∈ ws₂, ¬ w'.path <+: w.path := fun w' hw' hle => by
      cases hcovered.mpr ⟨w', hw', hle⟩
    cases overlaps with
    | true =>
      obtain ⟨w', hproper, hreset, hrep'⟩ :=
        resetTree_eq_some (t := { t with allWrites := ws₁ ++ ws₂ }) hnonempty
      refine ⟨_, _, congrArg (Option.map _) hreset, rfl, hproper, hrep', hvisible, hnonempty,
        h.writeIds.sublist (hsub.map _), hle_last, ?_⟩
      change ((ws₁ ++ ws₂).getLast?.map FWriteRecord.writeId).getD (-1) ≤ last
      cases hgetLast : (ws₁ ++ ws₂).getLast? with
      | none => exact hlast
      | some r => exact hle_last r (List.mem_of_getLast? hgetLast)
    | false =>
      have hapart : ∀ w' ∈ ws₁ ++ ws₂, ¬ Comparable w'.path w.path := by
        have hbelow : ∀ w' ∈ ws₁ ++ ws₂, ¬ w.path <+: w'.path := fun w' hw' hle => by
          cases (hoverlaps rfl).mpr ⟨w', hw', hle⟩
        rintro w' hw' (hle | hle)
        · rcases List.mem_append.mp hw' with hw₁ | hw₂
          · rcases hremovable with ⟨w'', hw'', hle'⟩ | hremovable
            · exact hnot w'' hw'' hle'
            · exact hbelow w' hw' (hremovable w' hw₁ hle ▸ List.prefix_refl _)
          · exact hnot w' hw₂ hle
        · exact hbelow w' hw' hle
      obtain ⟨hproper, herase⟩ := FCompoundWrite.overlay_removeWriteAtPath h.proper w.path
      refine ⟨_, _, rfl, rfl, hproper, ?_, hvisible, hnonempty, h.writeIds.sublist (hsub.map _),
        hle_last, h.lastWriteId_le⟩
      rw [List.map_append]
      change (FCompoundWrite.overlay _ (Or.inl hproper)).Represents _
      rw [herase]
      refine hrep.erase_of_apart fun write hwrite => ?_
      rw [← List.map_append] at hwrite
      obtain ⟨w', hw', rfl⟩ := List.mem_map.mp hwrite
      exact hapart w' hw'

end Holds

end Remove

/-! ## What is shown -/

section EventCache

variable {t : FWriteTree} {ws : List FWriteRecord} {last : ℤ} {treePath : FPath} {server : FNode}
  {s : PathMap String Leaf}

/-- **With the data of the server** the pending writes are made to it. -/
theorem Holds.cache (h : Holds t ws last) (hs : below treePath s = server.leaves) :
    ∃ n, t.calculateCompleteEventCacheAtPath treePath (some server) none false = some (some n) ∧
      n.leaves = below treePath (replay (ws.map FWriteRecord.write) s) := by
  have hsound : t.visibleWrites.Sound := Or.inl h.proper
  obtain ⟨found, hfound, hleaves, hcov⟩ :=
    FCompoundWrite.completeNodeAtPath_eq hsound treePath
  simp only [calculateCompleteEventCacheAtPath, Option.isNone_none, Bool.not_false, Bool.and_self,
    if_true, hfound, Option.bind_eq_bind, Option.bind_some]
  cases found with
  | some shadowingNode =>
    refine ⟨shadowingNode, rfl, ?_⟩
    rw [hleaves shadowingNode rfl s, h.represents.onto_eq]
  | none =>
    have hnot : ¬ (t.visibleWrites.overlay hsound).Covers treePath := fun h' => by
      cases hcov.mpr h'
    obtain ⟨subMerge, hsub, hsubMerge, hbelow⟩ :=
      FCompoundWrite.childCompoundWriteAtPath_eq hsound hnot
    have honto : below treePath (replay (ws.map FWriteRecord.write) s) =
        (subMerge.overlay hsub).onto server.leaves := by
      rw [← h.represents.onto_eq, Overlay.below_onto hnot, hbelow, hs]
    obtain ⟨complete, hcomplete, -, -⟩ := FCompoundWrite.completeNodeAtPath_eq hsub []
    simp only [hsubMerge, Option.bind_some]
    by_cases hempty : subMerge.isEmpty
    · refine ⟨server, by rw [if_pos hempty]; rfl, ?_⟩
      rw [honto]
      funext q
      refine (Overlay.onto_of_apart fun p hp => ?_).symm
      exact absurd hp ((FCompoundWrite.isEmpty_iff hsub).mp hempty p)
    · refine ⟨subMerge.applyToNode server, ?_, ?_⟩
      · rw [if_neg hempty, FCompoundWrite.hasCompleteWriteAtPath, hcomplete]
        rfl
      · rw [honto, FCompoundWrite.leaves_applyToNode hsub]

end EventCache

/-! ## Runs -/

/-- What is done to the pending writes. -/
inductive Op where
  | add (record : FWriteRecord)
  | remove (writeId : ℤ)

/-- One step. -/
def step (t : FWriteTree) : Op → Option FWriteTree
  | .add record => t.addOverwriteAtPath record
  | .remove writeId => (t.removeWriteId writeId).map Prod.fst

/-- The pending writes, after one more step. -/
def Op.after (ws : List FWriteRecord) : Op → List FWriteRecord
  | .add record => ws ++ [record]
  | .remove writeId => ws.filter fun w => w.writeId ≠ writeId

/-- The writes that are pending. -/
def pending (ops : List Op) : List FWriteRecord := ops.foldl Op.after []

/-- The last id that was given to a write, after one more step. -/
def Op.lastIdAfter (last : ℤ) : Op → ℤ
  | .add record => record.writeId
  | .remove _ => last

/-- The last id that was given to a write. -/
def lastId (ops : List Op) : ℤ := ops.foldl Op.lastIdAfter (-1)

/-- What may be done after `hist`: a write that leaves something gets a greater id than
those before it, and a pending write is removed if it can be. -/
def Allowed (hist : List Op) : Op → Prop
  | .add record =>
    lastId hist < record.writeId ∧ record.visible ∧ record.overwrite.isEmpty = false
  | .remove writeId => ∃ ws₁ w ws₂, pending hist = ws₁ ++ w :: ws₂ ∧ w.writeId = writeId ∧
    Removable ws₁ w ws₂

/-- Every step is allowed after those before it. -/
def Admissible (ops : List Op) : Prop := ∀ hist op, hist ++ [op] <+: ops → Allowed hist op

theorem Admissible.init {hist : List Op} {op : Op} (h : Admissible (hist ++ [op])) :
    Admissible hist := fun hist' op' hpre =>
  h hist' op' (hpre.trans (List.prefix_append hist [op]))

theorem Admissible.concat (hist : List Op) {op : Op} (h : Admissible hist) (hop : Allowed hist op) :
    Admissible (hist ++ [op]) := by
  intro hist' op' hpre
  rcases List.prefix_concat_iff.mp hpre with heq | hpre
  · obtain ⟨rfl, hop'⟩ := List.append_inj' heq rfl
    obtain rfl := List.singleton_inj.mp hop'
    exact hop
  · exact h hist' op' hpre

theorem pending_concat (hist : List Op) (op : Op) :
    pending (hist ++ [op]) = op.after (pending hist) := by
  rw [pending, List.foldl_append]
  rfl

theorem lastId_concat (hist : List Op) (op : Op) :
    lastId (hist ++ [op]) = op.lastIdAfter (lastId hist) := by
  rw [lastId, List.foldl_append]
  rfl

/-- The write that is removed is the one with the id. -/
theorem after_remove {ws₁ ws₂ : List FWriteRecord} {w : FWriteRecord}
    (hnd : ((ws₁ ++ w :: ws₂).map FWriteRecord.writeId).Nodup) :
    (Op.remove w.writeId).after (ws₁ ++ w :: ws₂) = ws₁ ++ ws₂ := by
  rw [List.map_append, List.map_cons, List.nodup_middle, List.nodup_cons, ← List.map_append] at hnd
  have hne : ∀ r ∈ ws₁ ++ ws₂, r.writeId ≠ w.writeId := fun r hr heq =>
    hnd.1 (heq ▸ List.mem_map_of_mem hr)
  rw [List.forall_mem_append] at hne
  simp only [Op.after, List.filter_append]
  rw [List.filter_cons_of_neg (by simp),
    List.filter_eq_self.mpr fun r hr => by simpa using hne.1 r hr,
    List.filter_eq_self.mpr fun r hr => by simpa using hne.2 r hr]

/-- **The step lemma.** -/
theorem Holds.step {t : FWriteTree} {hist : List Op} {op : Op}
    (h : Holds t (pending hist) (lastId hist)) (hlast : -1 ≤ lastId hist) (hop : Allowed hist op) :
    ∃ t', t.step op = some t' ∧ Holds t' (pending (hist ++ [op])) (lastId (hist ++ [op])) ∧
      -1 ≤ lastId (hist ++ [op]) := by
  rw [pending_concat, lastId_concat]
  cases op with
  | add record =>
    obtain ⟨hid, hvisible, hnonempty⟩ := hop
    obtain ⟨t', ht', h'⟩ := h.addOverwriteAtPath hid hvisible hnonempty
    exact ⟨t', ht', h', (hlast.trans_lt hid).le⟩
  | remove writeId =>
    obtain ⟨ws₁, w, ws₂, hpending, rfl, hremovable⟩ := hop
    rw [hpending] at h ⊢
    obtain ⟨t', changed, ht', h'⟩ := h.removeWriteId hlast hremovable
    rw [after_remove h.writeIds]
    exact ⟨t', congrArg (Option.map Prod.fst) ht', h', hlast⟩

end FWriteTree

end MoonMessenger
