import MoonMessenger.NodeValue
import MoonMessenger.WriteTree

/-!
# What is shown can be read

The nodes that the client is given to write are well-formed. Then so are all nodes that its
tree of visible writes holds, also where writes are made to nodes written before, and what
is shown on top of a node of the server is empty or well-formed again.

* `FWriteTree.Stores.proper_cache`
-/

namespace MoonMessenger

namespace FCompoundWrite

open FImmutableTree

variable {w w' : FCompoundWrite} {n node : FNode} {path : FPath} {t : FImmutableTree FNode}

/-- The nodes that are written are well-formed. -/
def Stores (w : FCompoundWrite) : Prop :=
  ∀ path n, w.writeTree.valueAtPath path = some n → n.WellFormed

theorem stores_emptyWrite : emptyWrite.Stores := by
  intro path n hn
  simp [emptyWrite] at hn

theorem stores_initWithValue (hnode : node.WellFormed) : Stores ⟨initWithValue node⟩ := by
  intro path n hn
  rw [valueAtPath_initWithValue] at hn
  split at hn
  · obtain rfl := Option.some.inj hn
    exact hnode
  · cases hn

theorem Stores.addWrite (h : w.Stores) (hnode : node.WellFormed)
    (hw' : w.addWrite node path = some w') : w'.Stores := by
  rw [FCompoundWrite.addWrite] at hw'
  split at hw'
  · obtain rfl := Option.some.inj hw'
    exact stores_initWithValue hnode
  · cases hfind : w.writeTree.findRootMostValueAndPath path with
    | some found =>
      obtain ⟨⟨relativePath, rfl⟩, hfound⟩ := of_findRootMostValueAndPath_eq_some hfind
      simp only [hfind, FPath.relativePathFrom_append, Option.bind_eq_bind, Option.bind_some,
        Option.pure_def, Option.some.injEq] at hw'
      subst hw'
      intro q n hn
      rw [valueAtPath_setValue] at hn
      split at hn
      · obtain rfl := Option.some.inj hn
        exact hnode.updateChild (Or.inr (h _ _ hfound)) relativePath
      · exact h q n hn
    | none =>
      simp only [hfind, Option.some.injEq] at hw'
      subst hw'
      intro q n hn
      rw [valueAtPath_setTree] at hn
      split at hn
      · exact stores_initWithValue hnode _ n hn
      · exact h q n hn

theorem Stores.removeWriteAtPath (h : w.Stores) (path : FPath) :
    (w.removeWriteAtPath path).Stores := by
  rw [FCompoundWrite.removeWriteAtPath]
  split
  · exact stores_emptyWrite
  · intro q n hn
    rw [valueAtPath_setTree, valueAtPath_empty] at hn
    split at hn
    · cases hn
    · exact h q n hn

theorem Stores.proper_completeNodeAtPath (h : w.Stores)
    (hn : w.completeNodeAtPath path = some (some n)) : n.Proper := by
  rw [completeNodeAtPath] at hn
  cases hfind : w.writeTree.findRootMostValueAndPath path with
  | some found =>
    obtain ⟨⟨relativePath, rfl⟩, hfound⟩ := of_findRootMostValueAndPath_eq_some hfind
    simp only [hfind, FPath.relativePathFrom_append, Option.bind_eq_bind, Option.bind_some,
      Option.pure_def, Option.some.injEq] at hn
    rw [← hn]
    exact FNode.Proper.getChild (Or.inr (h _ _ hfound)) relativePath
  | none => simp [hfind] at hn

/-- Where no node is written, there are the writes below. -/
theorem childCompoundWriteAtPath_of_none (hnone : w.completeNodeAtPath path = some none) :
    w.childCompoundWriteAtPath path = some ⟨w.writeTree.subtreeAtPath path⟩ := by
  rw [childCompoundWriteAtPath]
  by_cases hempty : path.isEmpty
  · obtain rfl := List.isEmpty_iff.mp hempty
    obtain ⟨⟨v, cs⟩⟩ := w
    rfl
  · rw [if_neg hempty, hnone]
    rfl

theorem Stores.subtreeAtPath (h : w.Stores) (path : FPath) :
    Stores ⟨w.writeTree.subtreeAtPath path⟩ := by
  intro q n hn
  rw [valueAtPath_subtreeAtPath] at hn
  exact h _ n hn

theorem proper_applySubtreeWrite (ht : t.WellFormed)
    (h : ∀ q m, t.valueAtPath q = some m → m.WellFormed) (hn : n.Proper) :
    (applySubtreeWrite t path n).Proper := by
  induction ht generalizing path n with
  | value _ => exact Or.inr ((h [] _ rfl).updateChild hn path)
  | @children cs hne hnd hall ih =>
    rw [applySubtreeWrite]
    have hcs : ∀ c ∈ cs, ∀ q m, c.2.valueAtPath q = some m → m.WellFormed := by
      intro c hc q m hm
      refine h (c.1 :: q) m ?_
      rw [valueAtPath_cons, SortedDictionary.get_of_mem hnd hc]
      exact hm
    clear h hnd hne hall
    induction cs generalizing n with
    | nil => exact hn
    | cons c cs ihcs =>
      rw [List.forall_mem_cons] at hcs
      rw [applySubtreeWrites]
      refine ihcs (fun c' hc' => ?_) (ih c (List.mem_cons_self ..) hcs.1 hn) hcs.2
      exact ih c' (List.mem_cons_of_mem c hc')

theorem Stores.proper_applyToNode (h : w.Stores) (hw : w.writeTree.Proper) (hn : n.Proper) :
    (w.applyToNode n).Proper := by
  rw [applyToNode]
  rcases hw with hw | hw
  · rw [hw]
    exact hn
  · exact proper_applySubtreeWrite hw h hn

end FCompoundWrite

namespace FWriteTree

/-- All nodes of the pending writes are well-formed. -/
structure Stores (t : FWriteTree) : Prop where
  visibleWrites : t.visibleWrites.Stores
  allWrites : ∀ record ∈ t.allWrites, record.overwrite.WellFormed

variable {t t' : FWriteTree} {record : FWriteRecord} {ws : List FWriteRecord}
  {treePath : FPath} {server n : FNode}

theorem stores_init : init.Stores where
  visibleWrites := FCompoundWrite.stores_emptyWrite
  allWrites _ h := absurd h List.not_mem_nil

theorem Stores.addOverwriteAtPath (h : t.Stores) (hrecord : record.overwrite.WellFormed)
    (ht' : t.addOverwriteAtPath record = some t') : t'.Stores := by
  rw [FWriteTree.addOverwriteAtPath] at ht'
  split at ht'
  · have hall : ∀ r ∈ t.allWrites ++ [record], r.overwrite.WellFormed := by
      intro r hr
      rcases List.mem_append.mp hr with hr | hr
      · exact h.allWrites r hr
      · rwa [List.mem_singleton.mp hr]
    by_cases hvisible : record.visible
    · simp only [hvisible, if_true, Option.bind_eq_bind, Option.bind_eq_some_iff, Option.pure_def,
        Option.some.injEq] at ht'
      obtain ⟨visibleWrites, hvisibleWrites, rfl⟩ := ht'
      exact ⟨h.visibleWrites.addWrite hrecord hvisibleWrites, hall⟩
    · simp only [hvisible, Bool.false_eq_true, if_false, Option.bind_eq_bind, Option.bind_some,
        Option.pure_def, Option.some.injEq] at ht'
      obtain rfl := ht'
      exact ⟨h.visibleWrites, hall⟩
  · cases ht'

/-- The tree that is built anew, from the root on. -/
theorem stores_layerTreeFromWrites {filter : FWriteRecord → Bool} {w : FCompoundWrite}
    (hws : ∀ record ∈ ws, record.overwrite.WellFormed)
    (hw : layerTreeFromWrites ws filter [] = some w) : w.Stores := by
  induction ws using List.reverseRecOn generalizing w with
  | nil =>
    obtain rfl := Option.some.inj hw
    exact FCompoundWrite.stores_emptyWrite
  | append_singleton ws record ih =>
    rw [layerTreeFromWrites, List.foldlM_append] at hw
    obtain ⟨w', hw', hlast⟩ := Option.bind_eq_some_iff.mp hw
    have hstores := ih (fun r hr => hws r (List.mem_append_left _ hr)) hw'
    obtain ⟨w'', hw'', hsame⟩ := Option.bind_eq_some_iff.mp hlast
    obtain rfl := Option.some.inj hsame
    rw [layer] at hw''
    split at hw''
    · exact hstores.addWrite (hws record (by simp)) hw''
    · obtain rfl := Option.some.inj hw''
      exact hstores

theorem Stores.removeWriteId {writeId : ℤ} {changed : Bool} (h : t.Stores)
    (ht' : t.removeWriteId writeId = some (t', changed)) : t'.Stores := by
  rw [FWriteTree.removeWriteId] at ht'
  obtain ⟨index, -, ht'⟩ := Option.bind_eq_some_iff.mp ht'
  obtain ⟨writeToRemove, -, ht'⟩ := Option.bind_eq_some_iff.mp ht'
  have hallWrites : ∀ r ∈ t.allWrites.eraseIdx index, r.overwrite.WellFormed := fun r hr =>
    h.allWrites r (List.mem_of_mem_eraseIdx hr)
  simp only [Option.pure_def, Option.bind_eq_bind] at ht'
  generalize (if writeToRemove.visible then overlapLoop (t.allWrites.eraseIdx index) index
    writeToRemove (t.allWrites.eraseIdx index).length false else (false, false)) = loop at ht'
  obtain ⟨visible, overlaps⟩ := loop
  cases visible with
  | false =>
    obtain ⟨rfl, -⟩ := Prod.mk.inj (Option.some.inj ht')
    exact ⟨h.visibleWrites, hallWrites⟩
  | true =>
    cases overlaps with
    | true =>
      obtain ⟨reset, hreset, heq⟩ := Option.bind_eq_some_iff.mp ht'
      obtain ⟨rfl, -⟩ := Prod.mk.inj (Option.some.inj heq)
      obtain ⟨w, hw, heq⟩ := Option.bind_eq_some_iff.mp hreset
      obtain rfl := Option.some.inj heq
      exact ⟨stores_layerTreeFromWrites hallWrites hw, hallWrites⟩
    | false =>
      obtain ⟨rfl, -⟩ := Prod.mk.inj (Option.some.inj ht')
      exact ⟨h.visibleWrites.removeWriteAtPath _, hallWrites⟩

/-- **What is shown** is a node that can be handed over. -/
theorem Stores.proper_cache (h : t.Stores) (hproper : t.visibleWrites.writeTree.Proper)
    (hserver : server.Proper) (hn : t.calculateCompleteEventCacheAtPath treePath (some server)
      none false = some (some n)) : n.Proper := by
  simp only [calculateCompleteEventCacheAtPath, Option.isNone_none, Bool.not_false, Bool.and_self,
    if_true, Option.bind_eq_bind, Option.bind_eq_some_iff] at hn
  obtain ⟨found, hfound, hn⟩ := hn
  cases found with
  | some shadowingNode =>
    obtain rfl := Option.some.inj (Option.some.inj hn)
    exact h.visibleWrites.proper_completeNodeAtPath hfound
  | none =>
    simp only [FCompoundWrite.childCompoundWriteAtPath_of_none hfound, Option.bind_some] at hn
    split at hn
    · obtain rfl := Option.some.inj (Option.some.inj hn)
      exact hserver
    · simp only [Option.isNone_some, Bool.false_and, Bool.false_eq_true, if_false] at hn
      obtain ⟨_, -, heq⟩ := Option.bind_eq_some_iff.mp hn
      obtain rfl := Option.some.inj (Option.some.inj heq)
      have hsub := h.visibleWrites.subtreeAtPath treePath
      exact hsub.proper_applyToNode hproper.subtreeAtPath hserver

end FWriteTree

end MoonMessenger
