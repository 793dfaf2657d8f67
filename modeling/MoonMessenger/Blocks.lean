import MoonMessenger.SeenBadge

/-!
# Blocks of one sender

The name above a block is made from the first message of a section, the avatar beside it
from the last, and they find their message in different ways: by the cell at the path, and
by looking for the section that contains the message. `blocksAgree`: in every state that is
reached with outgoing and incoming messages, both show the one sender of the section.
-/

namespace MoonMessenger

/-- Every incoming section has the name of its first message above it and the avatar of its
last message beside that, and no other; an outgoing section has neither; and no section
mixes sides or senders. -/
structure BlocksAgree (data : Snapshot Section Message) : Prop where
  origin : ∀ p ∈ data.sections, ∀ m ∈ p.2, m.origin = p.1.origin
  sender : ∀ p ∈ data.sections, ∀ a ∈ p.2, ∀ b ∈ p.2, a.userId = b.userId
  header : ∀ (sec : ℕ) p, data.sections[sec]? = some p → ∃ first, p.2.head? = some first ∧
    UsernameHeaderBuilder.build data ⟨0, sec⟩ =
      if p.1.origin = .incoming then .usernameHeader first.username else .emptyUsernameHeader
  avatar : ∀ (sec row : ℕ) p m, data.sections[sec]? = some p → p.2[row]? = some m →
    AvatarBadgeBuilder.build data ⟨row, sec⟩ = some
      (if p.1.origin = .incoming ∧ row + 1 = p.2.length then .avatarBadge m else .emptyAvatar)

section Builders

variable {data : Snapshot Section Message} {path : IndexPath} {m : Message} {sec row : ℕ}
  {p : Section × List Message}

theorem UsernameHeaderBuilder.build_eq (h : data.itemIdentifierFor path = some m)
    (ho : m.origin ≠ .system) : build data path =
      if m.origin = .incoming then .usernameHeader m.username else .emptyUsernameHeader := by
  obtain ⟨cell, hcell, -⟩ := Snapshot.exists_cellForItem h ho
  simp [build, hcell]

/-- The search for the section of a message finds whether it is the last there. -/
theorem AvatarBadgeBuilder.messageIsLastInItsSection_eq (hp : data.sections[sec]? = some p)
    (hm : p.2[row]? = some m) :
    messageIsLastInItsSection data m = some (decide (row + 1 = p.2.length)) := by
  have hmem := List.mem_of_getElem? hp
  have hrow := (List.getElem?_eq_some_iff.mp hm).1
  obtain ⟨last, hlast⟩ : ∃ last, p.2[p.2.length - 1]? = some last :=
    ⟨_, List.getElem?_eq_getElem (by omega)⟩
  have hiff : (m == last) = decide (row + 1 = p.2.length) := by
    rw [Bool.eq_iff_iff, Message.beq_eq_true, decide_eq_true_eq]
    have hat := Snapshot.itemIdentifierFor_eq_some.mpr ⟨sec, row, rfl, p, hp, hm⟩
    have hatLast := Snapshot.itemIdentifierFor_eq_some.mpr ⟨sec, p.2.length - 1, rfl, p, hp, hlast⟩
    refine ⟨fun hid => ?_, fun hlen => ?_⟩
    · obtain rfl := Snapshot.eq_of_id (Snapshot.mem_of_itemIdentifierFor hat)
        (Snapshot.mem_of_itemIdentifierFor hatLast) hid
      have := Int.ofNat_inj.mp (congrArg IndexPath.row (Snapshot.path_unique hat hatLast))
      omega
    · have heq : row = p.2.length - 1 := by omega
      rw [← heq, hm] at hlast
      exact congrArg Message.id (Option.some.inj hlast)
  have hsec := Snapshot.sectionIdentifierContaining_of_mem hmem (List.mem_of_getElem? hm)
  have hitems := Snapshot.itemIdentifiersInSection_of_mem hmem
  rw [← List.getLast?_eq_getElem?] at hlast
  simp [messageIsLastInItsSection, hsec, hitems, hlast, hiff]

theorem AvatarBadgeBuilder.build_eq (hp : data.sections[sec]? = some p) (hm : p.2[row]? = some m)
    (ho : m.origin ≠ .system) : build data ⟨row, sec⟩ = some
      (if m.origin = .incoming ∧ row + 1 = p.2.length then .avatarBadge m else .emptyAvatar) := by
  have hat := Snapshot.itemIdentifierFor_eq_some.mpr ⟨sec, row, rfl, p, hp, hm⟩
  obtain ⟨cell, hcell, hincoming⟩ := Snapshot.exists_cellForItem hat ho
  have hlast := messageIsLastInItsSection_eq hp hm
  by_cases hside : m.origin = .incoming
  · simp only [build, getCell, hcell, hincoming.mpr hside, hlast, hside, true_and,
      Option.bind_eq_bind, Option.bind_some, if_true, Option.pure_def, decide_eq_true_eq]
    split <;> rfl
  · have hcell' : cell.isIncoming = false := by
      rw [← Bool.not_eq_true, hincoming]
      exact hside
    simp [build, getCell, hcell, hcell', hside]

end Builders

namespace Laid

variable {data : Snapshot Section Message} {drawn : ℕ} {shown : List Message}

/-- A section has one sender: it is a segment, rounded. -/
theorem userId_eq (h : Laid data drawn shown) {p : Section × List Message}
    (hp : p ∈ data.sections) {a b : Message} (ha : a ∈ p.2) (hb : b ∈ p.2) :
    a.userId = b.userId := by
  have hmem := List.mem_map_of_mem (f := Prod.snd) hp
  rw [h.sections] at hmem
  obtain ⟨seg, hseg, hrounded⟩ := List.mem_map.mp hmem
  have hchain : seg.IsChain fun a b => a.userId = b.userId :=
    (List.isChain_of_mem_splitBy hseg).imp fun x y hxy => (sameRun_iff.mp hxy).2.1
  have hsenders : (p.2.map Message.userId).IsChain Eq := by
    rw [← hrounded, map_rounded Message.userId fun _ _ => rfl]
    exact List.isChain_map _ |>.mpr hchain
  have hall := List.isChain_iff_pairwise.mp hsenders
  exact hall.forall_of_forall (fun _ _ => rfl) (List.mem_map_of_mem ha) (List.mem_map_of_mem hb)

/-- **One state.** Where no message is one of the system, headers and avatars agree. -/
theorem blocksAgree_of_origin (h : Laid data drawn shown) (ho : ∀ m ∈ shown, m.origin ≠ .system) :
    BlocksAgree data := by
  have horigins := h.map_itemIdentifiers Message.origin Message.origin_withCorners
  have hside {p : Section × List Message} (hp : p ∈ data.sections) {m : Message} (hm : m ∈ p.2) :
      m.origin ≠ .system := by
    have hmem := List.mem_map_of_mem (f := Message.origin) (List.mem_flatMap.mpr ⟨p, hp, hm⟩)
    rw [← Snapshot.itemIdentifiers, horigins] at hmem
    obtain ⟨x, hx, hxm⟩ := List.mem_map.mp hmem
    rw [← hxm]
    exact ho x hx
  refine ⟨h.origin, fun p hp a ha b hb => h.userId_eq hp ha hb, ?_, ?_⟩
  · intro sec p hp
    have hmem := List.mem_of_getElem? hp
    obtain ⟨first, rest, hitems⟩ := List.exists_cons_of_ne_nil (h.ne_nil_of_mem hmem)
    have hfirst : first ∈ p.2 := by simp [hitems]
    have hat : data.itemIdentifierFor ⟨0, sec⟩ = some first :=
      Snapshot.itemIdentifierFor_first.mpr ⟨sec, rfl, p, hp, by simp [hitems]⟩
    refine ⟨first, by simp [hitems], ?_⟩
    rw [UsernameHeaderBuilder.build_eq hat (hside hmem hfirst), h.origin p hmem first hfirst]
  · intro sec row p m hp hm
    have hmem := List.mem_of_getElem? hp
    have hmem' := List.mem_of_getElem? hm
    rw [AvatarBadgeBuilder.build_eq hp hm (hside hmem hmem'), h.origin p hmem m hmem']

end Laid

/-- **Name and avatar of a block agree.** A run on non-empty lists of outgoing and incoming
messages, with pairwise distinct ids over the run, never traps; and then every incoming
section has the username of its first message for its header and exactly one avatar, on its
last message, every outgoing section has neither, and all messages of a section are from
one sender. -/
theorem blocksAgree {ops : List ChatView.Op} (hne : ∀ op ∈ ops, op ≠ .clear → op.messages ≠ [])
    (ho : ∀ m ∈ ops.flatMap ChatView.Op.messages, m.origin ≠ .system)
    (hnd : ((ops.flatMap ChatView.Op.messages).map Message.id).Nodup) :
    ∃ v, Runs.run ChatView.step .new ops = some v ∧ BlocksAgree v.data := by
  obtain ⟨v, hv, shown, hshows, hcore, -⟩ := ChatView.exists_run_lastSeen ⟨hne, hnd⟩
  refine ⟨v, hv, Laid.blocksAgree_of_origin hshows fun m hm => ?_⟩
  have hmem := List.mem_map_of_mem (f := Message.core) hm
  rw [hcore] at hmem
  obtain ⟨m', hm', hmm'⟩ := List.mem_map.mp hmem
  rw [← Message.origin_eq_of_core hmm']
  exact ho m' ((passed_sublist ops).subset hm')

/-- One batch of a sender, and another of two. -/
theorem blocksAgree_two :
    ∃ v, Runs.run ChatView.step .new
      [.diffMessages [{ sampleMessage 0 0 with origin := .incoming }],
        .addMessages [{ sampleMessage 1 60 with origin := .incoming }, sampleMessage 2 120]] =
      some v ∧ BlocksAgree v.data :=
  blocksAgree (by simp [ChatView.Op.messages])
    (by simp [ChatView.Op.messages, sampleMessage]) (by decide)

end MoonMessenger
