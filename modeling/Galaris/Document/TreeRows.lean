import Galaris.Document.PersonalTree
import Mathlib.Algebra.Order.Ring.Nat
import Mathlib.Data.List.Nodup
import Mathlib.Order.Lattice.Nat

/-! What holds of the rows of a personal tree.

Folders and documents hang in forests, every filed document is in a folder that there is, each key is there once, and a
document has one place (`Sound`). Positions do not matter for this (`Sound.renumber`), so that the lemmas here say what
one row does: a document that leaves its folders, its parent or the root, and one that gets a place. -/
namespace Galaris.Document.PersonalTree

open Transition Ancestry

section Runs
variable {s t : State} {user : UserId} {documentId : DocumentId}

/-! ### What holds of the rows -/

/-- The document is in a folder of the user. -/
def Filed (s : State) (user : UserId) (documentId : DocumentId) : Prop :=
  ∃ assignment ∈ s.assignments, assignment.documentId = documentId ∧ assignment.tagId ∈ ownTags s user

/-- The document is under another. -/
def Nested (s : State) (user : UserId) (documentId : DocumentId) : Prop :=
    ∃ nesting ∈ s.nestings, nesting.userId = user ∧ nesting.documentId = documentId

def AtRoot (s : State) (user : UserId) (documentId : DocumentId) : Prop :=
  ∃ placement ∈ s.placements, placement.userId = user ∧ placement.documentId = documentId ∧ placement.atRoot = true

structure Sound (s : State) : Prop where
  tagIds : (s.tags.map (·.id)).Nodup
  /-- A folder is in one of the same user. -/
  parents : ∀ tag ∈ s.tags, tag.deleted = false → ∀ parentId, tag.parentId = some parentId →
    parentId ∈ ownTags s tag.userId
  folders : ∀ user, Acyclic (above s user)
  filed : ∀ assignment ∈ s.assignments, ∃ user, assignment.tagId ∈ ownTags s user
  assigned : (s.assignments.map fun assignment => (assignment.tagId, assignment.documentId)).Nodup
  nested : (s.nestings.map fun nesting => (nesting.userId, nesting.documentId)).Nodup
  documents : ∀ user, Acyclic (parentOf s user)
  placed : (s.placements.map fun placement => (placement.userId, placement.documentId)).Nodup
  /-- A document has one place. -/
  apart : ∀ user documentId, (Filed s user documentId → ¬Nested s user documentId ∧ ¬AtRoot s user documentId) ∧
    (Nested s user documentId → ¬AtRoot s user documentId)

theorem sound_empty : Sound {} := by
  refine ⟨List.nodup_nil, ?_, fun _ => acyclic_empty, ?_, List.nodup_nil, List.nodup_nil,
    fun _ => acyclic_empty, List.nodup_nil, fun _ _ => ⟨?_, ?_⟩⟩
  · exact fun _ hmem => absurd hmem List.not_mem_nil
  · exact fun _ hmem => absurd hmem List.not_mem_nil
  · rintro ⟨_, hmem, -⟩
    exact absurd hmem List.not_mem_nil
  · rintro ⟨_, hmem, -⟩
    exact absurd hmem List.not_mem_nil

theorem mem_ownTags {id : TagId} : id ∈ ownTags s user ↔ ∃ tag ∈ s.tags, tag.id = id ∧
    tag.userId = user ∧ tag.deleted = false := by
  simp [ownTags, and_assoc, and_left_comm, and_comm]

theorem tag?_eq_some {id : TagId} {tag : Tag} (h : tag? s user id = some tag) :
    tag ∈ s.tags ∧ tag.id = id ∧ tag.userId = user ∧ tag.deleted = false := by
  have hfound := List.find?_some h
  simp only [Bool.and_eq_true, decide_eq_true_eq, Bool.not_eq_true'] at hfound
  exact ⟨List.mem_of_find?_eq_some h, hfound.1.1, hfound.1.2, hfound.2⟩

/-- A folder is known by its identifier. -/
theorem Sound.eq_of_id (h : Sound s) {tag other : Tag} (htag : tag ∈ s.tags)
    (hother : other ∈ s.tags) (hid : tag.id = other.id) : tag = other :=
  List.inj_on_of_nodup_map h.tagIds htag hother hid

theorem Sound.tag? (h : Sound s) {tag : Tag} (hmem : tag ∈ s.tags) (hlive : tag.deleted = false) :
    tag? s tag.userId tag.id = some tag := by
  cases hfind : PersonalTree.tag? s tag.userId tag.id with
  | none =>
    have hnone := List.find?_eq_none.mp hfind tag hmem
    simp [hlive] at hnone
  | some other =>
    obtain ⟨hother, hid, -⟩ := tag?_eq_some hfind
    rw [h.eq_of_id hother hmem hid]

/-- A folder has one owner. -/
theorem Sound.owner (h : Sound s) {id : TagId} {user user' : UserId} (hmem : id ∈ ownTags s user)
    (hmem' : id ∈ ownTags s user') : user = user' := by
  obtain ⟨tag, htag, hid, rfl, -⟩ := mem_ownTags.mp hmem
  obtain ⟨tag', htag', hid', rfl, -⟩ := mem_ownTags.mp hmem'
  rw [h.eq_of_id htag htag' (hid.trans hid'.symm)]

theorem above_eq_some (h : Sound s) {id parentId : TagId} : above s user id = some parentId ↔
    ∃ tag ∈ s.tags, tag.id = id ∧ tag.userId = user ∧ tag.deleted = false ∧ tag.parentId = some parentId := by
  rw [above, Option.bind_eq_some_iff]
  constructor
  · rintro ⟨tag, htag, hparent⟩
    obtain ⟨hmem, hid, huser, hlive⟩ := tag?_eq_some htag
    exact ⟨tag, hmem, hid, huser, hlive, hparent⟩
  · rintro ⟨tag, hmem, rfl, rfl, hlive, hparent⟩
    exact ⟨tag, h.tag? hmem hlive, hparent⟩

/-- A folder above one of the user is live and of the user. -/
theorem Sound.above_own (h : Sound s) {id parentId : TagId}
    (hup : above s user id = some parentId) : id ∈ ownTags s user ∧ parentId ∈ ownTags s user := by
  obtain ⟨tag, hmem, rfl, rfl, hlive, hparent⟩ := (above_eq_some h).mp hup
  exact ⟨mem_ownTags.mpr ⟨tag, hmem, rfl, rfl, hlive⟩, h.parents tag hmem hlive parentId hparent⟩

/-- The loops have a turn for every folder. -/
theorem length_ownTags (s : State) (user : UserId) : (ownTags s user).length < turns s := by
  rw [ownTags, List.length_map, turns]
  exact Nat.lt_succ_of_le (List.length_filter_le _ _)

theorem nodup_ownTags (h : Sound s) (user : UserId) : (ownTags s user).Nodup :=
    h.tagIds.sublist (List.filter_sublist.map _)

/-! ### Positions do not matter -/

/-- The rows without their positions. -/
def bare (s : State) : State where
  tags := s.tags.map fun tag => {tag with position := 0}
  assignments := s.assignments.map fun assignment => {assignment with position := 0}
  nestings := s.nestings.map fun nesting => {nesting with position := 0}
  placements := s.placements.map fun placement => {placement with position := 0}

/-- The folders of a user do not depend on positions. -/
theorem ownTags_bare (s : State) (user : UserId) : ownTags (bare s) user = ownTags s user := by
  simp [ownTags, bare, List.filter_map, Function.comp_def]

theorem above_bare (s : State) (user : UserId) : above (bare s) user = above s user := by
  funext id
  rw [above, above, tag?, tag?, bare, List.find?_map, Option.bind_map]
  rfl

theorem parentOf_bare (s : State) (user : UserId) : parentOf (bare s) user = parentOf s user := by
  funext id
  simp [parentOf, bare, List.find?_map, Function.comp_def]

/-- Soundness is not about positions. -/
theorem sound_bare : Sound (bare s) ↔ Sound s := by
  have hfiled : ∀ user documentId, Filed (bare s) user documentId ↔ Filed s user documentId := fun user documentId => by
    simp only [Filed, ownTags_bare]
    simp [bare]
  have hnested : ∀ user documentId, Nested (bare s) user documentId ↔ Nested s user documentId :=
      fun user documentId => by simp [Nested, bare]
  have hroot : ∀ user documentId, AtRoot (bare s) user documentId ↔ AtRoot s user documentId :=
      fun user documentId => by simp [AtRoot, bare]
  constructor
  · rintro ⟨h1, h2, h3, h4, h5, h6, h7, h8, h9⟩
    simp only [above_bare, parentOf_bare, ownTags_bare, hfiled, hnested, hroot] at h2 h3 h4 h7 h9
    simp [bare, List.map_map, Function.comp_def] at h1 h2 h4 h5 h6 h8
    exact ⟨h1, h2, h3, h4, h5, h6, h7, h8, h9⟩
  · rintro ⟨h1, h2, h3, h4, h5, h6, h7, h8, h9⟩
    refine ⟨?_, ?_, fun user => above_bare s user ▸ h3 user, ?_, ?_, ?_,
      fun user => parentOf_bare s user ▸ h7 user, ?_, ?_⟩
    · simpa [bare, Function.comp_def] using h1
    · simp only [ownTags_bare]
      simpa [bare] using h2
    · simp only [ownTags_bare]
      simpa [bare] using h4
    · simpa [bare, Function.comp_def] using h5
    · simpa [bare, Function.comp_def] using h6
    · simpa [bare, Function.comp_def] using h8
    · simpa only [hfiled, hnested, hroot] using h9

/-- Rows that only differ in their positions. -/
theorem Sound.renumber (h : Sound s) (hbare : bare t = bare s) : Sound t := sound_bare.mp (hbare ▸ sound_bare.mpr h)

/-! ### One row at a time -/

theorem parentOf_eq_some (h : (s.nestings.map fun nesting =>
    (nesting.userId, nesting.documentId)).Nodup) {parentId : DocumentId} :
    parentOf s user documentId = some parentId ↔ ∃ nesting ∈ s.nestings, nesting.userId = user ∧
        nesting.documentId = documentId ∧ nesting.parentDocumentId = parentId := by
  have hfound : ∀ {nesting : Nesting}, (s.nestings.find? fun nesting => nesting.userId = user &&
      nesting.documentId = documentId) = some nesting →
      nesting ∈ s.nestings ∧ nesting.userId = user ∧ nesting.documentId = documentId := fun {nesting} hfind => by
    have hkey := List.find?_some hfind
    simp only [Bool.and_eq_true, decide_eq_true_eq] at hkey
    exact ⟨List.mem_of_find?_eq_some hfind, hkey⟩
  rw [parentOf, Option.map_eq_some_iff]
  constructor
  · rintro ⟨nesting, hfind, hparent⟩
    obtain ⟨hmem, huser, hid⟩ := hfound hfind
    exact ⟨nesting, hmem, huser, hid, hparent⟩
  · rintro ⟨nesting, hmem, rfl, rfl, hparent⟩
    cases hfind : s.nestings.find? fun other =>
        other.userId = nesting.userId && other.documentId = nesting.documentId with
    | none =>
      have hnone := List.find?_eq_none.mp hfind nesting hmem
      simp at hnone
    | some other =>
      obtain ⟨hother, huser, hid⟩ := hfound hfind
      obtain rfl := List.inj_on_of_nodup_map h hother hmem (Prod.ext huser hid)
      exact ⟨other, rfl, hparent⟩

/-- Taking a document from under another keeps the tree sound. -/
theorem clearParent_sound (h : Sound s) (user : UserId) (documentId : DocumentId) :
    Sound (clearParent user documentId s) := by
  have hsub : (clearParent user documentId s).nestings.Sublist s.nestings := List.filter_sublist
  have hnodup := h.nested.sublist (hsub.map _)
  have hnested : ∀ {user' documentId'}, Nested (clearParent user documentId s) user' documentId' →
      Nested s user' documentId' := fun {user' documentId'} hnew => by
    obtain ⟨nesting, hmem, hrest⟩ := hnew
    exact ⟨nesting, hsub.subset hmem, hrest⟩
  refine ⟨h.tagIds, h.parents, h.folders, h.filed, h.assigned, hnodup,
    fun user' => (h.documents user').mono fun p q hpq => ?_, h.placed, fun user' documentId' => ?_⟩
  · obtain ⟨nesting, hmem, hrest⟩ := (parentOf_eq_some hnodup).mp hpq
    exact (parentOf_eq_some h.nested).mpr ⟨nesting, hsub.subset hmem, hrest⟩
  · exact ⟨fun hfiled => ⟨fun hnew => ((h.apart user' documentId').1 hfiled).1 (hnested hnew),
      ((h.apart user' documentId').1 hfiled).2⟩,
      fun hnew => (h.apart user' documentId').2 (hnested hnew)⟩

theorem not_nested_clearParent (s : State) (user : UserId) (documentId : DocumentId) :
    ¬Nested (clearParent user documentId s) user documentId := by
  rintro ⟨nesting, hmem, huser, hid⟩
  have hkept := (List.mem_filter.mp hmem).2
  simp [huser, hid] at hkept

/-- Taking a document out of its folders keeps the tree sound. -/
theorem unassign_sound (h : Sound s) (user : UserId) (documentId : DocumentId) :
    Sound (unassign user documentId s) := by
  have hsub : (unassign user documentId s).assignments.Sublist s.assignments := List.filter_sublist
  refine ⟨h.tagIds, h.parents, h.folders, fun assignment hmem => h.filed assignment
    (hsub.subset hmem), h.assigned.sublist (hsub.map _), h.nested, h.documents, h.placed,
    fun user' documentId' => ⟨fun hfiled => (h.apart user' documentId').1 ?_, (h.apart user' documentId').2⟩⟩
  obtain ⟨assignment, hmem, hrest⟩ := hfiled
  exact ⟨assignment, hsub.subset hmem, hrest⟩

theorem not_filed_unassign (s : State) (user : UserId) (documentId : DocumentId) :
    ¬Filed (unassign user documentId s) user documentId := by
  rintro ⟨assignment, hmem, hid, hown⟩
  have hkept := (List.mem_filter.mp hmem).2
  have hown' : assignment.tagId ∈ ownTags s user := hown
  simp [hid, hown'] at hkept

theorem placement?_isSome : (placement? s user documentId).isSome = true ↔
    ∃ placement ∈ s.placements, placement.userId = user ∧ placement.documentId = documentId := by
  simp [placement?]

/-- What the choice of the root changes. -/
theorem atRoot_setRootPlacement {atRoot : Bool} {user' : UserId} {documentId' : DocumentId} :
    AtRoot (setRootPlacement user documentId atRoot s) user' documentId' ↔ if user' = user ∧
        documentId' = documentId then atRoot = true else AtRoot s user' documentId' := by
  rw [setRootPlacement]
  split
  case isTrue hsome =>
    obtain ⟨row, hrow, hrowUser, hrowId⟩ := placement?_isSome.mp hsome
    split
    case isTrue hsame =>
      obtain ⟨rfl, rfl⟩ := hsame
      constructor
      · rintro ⟨placement, hmem, huser, hid, hroot⟩
        obtain ⟨old, hold, rfl⟩ := List.mem_map.mp hmem
        split at huser
        case isTrue hkey => rwa [if_pos hkey] at hroot
        case isFalse hkey =>
          rw [if_neg hkey] at hid
          exact absurd ⟨huser, hid⟩ hkey
      · intro hroot
        exact ⟨{row with atRoot}, List.mem_map.mpr ⟨row, hrow, if_pos ⟨hrowUser, hrowId⟩⟩, hrowUser, hrowId, hroot⟩
    case isFalse hother =>
      constructor
      · rintro ⟨placement, hmem, huser, hid, hroot⟩
        obtain ⟨old, hold, rfl⟩ := List.mem_map.mp hmem
        split at huser
        case isTrue hkey =>
          rw [if_pos hkey] at hid
          exact absurd ⟨huser.symm.trans hkey.1, hid.symm.trans hkey.2⟩ hother
        case isFalse hkey =>
          rw [if_neg hkey] at hid hroot
          exact ⟨old, hold, huser, hid, hroot⟩
      · rintro ⟨placement, hmem, rfl, rfl, hroot⟩
        exact ⟨placement, List.mem_map.mpr ⟨placement, hmem, if_neg hother⟩, rfl, rfl, hroot⟩
  case isFalse hnone =>
    have hfresh : ¬AtRoot s user documentId := fun hroot => by
      obtain ⟨placement, hmem, huser, hid, -⟩ := hroot
      exact hnone (placement?_isSome.mpr ⟨placement, hmem, huser, hid⟩)
    split
    case isTrue hroot =>
      split
      case isTrue hsame =>
        obtain ⟨rfl, rfl⟩ := hsame
        exact iff_of_true ⟨_, List.mem_append_right _ (List.mem_singleton_self _), rfl, rfl, rfl⟩ hroot
      case isFalse hother =>
        constructor
        · rintro ⟨placement, hmem, huser, hid, hplaced⟩
          obtain hold | hnew := List.mem_append.mp hmem
          · exact ⟨placement, hold, huser, hid, hplaced⟩
          · obtain rfl := List.mem_singleton.mp hnew
            exact absurd ⟨huser.symm, hid.symm⟩ hother
        · rintro ⟨placement, hmem, hrest⟩
          exact ⟨placement, List.mem_append_left _ hmem, hrest⟩
    case isFalse hroot =>
      split
      case isTrue hsame =>
        obtain ⟨rfl, rfl⟩ := hsame
        exact iff_of_false hfresh hroot
      case isFalse => rfl

/-- A placement at the root touches no other rows. -/
theorem setRootPlacement_rows
    (user : UserId) (documentId : DocumentId) (atRoot : Bool) (s : State) :
    ∃ placements, setRootPlacement user documentId atRoot s = {s with placements} := by
  rw [setRootPlacement]
  split
  · exact ⟨_, rfl⟩
  · split
    · exact ⟨_, rfl⟩
    · exact ⟨s.placements, rfl⟩

/-- A document that is in no other place may be placed at the root. -/
theorem setRootPlacement_sound (h : Sound s) {atRoot : Bool}
    (hfree : atRoot = true → ¬Filed s user documentId ∧ ¬Nested s user documentId) :
    Sound (setRootPlacement user documentId atRoot s) := by
  have hplaced : ((setRootPlacement user documentId atRoot s).placements.map fun placement =>
      (placement.userId, placement.documentId)).Nodup := by
    rw [setRootPlacement]
    split
    · have hkeys : (s.placements.map fun placement => if placement.userId = user ∧
          placement.documentId = documentId then {placement with atRoot} else placement).map
          (fun placement => (placement.userId, placement.documentId)) =
          s.placements.map fun placement => (placement.userId, placement.documentId) := by
        rw [List.map_map]
        refine List.map_congr_left fun placement _ => ?_
        rw [Function.comp_apply]
        split <;> rfl
      exact hkeys ▸ h.placed
    case isFalse hnone =>
      split
      · show ((s.placements ++ [_]).map _).Nodup
        rw [List.map_append, List.nodup_append]
        refine ⟨h.placed, List.nodup_singleton _, ?_⟩
        rintro key hold _ hnew rfl
        obtain ⟨placement, hmem, rfl⟩ := List.mem_map.mp hold
        obtain ⟨huser, hid⟩ := Prod.mk.inj (List.mem_singleton.mp hnew)
        exact hnone (placement?_isSome.mpr ⟨placement, hmem, huser, hid⟩)
      · exact h.placed
  have hroot := @atRoot_setRootPlacement s user documentId atRoot
  obtain ⟨placements, hrows⟩ := setRootPlacement_rows user documentId atRoot s
  rw [hrows] at hplaced hroot ⊢
  refine ⟨h.tagIds, h.parents, h.folders, h.filed, h.assigned, h.nested, h.documents, hplaced,
    fun user' documentId' => ?_⟩
  have happart := h.apart user' documentId'
  rw [hroot]
  split
  case isTrue hsame =>
    obtain ⟨rfl, rfl⟩ := hsame
    exact ⟨fun hfiled => ⟨(happart.1 hfiled).1, fun hset => (hfree hset).1 hfiled⟩,
      fun hnested hset => (hfree hset).2 hnested⟩
  case isFalse => exact happart

theorem not_atRoot_setRootPlacement (s : State) (user : UserId) (documentId : DocumentId) :
    ¬AtRoot (setRootPlacement user documentId false s) user documentId := by
  rw [atRoot_setRootPlacement, if_pos ⟨rfl, rfl⟩]
  exact Bool.false_ne_true

/-- A document goes into a folder of the user, where it has no other place. -/
theorem assign_sound (h : Sound s) {tagId : TagId} (position : Nat) (hown : tagId ∈ ownTags s user)
    (hfresh : ∀ assignment ∈ s.assignments, assignment.tagId = tagId →
    assignment.documentId ≠ documentId)
    (hnested : ¬Nested s user documentId) (hroot : ¬AtRoot s user documentId) :
    Sound {s with assignments := s.assignments ++ [⟨tagId, documentId, position⟩]} := by
  have hmem : ∀ assignment, assignment ∈ s.assignments ++ [⟨tagId, documentId, position⟩] ↔
      assignment ∈ s.assignments ∨ assignment = ⟨tagId, documentId, position⟩ :=
      fun assignment => by
    rw [List.mem_append, List.mem_singleton]
  refine ⟨h.tagIds,
    h.parents, h.folders, fun assignment hassignment => ?_, ?_, h.nested, h.documents, h.placed,
    fun user' documentId' => ⟨fun hfiled => ?_, (h.apart user' documentId').2⟩⟩
  · obtain hold | rfl := (hmem assignment).mp hassignment
    · exact h.filed assignment hold
    · exact ⟨user, hown⟩
  · show ((s.assignments ++ [_]).map _).Nodup
    rw [List.map_append, List.nodup_append]
    refine ⟨h.assigned, List.nodup_singleton _, ?_⟩
    rintro key hold _ hnew rfl
    obtain ⟨assignment, hassignment, rfl⟩ := List.mem_map.mp hold
    obtain ⟨htag, hid⟩ := Prod.mk.inj (List.mem_singleton.mp hnew)
    exact hfresh assignment hassignment htag hid
  · obtain ⟨assignment, hassignment, rfl, hown'⟩ := hfiled
    obtain hold | rfl := (hmem assignment).mp hassignment
    · exact (h.apart user' assignment.documentId).1 ⟨assignment, hold, rfl, hown'⟩
    · obtain rfl := h.owner hown hown'
      exact ⟨hnested, hroot⟩

/-- A document goes under one that is not below it, where it has no other place. -/
theorem nest_sound (h : Sound s) {parentId : DocumentId}
    (hbelow : ¬AtOrAbove (parentOf s user) parentId documentId) (hfiled : ¬Filed s user documentId)
    (hnested : ¬Nested s user documentId) (hroot : ¬AtRoot s user documentId) :
    Sound {s with nestings := s.nestings ++ [{userId := user, documentId, parentDocumentId := parentId}]} := by
  have hmem : ∀ nesting, nesting ∈ s.nestings ++ [{userId := user, documentId, parentDocumentId := parentId}] ↔
      nesting ∈ s.nestings ∨ nesting = {userId := user, documentId, parentDocumentId := parentId} :=
        fun nesting => by rw [List.mem_append, List.mem_singleton]
  have hnodup :
      ((s.nestings ++ [({userId := user, documentId, parentDocumentId := parentId} : Nesting)]).map
      fun nesting => (nesting.userId, nesting.documentId)).Nodup := by
    rw [List.map_append, List.nodup_append]
    refine ⟨h.nested, List.nodup_singleton _, ?_⟩
    rintro key hold _ hnew rfl
    obtain ⟨nesting, hnesting, rfl⟩ := List.mem_map.mp hold
    obtain ⟨huser, hid⟩ := Prod.mk.inj (List.mem_singleton.mp hnew)
    exact hnested ⟨nesting, hnesting, huser, hid⟩
  refine ⟨h.tagIds, h.parents, h.folders, h.filed, h.assigned, hnodup, fun user' => ?_, h.placed,
    fun user' documentId' => ?_⟩
  · by_cases hsame : user' = user
    · subst hsame
      refine (h.documents user').move documentId (some parentId)
        (fun r hr => Option.some.inj hr ▸ hbelow) fun a b hab => ?_
      obtain ⟨nesting, hnesting, huser, rfl, hb⟩ := (parentOf_eq_some hnodup).mp hab
      obtain hold | rfl := (hmem nesting).mp hnesting
      · exact .inl ⟨(parentOf_eq_some h.nested).mpr ⟨nesting, hold, huser, rfl, hb⟩,
          fun hid => hnested ⟨nesting, hold, huser, hid⟩⟩
      · exact .inr ⟨rfl, congrArg some hb⟩
    · refine (h.documents user').mono fun a b hab => ?_
      obtain ⟨nesting, hnesting, huser, hrest⟩ := (parentOf_eq_some hnodup).mp hab
      obtain hold | rfl := (hmem nesting).mp hnesting
      · exact (parentOf_eq_some h.nested).mpr ⟨nesting, hold, huser, hrest⟩
      · exact absurd huser.symm hsame
  · have hnew :
        ∀ nesting ∈ s.nestings ++ [{userId := user, documentId, parentDocumentId := parentId}],
        nesting.userId = user' → nesting.documentId = documentId' →
        Nested s user' documentId' ∨ user' = user ∧ documentId' = documentId := fun nesting hnesting huser hid => by
      obtain hold | rfl := (hmem nesting).mp hnesting
      · exact .inl ⟨nesting, hold, huser, hid⟩
      · exact .inr ⟨huser.symm, hid.symm⟩
    refine ⟨fun hfiled' => ⟨?_, ((h.apart user' documentId').1 hfiled').2⟩, ?_⟩
    · rintro ⟨nesting, hnesting, huser, hid⟩
      obtain hold | ⟨rfl, rfl⟩ := hnew nesting hnesting huser hid
      · exact ((h.apart user' documentId').1 hfiled').1 hold
      · exact hfiled hfiled'
    · rintro ⟨nesting, hnesting, huser, hid⟩
      obtain hold | ⟨rfl, rfl⟩ := hnew nesting hnesting huser hid
      · exact (h.apart user' documentId').2 hold
      · exact hroot

end Runs
end Galaris.Document.PersonalTree
