import Galaris.Document.TreeOthers

/-! Runs of edits, by any users in any order.

From empty rows, whatever the users do: the trees stay forests, so that every loop over them ends
(`forests`), a document has one place (`one_place`), a folder goes with exactly what is below it
(`removal`), a move shows (`moved_order`), and nobody sees the edits of others (`private_rows`). -/
namespace Galaris.Document.PersonalTree

open Transition Ancestry

section Runs
variable {s t : State} {user : UserId} {documentId : DocumentId}
variable {access : DocumentId → Bool} {readable : List DocumentId} {rank : Node → Nat} {move : Move}

/-! ### One place -/

/-- The folders of the user that the document is in. -/
def foldersOf (s : State) (user : UserId) (documentId : DocumentId) : List TagId :=
  (s.assignments.filter fun assignment => assignment.documentId = documentId &&
    assignment.tagId ∈ ownTags s user).map (·.tagId)

/-- The place of a document: its folders, what it is under, and whether it is at the root. -/
structure PlacedAt (s : State) (user : UserId) (documentId : DocumentId) (folder : Option TagId)
    (parentId : Option DocumentId) (atRoot : Bool) : Prop where
  folders : foldersOf s user documentId = folder.toList
  parent : parentOf s user documentId = parentId
  root : AtRoot s user documentId ↔ atRoot = true

/-- Positions do not tell where a document is. -/
theorem foldersOf_bare (s : State) (user : UserId) (documentId : DocumentId) :
    foldersOf (bare s) user documentId = foldersOf s user documentId := by
  rw [foldersOf, foldersOf, ownTags_bare]
  simp [bare, List.filter_map, Function.comp_def]

theorem atRoot_bare : AtRoot (bare s) user documentId ↔ AtRoot s user documentId := by simp [AtRoot, bare]

/-- A numbering moves no document to another place. -/
theorem PlacedAt.renumber {folder : Option TagId} {parentId : Option DocumentId} {atRoot : Bool}
    (h : PlacedAt s user documentId folder parentId atRoot) (hbare : bare t = bare s) :
    PlacedAt t user documentId folder parentId atRoot := by
  refine ⟨?_, ?_, ?_⟩
  · rw [← foldersOf_bare, hbare, foldersOf_bare, h.folders]
  · rw [← parentOf_bare, hbare, parentOf_bare, h.parent]
  · rw [← atRoot_bare, hbare, atRoot_bare, h.root]

theorem foldersOf_eq_nil (h : ¬Filed s user documentId) : foldersOf s user documentId = [] := by
  rw [foldersOf, List.map_eq_nil_iff, List.filter_eq_nil_iff]
  intro assignment hmem hkey
  simp only [Bool.and_eq_true, decide_eq_true_eq] at hkey
  exact h ⟨assignment, hmem, hkey⟩

theorem parentOf_eq_none (h : ¬Nested s user documentId) : parentOf s user documentId = none := by
  rw [parentOf, Option.map_eq_none_iff, List.find?_eq_none]
  intro nesting hmem hkey
  simp only [Bool.and_eq_true, decide_eq_true_eq] at hkey
  exact h ⟨nesting, hmem, hkey⟩

/-- A document that is nowhere is placed nowhere. -/
theorem Free.placed (h : Free s user documentId) : PlacedAt s user documentId none none false :=
  ⟨foldersOf_eq_nil h.filed, parentOf_eq_none h.nested, iff_of_false h.atRoot Bool.false_ne_true⟩

/-- A free document that is filed in a folder of the user is there, and in no other place. -/
theorem Free.file (h : Free s user documentId) {tagId : TagId} (hown : tagId ∈ ownTags s user) (position : Nat) :
    PlacedAt {s with assignments := s.assignments ++ [⟨tagId, documentId, position⟩]} user
        documentId (some tagId) none false := by
  refine ⟨?_, h.placed.parent, h.placed.root⟩
  have hold := foldersOf_eq_nil h.filed
  rw [foldersOf, List.map_eq_nil_iff] at hold
  have hnew : (s.assignments ++ [(⟨tagId, documentId, position⟩ : Assignment)]).filter
      (fun assignment => assignment.documentId = documentId && assignment.tagId ∈ ownTags s user) =
      [⟨tagId, documentId, position⟩] := by
    rw [List.filter_append, hold, List.nil_append, List.filter_singleton]
    simp [hown]
  exact congrArg (List.map (·.tagId)) hnew

/-- A free document that is nested is under its parent, and in no other place. -/
theorem Free.nest (h : Free s user documentId) (parentId : DocumentId) :
    PlacedAt {s with nestings := s.nestings ++ [{userId := user, documentId, parentDocumentId := parentId}]}
      user documentId none (some parentId) false := by
  refine ⟨h.placed.folders, ?_, h.placed.root⟩
  have hold := h.placed.parent
  rw [parentOf, Option.map_eq_none_iff] at hold
  rw [parentOf, List.find?_append, hold]
  simp

/-- The document is as it was, but for the root. -/
theorem placed_setRootPlacement {atRoot : Bool} (hfiled : ¬Filed s user documentId)
    (hnested : ¬Nested s user documentId) :
    PlacedAt (setRootPlacement user documentId atRoot s) user documentId none none atRoot := by
  have hroot := @atRoot_setRootPlacement s user documentId atRoot user documentId
  rw [if_pos ⟨rfl, rfl⟩] at hroot
  obtain ⟨placements, hrows⟩ := setRootPlacement_rows user documentId atRoot s
  rw [hrows] at hroot ⊢
  exact ⟨foldersOf_eq_nil hfiled, parentOf_eq_none hnested, hroot⟩

/-- An accepted move leaves a document where it says. -/
theorem moveDocument_placed (h : Sound s) {tagId : Option TagId} {atRoot : Bool}
    (hok : moveDocument s user access documentId tagId atRoot = .ok t) :
    PlacedAt t user documentId tagId none atRoot := by
  simp only [moveDocument, Results.bind_eq_ok, ensure_eq_ok, Results.pure_eq_ok] at hok
  obtain ⟨-, hroot, tag, htag, -, -, rfl⟩ := hok
  cases tagId with
  | none =>
    exact placed_setRootPlacement (not_filed_unassign
      (clearParent user documentId s) user documentId) (not_nested_clearParent s user documentId)
  | some id =>
    have hroot : atRoot = false := by simpa using hroot
    obtain ⟨-, hfree⟩ := cleared_sound h user documentId
    rw [hroot, Option.elim_some, assign, setRootPlacement_assignments]
    obtain ⟨placements, hrows⟩ := setRootPlacement_rows user documentId false
      (unassign user documentId (clearParent user documentId s))
    rw [hrows] at hfree ⊢
    exact hfree.file (own_of_mapM htag id rfl) _

/-- Placing a document leaves it where the move says. -/
theorem place_placed (h : Sound s) (hnode : move.node = .document documentId)
    (hlist : move.listOnly = false) (hvalid : move.parentId.isSome = true → move.atRoot = false)
    (hallowed : ∀ p, move.parentId = some p → p ∈ ownTags s user)
    (hok : place s user access readable rank move = .ok t) :
    PlacedAt t user documentId move.parentId none move.atRoot := by
  cases hparent : move.parentId with
  | none =>
    simp only [place, hnode, hparent, hlist, Bool.false_eq_true, if_false] at hok
    split at hok
    · cases hok
    · simp only [Results.bind_eq_ok, Results.pure_eq_ok] at hok
      obtain ⟨order, -, rfl⟩ := hok
      exact placed_setRootPlacement (not_filed_unassign
        (clearParent user documentId s) user documentId) (not_nested_clearParent s user documentId)
  | some parentId =>
    simp only [place, hnode, hparent] at hok
    split at hok
    · cases hok
    · simp only [Results.bind_eq_ok, Results.pure_eq_ok] at hok
      obtain ⟨order, -, rfl⟩ := hok
      obtain ⟨-, hfree⟩ := cleared_sound h user documentId
      rw [← unassign_setRootPlacement] at hfree
      obtain ⟨placements, hrows⟩ := cleared_rows s user documentId
      rw [hrows] at hfree ⊢
      rw [hvalid (hparent ▸ rfl)]
      exact (hfree.file (hallowed parentId hparent) 0).renumber (bare_numberChildren _ _ _)

/-- An accepted reorder leaves a document where the move says. -/
theorem reorder_placed (h : Sound s) (hnode : move.node = .document documentId) (hlist : move.listOnly = false)
    (hok : reorder s user access readable rank move = some (.ok t)) :
    PlacedAt t user documentId move.parentId move.parentDocumentId move.atRoot := by
  rw [reorder] at hok
  cases hvalidate : move.validate with
  | error refusal =>
    rw [hvalidate] at hok
    cases hok
  | ok =>
    rw [hvalidate] at hok
    have hvalid : (move.atRoot = true → move.parentId = none ∧ move.parentDocumentId = none) ∧
        (move.parentDocumentId.isSome = true → move.parentId = none) := by
      rw [Move.validate] at hvalidate
      split at hvalidate
      · cases hvalidate
      · split at hvalidate
        · cases hvalidate
        · simp_all
    cases hparent : move.parentDocumentId with
    | some parentId =>
      rw [hparent, hnode] at hok
      dsimp only at hok
      obtain ⟨checked, hchecked, -⟩ := validateParent_spec h user access documentId parentId
      rw [reorderNested, hchecked] at hok
      have hresult := Option.some.inj hok
      simp only [Results.bind_eq_ok, Results.pure_eq_ok] at hresult
      obtain ⟨-, -, -, -, order, -, rfl⟩ := hresult
      obtain ⟨-, hfree⟩ := cleared_sound h user documentId
      rw [← unassign_setRootPlacement] at hfree
      have hroot : move.atRoot = false := Bool.eq_false_iff.mpr fun hset => by simp [hvalid.1 hset] at hparent
      rw [hvalid.2 (hparent ▸ rfl), hroot]
      exact (hfree.nest parentId).renumber (bare_numberNested user parentId _ _)
    | none =>
      rw [hparent] at hok
      dsimp only at hok
      split at hok
      · cases hok
      · obtain ⟨checked, hchecked, hspec⟩ := checkAncestors_spec h user move.node.tag?
          "A folder cannot be placed inside itself" move.parentId
        rw [hchecked] at hok
        obtain ⟨_, rfl, hplace⟩ := Results.bind_eq_ok.mp (Option.some.inj hok)
        refine place_placed h hnode hlist (fun hsome => Bool.eq_false_iff.mpr fun hset => ?_)
          (fun p hp => (hspec.mp rfl p hp).1) hplace
        rw [(hvalid.1 hset).1] at hsome
        cases hsome

/-! ### Runs -/

variable {edits edits' : List (UserId × Edit)}

/-- An edit is refused, or performed on a sound tree. -/
theorem apply_cases (h : Sound s) {edit : UserId × Edit} (hhappens : Happens s edit t) :
    t = s ∨ perform s edit.1 edit.2 = some (.ok t) ∧ Sound t := by
  rw [Happens, Executes, apply] at hhappens
  split at hhappens
  case isTrue hpossible =>
    obtain ⟨result, hresult, hsound⟩ := perform_spec h edit.1 hpossible
    rw [hresult] at hhappens
    cases result with
    | error refusal => exact .inl (Option.some.inj hhappens).symm
    | ok t' =>
      obtain rfl := Option.some.inj hhappens
      exact .inr ⟨hresult, hsound t' rfl⟩
  case isFalse => cases hhappens

/-- The tree is sound after every run. -/
theorem run_sound (hs : Sound s) (h : Steps Happens s edits t) : Sound t := by
  refine h.invariant (P := Sound) (fun u edit v hu hstep => ?_) hs
  obtain rfl | ⟨-, hv⟩ := apply_cases hu hstep
  · exact hu
  · exact hv

/-- The folders of every user are a forest, and so are the documents under documents, so that no loop of an
edit runs for ever. -/
theorem forests (h : Steps Happens {} edits s) (user : UserId) :
    Acyclic (above s user) ∧ Acyclic (parentOf s user) ∧ (∀ id parentId,
      above s user id = some parentId → id ∈ ownTags s user ∧ parentId ∈ ownTags s user) ∧
      ∀ edit, possible s edit = true → perform s user edit ≠ none := by
  have hs := run_sound sound_empty h
  refine ⟨hs.folders user, hs.documents user, fun _ _ hup => hs.above_own hup, fun edit hpossible => ?_⟩
  obtain ⟨result, hresult, -⟩ := perform_spec hs user hpossible
  rw [hresult]
  exact Option.some_ne_none result

/-- A document is filed in folders, or under one document, or at the root, or nowhere; a move puts it where it says, and
nowhere else. A reorder of the list of all documents (`list_only`) moves no document to another place. -/
theorem one_place (h : Steps Happens {} edits s) (user : UserId) (documentId : DocumentId) :
    ((foldersOf s user documentId = [] ∨ parentOf s user documentId = none ∧ ¬AtRoot s user
      documentId) ∧ (parentOf s user documentId = none ∨ ¬AtRoot s user documentId)) ∧
      (∀ access tagId atRoot t, moveDocument s user access documentId tagId atRoot = .ok t →
        PlacedAt t user documentId tagId none atRoot) ∧
      ∀ access readable rank (move : Move) t, move.node = .document documentId →
        move.listOnly = false → reorder s user access readable rank move = some (.ok t) →
        PlacedAt t user documentId move.parentId move.parentDocumentId move.atRoot := by
  have hs := run_sound sound_empty h
  refine ⟨⟨?_, ?_⟩, fun _ _ _ _ hok => moveDocument_placed hs hok,
    fun _ _ _ _ _ hnode hlist hok => reorder_placed hs hnode hlist hok⟩
  · by_cases hfiled : Filed s user documentId
    · exact .inr ⟨parentOf_eq_none ((hs.apart user documentId).1 hfiled).1, ((hs.apart user documentId).1 hfiled).2⟩
    · exact .inl (foldersOf_eq_nil hfiled)
  · by_cases hnested : Nested s user documentId
    · exact .inr ((hs.apart user documentId).2 hnested)
    · exact .inl (parentOf_eq_none hnested)

/-- A folder goes with all that is below it, only when that has been confirmed or the folder is empty. The
other folders, the documents under documents and the list of all documents stay as they are. -/
theorem removal (h : Steps Happens {} edits s) {tagId : TagId} (hown : tagId ∈ ownTags s user) (confirmed : Bool) :
    ∃ (branch : List TagId) (documents : List DocumentId) (t : State) (deletion : Deletion),
    removeTag s user tagId confirmed = some (.ok (t, deletion)) ∧
      (branch.Nodup ∧ ∀ id, id ∈ branch ↔ AtOrAbove (above s user) id tagId) ∧
      (documents.Nodup ∧ ∀ id, id ∈ documents ↔ ∃ assignment ∈ s.assignments,
        assignment.tagId ∈ branch ∧ assignment.documentId = id) ∧
      deletion.tagCount = branch.length ∧ deletion.documentCount = documents.length ∧
      (deletion.deleted = true ↔ confirmed = true ∨ branch = [tagId] ∧ documents = []) ∧
      (deletion.deleted = false → t = s) ∧
      (deletion.deleted = true →
        ((∀ owner id, id ∈ ownTags t owner ↔ id ∈ ownTags s owner ∧ id ∉ branch) ∧
          ∀ tag : Tag, tag.id ∉ branch → (tag ∈ t.tags ↔ tag ∈ s.tags)) ∧
        (∀ assignment, assignment ∈ t.assignments ↔
          assignment ∈ s.assignments ∧ ¬(assignment.documentId ∈ documents ∧ assignment.tagId ∈ ownTags s user)) ∧
        t.nestings = s.nestings ∧ t.placements = s.placements) := by
  have hs := run_sound sound_empty h
  obtain ⟨branch, hnodup, hbranch, hresult⟩ := removeTag_eq hs hown confirmed
  have hdocuments : ∀ id, id ∈ ((s.assignments.filter (·.tagId ∈ branch)).map (·.documentId)).dedup ↔
      ∃ assignment ∈ s.assignments, assignment.tagId ∈ branch ∧ assignment.documentId = id := fun id => by
    rw [List.mem_dedup, List.mem_map]
    constructor
    · rintro ⟨assignment, hmem, hid⟩
      obtain ⟨hassignment, hgone⟩ := List.mem_filter.mp hmem
      exact ⟨assignment, hassignment, of_decide_eq_true hgone, hid⟩
    · rintro ⟨assignment, hassignment, hgone, hid⟩
      exact ⟨assignment, List.mem_filter.mpr ⟨hassignment, decide_eq_true hgone⟩, hid⟩
  have htop : tagId ∈ branch := (hbranch tagId).mpr .refl
  have hsingle : branch.length ≤ 1 ↔ branch = [tagId] := by
    constructor
    · intro hlength
      obtain ⟨id, rfl⟩ := List.length_eq_one_iff.mp (le_antisymm hlength (List.length_pos_of_mem htop))
      rw [List.mem_singleton.mp htop]
    · rintro rfl
      exact Nat.le_refl 1
  generalize hdocs : ((s.assignments.filter (·.tagId ∈ branch)).map (·.documentId)).dedup =
    documents at hdocuments hresult
  have hdocsNodup : documents.Nodup := hdocs ▸ List.nodup_dedup _
  dsimp only at hresult
  split at hresult
  case isTrue hasked =>
    simp only [Bool.and_eq_true, Bool.not_eq_true', Bool.or_eq_true, decide_eq_true_eq] at hasked
    refine ⟨branch, documents, s, _, hresult, ⟨hnodup, hbranch⟩, ⟨hdocsNodup, hdocuments⟩, rfl, rfl,
      iff_of_false Bool.false_ne_true ?_, fun _ => rfl, (absurd · Bool.false_ne_true)⟩
    rintro (hconfirmed | ⟨hone, hempty⟩)
    · simp [hconfirmed] at hasked
    · simp [hone, hempty] at hasked
  case isFalse hdone =>
    refine ⟨branch, documents, _, _, hresult, ⟨hnodup, hbranch⟩, ⟨hdocsNodup, hdocuments⟩, rfl, rfl,
      iff_of_true rfl ?_, fun hkept => absurd hkept.symm Bool.false_ne_true,
      fun _ => ⟨⟨?_, fun tag hkept => mem_pruned hkept⟩, ?_, rfl, rfl⟩⟩
    · cases confirmed with
      | true => exact .inl rfl
      | false =>
        simp only [Bool.not_false, Bool.true_and, Bool.or_eq_true, decide_eq_true_eq, not_or,
          Nat.not_lt, Nat.le_zero, List.length_eq_zero_iff] at hdone
        exact .inr ⟨hsingle.mp hdone.1, hdone.2⟩
    · exact fun owner id => ownTags_pruned
    · intro assignment
      rw [pruned, List.mem_filter]
      simp only [Bool.not_eq_true', Bool.and_eq_false_iff, decide_eq_false_iff_not, not_and_or]

/-- A moved node stands where the move says among what was shown, folders first, and stays there whatever
the titles are. -/
theorem moved_order (h : Steps Happens {} edits s) (hreadable : readable.Nodup)
    (hok : reorder s user access readable rank move = some (.ok t)) (rank' : Node → Nat) :
    Inserted (sorted rank ((shown s user readable move).filter (·.1 ≠ move.node))) move
        (sorted rank' (shown t user (move.reads readable) move)) := by
  obtain ⟨result, hresult, hspec⟩ := reorder_spec (run_sound sound_empty h) user access hreadable rank move
  exact (hspec t (Option.some.inj (hresult.symm.trans hok))).2 rank'

/-- Whatever others do, the rows of a user are the same. -/
theorem private_rows (h : Steps Happens {} edits s) (hlater : Steps
    (Guarded Happens fun _ edit => edit.1 ≠ user) s edits' t) : Untouched user s t := by
  refine (hlater.invariant (P := fun u => Sound u ∧ Untouched user s u)
    (fun u edit v hu hstep => ?_) ⟨run_sound sound_empty h, Untouched.refl user s⟩).2
  obtain rfl | ⟨hperform, hv⟩ := apply_cases hu.1 hstep.2
  · exact hu
  · exact ⟨hv, hu.2.trans (perform_untouched (Ne.symm hstep.1) hu.1 hperform)⟩

end Runs

/-! Two users file their documents. -/

def after (s : State) (edits : List (UserId × Edit)) : State := (edits.foldlM apply s).getD s

theorem steps_after {s : State} {edits : List (UserId × Edit)}
    (h : (edits.foldlM apply s).isSome = true) : Steps Happens s edits (after s edits) := by
  obtain ⟨t, ht⟩ := Option.isSome_iff_exists.mp h
  refine .of_foldlM ?_
  rw [after, ht, Option.getD_some]

def filing : List (UserId × Edit) := [
  (1, .writeTag ⟨"Work", none⟩ none 10),
  (1, .writeTag ⟨"Plans", some 10⟩ none 11),
  (1, .moveDocument (fun _ => true) 5 (some 11) false),
  (1, .assignTag (fun _ => true) 6 11 false),
  (2, .writeTag ⟨"Home", none⟩ none 12)]

def filed : State := after {} filing

/-- The second document goes before the first. -/
def upward : Move := {node := .document 6, parentId := some 11, anchor := some (.document 5)}

def reordered : State := after filed [(1, .reorder (fun _ => true) [] (fun _ => 0) upward)]

/-- What the rows of the sample are, computed. -/
theorem sampled : (filing.foldlM apply {}).isSome = true ∧ reorder filed 1 (fun _ => true) []
    (fun _ => 0) upward = some (.ok reordered) ∧ 10 ∈ ownTags filed 1 ∧
    Happens filed (2, .sortChildren none (fun _ => 0) false)
      (after filed [(2, .sortChildren none (fun _ => 0) false)]) := by decide +kernel

theorem reaches_filed : Steps Happens {} filing filed := steps_after sampled.1

theorem sample_forests : ¬Above (above filed 1) 11 11 := (forests reaches_filed 1).1 11

theorem sample_place : PlacedAt reordered 1 6 (some 11) none false :=
    (one_place reaches_filed 1 6).2.2 _ _ _ upward _ rfl rfl sampled.2.1

theorem sample_removal : ∃ t deletion, removeTag filed 1 10 false = some (.ok (t, deletion)) ∧
    (deletion.deleted = false → t = filed) := by
  obtain ⟨branch, documents, t, deletion, hremoved, -, -, -, -, -, hkept, -⟩ :=
    removal reaches_filed sampled.2.2.1 false
  exact ⟨t, deletion, hremoved, hkept⟩

theorem sample_order :
    Inserted (sorted (fun _ => 0) ((shown filed 1 [] upward).filter (·.1 ≠ upward.node))) upward
    (sorted (fun _ => 1) (shown reordered 1 (upward.reads []) upward)) :=
  moved_order reaches_filed List.nodup_nil sampled.2.1 fun _ => 1

theorem sample_private : Untouched 1 filed (after filed [(2, .sortChildren none (fun _ => 0) false)]) :=
  private_rows reaches_filed (.single ⟨by decide, sampled.2.2.2⟩)

end Galaris.Document.PersonalTree
