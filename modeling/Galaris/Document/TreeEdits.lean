import Galaris.Base.Results
import Galaris.Document.TreeRows

/-! What the edits of a personal tree keep.

The way up from a folder or a document ends, and refuses exactly what would put a place at or below itself
(`checkAncestors_spec`, `validateParent_spec`); the branch below a folder is found level by level (`removeTag_eq`). -/
namespace Galaris.Document.PersonalTree

open Transition Ancestry

section Runs
variable {s t : State} {user : UserId} {documentId : DocumentId}

/-! ### Folders -/

theorem checkAncestors_none (s : State) (user : UserId) (moving : Option TagId) (message : String) (fuel : Nat) :
    checkAncestors s user moving message fuel none = some (.ok ()) := by cases fuel <;> rfl

/-- The loop of the check climbs the folders. -/
theorem checkAncestors_eq_climb (h : Sound s) (moving : Option TagId) (message : String)
    (fuel : Nat) {id : TagId} (hown : id ∈ ownTags s user) :
    checkAncestors s user moving message fuel (some id) =
      (climb (above s user) (fun p => moving = some p) fuel id).map fun ends =>
      if ends then .ok () else .error (.invalid message) := by
  induction fuel generalizing id with
  | zero => rfl
  | succ fuel ih =>
    obtain ⟨tag, htag, rfl, rfl, hlive⟩ := mem_ownTags.mp hown
    have hfind := h.tag? htag hlive
    rw [checkAncestors, climb]
    by_cases hmet : moving = some tag.id
    · rw [if_pos hmet, if_pos (decide_eq_true hmet)]
      rfl
    · rw [if_neg hmet, if_neg (by simpa using hmet), hfind, above, hfind, Option.bind_some]
      dsimp only
      cases hparent : tag.parentId with
      | none => exact checkAncestors_none s tag.userId moving message fuel
      | some parentId => exact ih (h.parents tag htag hlive parentId hparent)

/-- The loop ends, and a folder may go into one of the same user that is not at or below it. -/
theorem checkAncestors_spec (h : Sound s) (user : UserId) (moving : Option TagId) (message : String)
    (parentId : Option TagId) :
    ∃ checked, checkAncestors s user moving message (turns s) parentId = some checked ∧
      (checked = .ok () ↔ ∀ p, parentId = some p → p ∈ ownTags s user ∧ ∀ id, moving = some id →
        ¬AtOrAbove (above s user) p id) := by
  cases parentId with
  | none =>
    exact ⟨.ok (), checkAncestors_none s user moving message _,
      iff_of_true rfl fun p hp => absurd hp.symm (Option.some_ne_none p)⟩
  | some p =>
    simp only [Option.some.injEq, forall_eq']
    by_cases hown : p ∈ ownTags s user
    · rw [checkAncestors_eq_climb h moving message _ hown]
      obtain ⟨hends, hall⟩ | ⟨hends, q, hway, hmet⟩ :=
        climb_spec (fun p => moving = some p) (h.folders user) (fun _ _ hup => (h.above_own hup).2)
        (length_ownTags s user) p
      · rw [hends]
        refine ⟨_, rfl, iff_of_true rfl ⟨hown, fun id hmoving hway => ?_⟩⟩
        have hnot := hall id hway
        simp [hmoving] at hnot
      · rw [hends]
        exact ⟨_, rfl, iff_of_false (by simp) fun hboth => hboth.2 q (of_decide_eq_true hmet) hway⟩
    · rw [turns, checkAncestors]
      split
      · exact ⟨_, rfl, iff_of_false (by simp) fun hboth => hown hboth.1⟩
      · cases hfind : tag? s user p with
        | none => exact ⟨_, rfl, iff_of_false (by simp) fun hboth => hown hboth.1⟩
        | some tag =>
          obtain ⟨htag, hid, huser, hlive⟩ := tag?_eq_some hfind
          exact absurd (mem_ownTags.mpr ⟨tag, htag, hid, huser, hlive⟩) hown

/-- A new folder under one of the user keeps the tree sound. -/
theorem addTag_sound (h : Sound s) {fresh : TagId} {parentId : Option TagId} (name : String)
    (position : Nat) (hfresh : ∀ tag ∈ s.tags, tag.id ≠ fresh)
    (hparent : ∀ p, parentId = some p → p ∈ ownTags s user) :
    Sound {s with tags := s.tags ++ [{id := fresh, userId := user, parentId, name, position}]} := by
  have hmem : ∀ tag, tag ∈ s.tags ++ [{id := fresh, userId := user, parentId, name, position}] ↔
      tag ∈ s.tags ∨ tag = {id := fresh, userId := user, parentId, name, position} :=
        fun tag => by rw [List.mem_append, List.mem_singleton]
  have hown : ∀ {user' id}, id ∈ ownTags
      {s with tags := s.tags ++ [{id := fresh, userId := user, parentId, name, position}]} user' ↔
      id ∈ ownTags s user' ∨ id = fresh ∧ user' = user := fun {user' id} => by
    rw [mem_ownTags, mem_ownTags]
    constructor
    · rintro ⟨tag, htag, hrest⟩
      obtain hold | rfl := (hmem tag).mp htag
      · exact .inl ⟨tag, hold, hrest⟩
      · exact .inr ⟨hrest.1.symm, hrest.2.1.symm⟩
    · rintro (⟨tag, htag, hrest⟩ | ⟨rfl, rfl⟩)
      · exact ⟨tag, (hmem tag).mpr (.inl htag), hrest⟩
      · exact ⟨_, (hmem _).mpr (.inr rfl), rfl, rfl, rfl⟩
  have hnotOwn : ∀ {user'}, fresh ∉ ownTags s user' := fun {user'} hmemOwn => by
    obtain ⟨tag, htag, hid, -⟩ := mem_ownTags.mp hmemOwn
    exact hfresh tag htag hid
  have hids : ((s.tags ++ [({id := fresh, userId := user, parentId, name, position} : Tag)]).map (·.id)).Nodup := by
    rw [List.map_append, List.nodup_append]
    refine ⟨h.tagIds, List.nodup_singleton _, ?_⟩
    simpa using hfresh
  have hfiled : ∀ {user' documentId'},
      Filed {s with tags := s.tags ++ [{id := fresh, userId := user, parentId, name, position}]}
      user' documentId' → Filed s user' documentId' :=
    fun {user' documentId'} hnew => by
      obtain ⟨assignment, hassignment, hid, hownNew⟩ := hnew
      obtain hownOld | ⟨hsame, -⟩ := hown.mp hownNew
      · exact ⟨assignment, hassignment, hid, hownOld⟩
      · obtain ⟨owner, howner⟩ := h.filed assignment hassignment
        exact absurd (hsame ▸ howner) hnotOwn
  refine ⟨hids, fun tag htag hlive p hp => ?_, fun user' => ?_, fun assignment hassignment => ?_,
    h.assigned, h.nested, h.documents, h.placed,
    fun user' documentId' => ⟨fun hnew => (h.apart user' documentId').1 (hfiled hnew), (h.apart user' documentId').2⟩⟩
  · obtain hold | rfl := (hmem tag).mp htag
    · exact hown.mpr (.inl (h.parents tag hold hlive p hp))
    · exact hown.mpr (.inl (hparent p hp))
  · -- The new folder is above nothing.
    have hedge : ∀ a b,
        above {s with tags := s.tags ++ [{id := fresh, userId := user, parentId, name, position}]}
        user' a = some b →
        above s user' a = some b ∧ a ≠ fresh ∨ a = fresh ∧ parentId = some b ∧ user' = user := fun a b hab => by
      obtain ⟨tag, htag, hrest⟩ := Option.bind_eq_some_iff.mp hab
      obtain ⟨hmemTag, rfl, rfl, hlive⟩ := tag?_eq_some htag
      obtain hold | rfl := (hmem tag).mp hmemTag
      · exact .inl ⟨(above_eq_some h).mpr ⟨tag, hold, rfl, rfl, hlive, hrest⟩, hfresh tag hold⟩
      · exact .inr ⟨rfl, hrest, rfl⟩
    by_cases hsame : user' = user
    · subst hsame
      refine (h.folders user').move fresh parentId (fun r hr hway => ?_) fun a b hab =>
        (hedge a b hab).imp_right fun hnew => ⟨hnew.1, hnew.2.1⟩
      obtain rfl | ⟨c, -, hc⟩ := Relation.ReflTransGen.cases_tail hway
      · exact hnotOwn (hparent _ hr)
      · exact hnotOwn (h.above_own hc).2
    · exact (h.folders user').mono fun a b hab => (hedge a b hab).elim (·.1) fun hnew => absurd hnew.2.2 hsame
  · obtain ⟨owner, howner⟩ := h.filed assignment hassignment
    exact ⟨owner, hown.mpr (.inl howner)⟩

/-- The folder is written in its place. -/
theorem putTag_sound (h : Sound s) {tag tag' : Tag} (htag : tag ∈ s.tags) (hid : tag'.id = tag.id)
    (huser : tag'.userId = tag.userId) (hdeleted : tag'.deleted = tag.deleted)
    (hparent : ∀ p, tag'.parentId = some p → p ∈ ownTags s tag.userId ∧
      ¬AtOrAbove (above s tag.userId) p tag.id) : Sound (putTag tag' s) := by
  have hrow : ∀ row ∈ s.tags, row = tag ∧ (if row.id = tag'.id then tag' else row) = tag' ∨
      row.id ≠ tag.id ∧ (if row.id = tag'.id then tag' else row) = row := fun row hmem => by
    rw [hid]
    by_cases hsame : row.id = tag.id
    · exact .inl ⟨h.eq_of_id hmem htag hsame, if_pos hsame⟩
    · exact .inr ⟨hsame, if_neg hsame⟩
  have hkept : ∀ row ∈ s.tags, (if row.id = tag'.id then tag' else row).id = row.id ∧
      (if row.id = tag'.id then tag' else row).userId = row.userId ∧
      (if row.id = tag'.id then tag' else row).deleted = row.deleted := fun row hmem => by
    obtain ⟨rfl, hnew⟩ | ⟨-, hsame⟩ := hrow row hmem
    · rw [hnew]
      exact ⟨hid, huser, hdeleted⟩
    · rw [hsame]
      exact ⟨rfl, rfl, rfl⟩
  have hown : ∀ user', ownTags (putTag tag' s) user' = ownTags s user' := fun user' => by
    rw [ownTags, ownTags, putTag, List.filter_map, List.map_map]
    rw [List.filter_congr fun row hmem => show _ = (decide (row.userId = user') && !row.deleted) by
      rw [Function.comp_apply, (hkept row hmem).2.1, (hkept row hmem).2.2]]
    exact List.map_congr_left fun row hmem => (hkept row (List.mem_of_mem_filter hmem)).1
  have hmem : ∀ {row}, row ∈ (putTag tag' s).tags → row = tag' ∨ row ∈ s.tags ∧ row.id ≠ tag.id := fun {row} hmem => by
    obtain ⟨old, hold, rfl⟩ := List.mem_map.mp hmem
    obtain ⟨-, hnew⟩ | ⟨hother, hsame⟩ := hrow old hold
    · exact .inl hnew
    · rw [hsame]
      exact .inr ⟨hold, hother⟩
  have hids : (putTag tag' s).tags.map (·.id) = s.tags.map (·.id) := by
    rw [putTag, List.map_map]
    exact List.map_congr_left fun row hmem => (hkept row hmem).1
  have hfiled : ∀ {user' documentId'}, Filed (putTag tag' s) user' documentId' ↔
      Filed s user' documentId' := fun {user' documentId'} => by
    simp only [Filed, hown]
    rfl
  refine ⟨hids ▸ h.tagIds, fun row hmemRow hlive p hp => ?_, fun user' => ?_,
    fun assignment hassignment => ?_, h.assigned, h.nested, h.documents, h.placed,
    fun user' documentId' =>
      ⟨fun hnew => (h.apart user' documentId').1 (hfiled.mp hnew), (h.apart user' documentId').2⟩⟩
  · rw [hown]
    obtain rfl | ⟨hold, -⟩ := hmem hmemRow
    · rw [huser]
      exact (hparent p hp).1
    · exact h.parents row hold hlive p hp
  · have hedge : ∀ a b, above (putTag tag' s) user' a = some b → above s user' a = some b ∧
        a ≠ tag.id ∨ a = tag.id ∧ tag'.parentId = some b ∧ user' = tag.userId := fun a b hab => by
      obtain ⟨row, hfind, hrest⟩ := Option.bind_eq_some_iff.mp hab
      obtain ⟨hmemRow, rfl, rfl, hlive⟩ := tag?_eq_some hfind
      obtain rfl | ⟨hold, hother⟩ := hmem hmemRow
      · exact .inr ⟨hid, hrest, huser⟩
      · exact .inl ⟨(above_eq_some h).mpr ⟨row, hold, rfl, rfl, hlive, hrest⟩, hother⟩
    by_cases hsame : user' = tag.userId
    · subst hsame
      exact (h.folders _).move tag.id tag'.parentId (fun r hr => (hparent r hr).2) fun a b hab =>
        (hedge a b hab).imp_right fun hnew => ⟨hnew.1, hnew.2.1⟩
    · exact (h.folders user').mono fun a b hab => (hedge a b hab).elim (·.1) fun hnew => absurd hnew.2.2 hsame
  · obtain ⟨owner, howner⟩ := h.filed assignment hassignment
    exact ⟨owner, (hown owner).symm ▸ howner⟩

/-- What a deletion leaves. -/
def pruned (s : State) (user : UserId) (branch : List TagId) (affected : List DocumentId) : State :=
  {s with
    assignments := s.assignments.filter fun assignment =>
      !(assignment.documentId ∈ affected && assignment.tagId ∈ ownTags s user)
    tags := s.tags.map fun tag => if tag.id ∈ branch then {tag with deleted := true} else tag}

/-- The folders left are those that are not of the branch. -/
theorem ownTags_pruned {branch : List TagId} {affected : List DocumentId} {user' : UserId} {id : TagId} :
    id ∈ ownTags (pruned s user branch affected) user' ↔ id ∈ ownTags s user' ∧ id ∉ branch := by
  rw [mem_ownTags, mem_ownTags]
  constructor
  · rintro ⟨row, hrow, rfl, rfl, hlive⟩
    obtain ⟨tag, htag, rfl⟩ := List.mem_map.mp hrow
    split at hlive
    case isTrue => cases hlive
    case isFalse hkept =>
      rw [if_neg hkept]
      exact ⟨⟨tag, htag, rfl, rfl, hlive⟩, hkept⟩
  · rintro ⟨⟨tag, htag, rfl, rfl, hlive⟩, hkept⟩
    exact ⟨tag, List.mem_map.mpr ⟨tag, htag, if_neg hkept⟩, rfl, rfl, hlive⟩

/-- What is above a folder of the user's is the user's. -/
theorem own_of_atOrAbove (h : Sound s) {id tagId : TagId} (hown : tagId ∈ ownTags s user)
    (hway : AtOrAbove (above s user) id tagId) : id ∈ ownTags s user := by
  obtain rfl | ⟨c, hc, -⟩ := Relation.ReflTransGen.cases_head hway
  · exact hown
  · exact (h.above_own hc).1

/-- The other folders are the same rows. -/
theorem mem_pruned {branch : List TagId} {affected : List DocumentId} {tag : Tag} (hkept : tag.id ∉ branch) :
    tag ∈ (pruned s user branch affected).tags ↔ tag ∈ s.tags := by
  rw [pruned, List.mem_map]
  constructor
  · rintro ⟨row, hrow, rfl⟩
    split at hkept
    case isTrue hgone => exact absurd hgone hkept
    case isFalse hother => rwa [if_neg hother]
  · intro hmem
    exact ⟨tag, hmem, if_neg hkept⟩

/-- A folder is deleted with all that is below it, and no document stays in what is deleted. -/
theorem pruned_sound (h : Sound s) {tagId : TagId} {branch : List TagId}
    {affected : List DocumentId} (hbranch : ∀ id, id ∈ branch ↔ AtOrAbove (above s user) id tagId)
    (hown : tagId ∈ ownTags s user) (haffected : ∀ assignment ∈ s.assignments,
      assignment.tagId ∈ branch → assignment.documentId ∈ affected) :
    Sound (pruned s user branch affected) := by
  have hbranchOwn : ∀ id ∈ branch, id ∈ ownTags s user := fun id hmem => own_of_atOrAbove h hown ((hbranch id).mp hmem)
  have hids : (pruned s user branch affected).tags.map (·.id) = s.tags.map (·.id) := by
    rw [pruned, List.map_map]
    refine List.map_congr_left fun tag _ => ?_
    rw [Function.comp_apply]
    split <;> rfl
  have hlive : ∀ row ∈ (pruned s user branch affected).tags, row.deleted = false → row ∈ s.tags ∧
      row.id ∉ branch := fun row hrow hlive => by
    obtain ⟨tag, htag, rfl⟩ := List.mem_map.mp hrow
    split at hlive
    case isTrue => cases hlive
    case isFalse hkept =>
      rw [if_neg hkept]
      exact ⟨htag, hkept⟩
  have hsub : (pruned s user branch affected).assignments.Sublist s.assignments := List.filter_sublist
  refine ⟨hids ▸ h.tagIds, fun row hrow hrowLive p hp => ?_,
    fun user' => (h.folders user').mono fun a b hab => ?_, fun assignment hassignment => ?_,
    h.assigned.sublist (hsub.map _), h.nested, h.documents, h.placed, fun user' documentId' =>
      ⟨fun hnew => (h.apart user' documentId').1 ?_, (h.apart user' documentId').2⟩⟩
  · obtain ⟨htag, hkept⟩ := hlive row hrow hrowLive
    have hparentOwn := h.parents row htag hrowLive p hp
    refine ownTags_pruned.mpr ⟨hparentOwn, fun hgone => hkept ((hbranch row.id).mpr (.head ?_ ((hbranch p).mp hgone)))⟩
    exact (above_eq_some h).mpr ⟨row, htag, rfl, h.owner hparentOwn (hbranchOwn p hgone), hrowLive, hp⟩
  · obtain ⟨row, hfind, hrest⟩ := Option.bind_eq_some_iff.mp hab
    obtain ⟨hrow, rfl, rfl, hrowLive⟩ := tag?_eq_some hfind
    exact (above_eq_some h).mpr ⟨row, (hlive row hrow hrowLive).1, rfl, rfl, hrowLive, hrest⟩
  · obtain ⟨hold, hkept⟩ := List.mem_filter.mp hassignment
    obtain ⟨owner, howner⟩ := h.filed assignment hold
    refine ⟨owner, ownTags_pruned.mpr ⟨howner, fun hgone => ?_⟩⟩
    simp [haffected assignment hold hgone, hbranchOwn _ hgone] at hkept
  · obtain ⟨assignment, hassignment, hid, hownNew⟩ := hnew
    exact ⟨assignment, hsub.subset hassignment, hid, (ownTags_pruned.mp hownNew).1⟩

/-- The loop over the branch ends, and finds what is at or below the folder. -/
theorem removeTag_eq (h : Sound s) {tagId : TagId} (hown : tagId ∈ ownTags s user) (confirmed : Bool) :
    ∃ branch, branch.Nodup ∧ (∀ id, id ∈ branch ↔ AtOrAbove (above s user) id tagId) ∧
      removeTag s user tagId confirmed = some (
        let affected := ((s.assignments.filter (·.tagId ∈ branch)).map (·.documentId)).dedup
        if !confirmed && (decide (1 < branch.length) || decide (0 < affected.length))
          then .ok (s, ⟨false, branch.length, affected.length⟩)
        else .ok (pruned s user branch affected, ⟨true, branch.length, affected.length⟩)) := by
  obtain ⟨branch, hbelow, hnodup, hbranch⟩ := below_spec (fun _ _ hup => (h.above_own hup).1)
    (nodup_ownTags h user) (length_ownTags s user) hown
  refine ⟨branch, hnodup, hbranch, ?_⟩
  obtain ⟨tag, htag, rfl, rfl, hlive⟩ := mem_ownTags.mp hown
  rw [removeTag, requireTag, h.tag? htag hlive, hbelow]
  rfl

theorem requireTag_eq_ok {id : TagId} {tag : Tag} : requireTag s user id = .ok tag ↔ tag? s user id = some tag := by
  rw [requireTag]
  cases tag? s user id <;> simp

/-- A folder that is required is the user's. -/
theorem own_of_requireTag {id : TagId} {tag : Tag} (h : requireTag s user id = .ok tag) : id ∈ ownTags s user := by
  obtain ⟨htag, hid, huser, hlive⟩ := tag?_eq_some (requireTag_eq_ok.mp h)
  exact mem_ownTags.mpr ⟨tag, htag, hid, huser, hlive⟩

/-! ### Edits -/

theorem ensure_eq_ok {condition : Bool} {refusal : Refusal} {u : Unit} :
    ensure condition refusal = .ok u ↔ condition = true := by
  rw [ensure]
  split <;> simp_all

/-- Positions are all that a numbering changes. -/
theorem bare_numberChildren (parentId : Option TagId) (order : List Node) (s : State) :
    bare (numberChildren parentId order s) = bare s := by
  have htags : (s.tags.map fun tag => if .tag tag.id ∈ order
      then {tag with position := positionIn order (.tag tag.id)} else tag).map
      (fun tag => {tag with position := 0}) =
      s.tags.map fun tag => {tag with position := 0} := by
    rw [List.map_map]
    refine List.map_congr_left fun tag _ => ?_
    rw [Function.comp_apply]
    split <;> rfl
  have hassignments : (s.assignments.map fun assignment => if some assignment.tagId = parentId ∧
      .document assignment.documentId ∈ order
      then {assignment with position := positionIn order (.document assignment.documentId)}
        else assignment).map (fun assignment => {assignment with position := 0}) =
      s.assignments.map fun assignment => {assignment with position := 0} := by
    rw [List.map_map]
    refine List.map_congr_left fun assignment _ => ?_
    rw [Function.comp_apply]
    split <;> rfl
  rw [bare, bare, numberChildren, htags, hassignments]

theorem bare_numberNested (user : UserId) (parentId : DocumentId) (order : List Node) (s : State) :
    bare (numberNested user parentId order s) = bare s := by
  have hnestings : (s.nestings.map fun nesting => if nesting.userId = user ∧
      nesting.parentDocumentId = parentId ∧ .document nesting.documentId ∈ order
      then {nesting with position := positionIn order (.document nesting.documentId)}
        else nesting).map (fun nesting => {nesting with position := 0}) =
      s.nestings.map fun nesting => {nesting with position := 0} := by
    rw [List.map_map]
    refine List.map_congr_left fun nesting _ => ?_
    rw [Function.comp_apply]
    split <;> rfl
  rw [bare, bare, numberNested, hnestings]

/-- Documents get a place in the list, away from the root. -/
theorem list_sound (h : Sound s) {rows : List Placement}
    (hrows : (rows.map fun placement => (placement.userId, placement.documentId)).Nodup)
    (hroot : ∀ row ∈ rows, row.atRoot = false)
    (hfresh : ∀ row ∈ rows, (placement? s row.userId row.documentId).isNone) :
    Sound {s with placements := s.placements ++ rows} := by
  refine ⟨h.tagIds, h.parents, h.folders, h.filed, h.assigned, h.nested, h.documents, ?_, fun user' documentId' => ?_⟩
  · show ((s.placements ++ rows).map _).Nodup
    rw [List.map_append, List.nodup_append]
    refine ⟨h.placed, hrows, ?_⟩
    rintro key hold _ hnew rfl
    obtain ⟨placement, hmem, rfl⟩ := List.mem_map.mp hold
    obtain ⟨row, hrow, hkey⟩ := List.mem_map.mp hnew
    obtain ⟨huser, hid⟩ := Prod.mk.inj hkey
    have hsome := placement?_isSome.mpr ⟨placement, hmem, huser.symm, hid.symm⟩
    rw [Option.isNone_iff_eq_none.mp (hfresh row hrow)] at hsome
    cases hsome
  · have hplaced : AtRoot {s with placements := s.placements ++ rows} user' documentId' →
        AtRoot s user' documentId' := by
      rintro ⟨placement, hmem, huser, hid, hset⟩
      obtain hold | hnew := List.mem_append.mp hmem
      · exact ⟨placement, hold, huser, hid, hset⟩
      · rw [hroot placement hnew] at hset
        cases hset
    exact ⟨fun hfiled => ⟨((h.apart user' documentId').1 hfiled).1,
      fun hset => ((h.apart user' documentId').1 hfiled).2 (hplaced hset)⟩,
      fun hnested hset => (h.apart user' documentId').2 hnested (hplaced hset)⟩

theorem mem_documents {order : List Node} {id : DocumentId} :
    id ∈ order.filterMap (·.document?) ↔ .document id ∈ order := by
  rw [List.mem_filterMap]
  constructor
  · rintro ⟨node, hnode, hid⟩
    cases node with
    | tag => cases hid
    | document => exact Option.some.inj hid ▸ hnode
  · exact fun hmem => ⟨.document id, hmem, rfl⟩

theorem nodup_documents {order : List Node} (h : order.Nodup) : (order.filterMap (·.document?)).Nodup := by
  refine h.filterMap fun node node' id hid hid' => ?_
  cases node with
  | tag => cases hid
  | document =>
    cases node' with
    | tag => cases hid'
    | document => exact congrArg Node.document (Option.some.inj hid |>.trans (Option.some.inj hid').symm)

/-- Numbering the list of all documents keeps the tree sound. -/
theorem numberList_sound (h : Sound s) (user : UserId) {order : List Node} (horder : order.Nodup) :
    Sound (numberList user order s) := by
  have hmapped : (s.placements.map fun placement => if placement.userId = user ∧ .document placement.documentId ∈ order
      then {placement with position := positionIn order (.document placement.documentId)}
        else placement).map (fun placement => {placement with position := 0}) =
      s.placements.map fun placement => {placement with position := 0} := by
    rw [List.map_map]
    refine List.map_congr_left fun placement _ => ?_
    rw [Function.comp_apply]
    split <;> rfl
  have hrenumbered : Sound {s with placements := s.placements.map fun placement =>
      if placement.userId = user ∧ .document placement.documentId ∈ order
      then {placement with position := positionIn order (.document placement.documentId)} else placement} := by
    refine h.renumber ?_
    rw [bare, bare, hmapped]
  refine list_sound hrenumbered ?_ ?_ ?_
  · rw [List.map_map]
    exact ((nodup_documents horder).filter _).map fun a b hab => (Prod.mk.inj hab).2
  · intro row hrow
    obtain ⟨id, -, rfl⟩ := List.mem_map.mp hrow
    rfl
  · intro row hrow
    obtain ⟨id, hid, rfl⟩ := List.mem_map.mp hrow
    have hnone := (List.mem_filter.mp hid).2
    rw [Option.isNone_iff_eq_none, placement?, List.find?_eq_none] at hnone ⊢
    intro placement hmem
    obtain ⟨old, hold, rfl⟩ := List.mem_map.mp hmem
    have hother := hnone old hold
    split <;> exact hother

/-- Taking a document from the root keeps the tree sound. -/
theorem leaveRoot_sound (h : Sound s) (user : UserId) (documentId : DocumentId) :
    Sound (setRootPlacement user documentId false s) :=
  setRootPlacement_sound h fun hset => absurd hset Bool.false_ne_true

/-- A document that is cleared of its other places. -/
structure Free (s : State) (user : UserId) (documentId : DocumentId) : Prop where
  filed : ¬Filed s user documentId
  nested : ¬Nested s user documentId
  atRoot : ¬AtRoot s user documentId

theorem setRootPlacement_assignments (user : UserId) (documentId : DocumentId) (atRoot : Bool)
    (assignments : List Assignment) (s : State) :
    setRootPlacement user documentId atRoot {s with assignments} =
        {setRootPlacement user documentId atRoot s with assignments} := by
  by_cases hsome : (placement? s user documentId).isSome = true
  · rw [setRootPlacement, setRootPlacement, if_pos hsome,
      if_pos (show (placement? {s with assignments} user documentId).isSome = true from hsome)]
  · rw [setRootPlacement, setRootPlacement, if_neg hsome,
      if_neg (show ¬(placement? {s with assignments} user documentId).isSome = true from hsome)]
    cases atRoot <;> rfl

theorem unassign_setRootPlacement (user : UserId) (documentId : DocumentId) (atRoot : Bool) (s : State) :
    unassign user documentId (setRootPlacement user documentId atRoot s) =
        setRootPlacement user documentId atRoot (unassign user documentId s) := by
  obtain ⟨placements, hrows⟩ := setRootPlacement_rows user documentId atRoot s
  have hown : ownTags (setRootPlacement user documentId atRoot s) user = ownTags s user := by
    rw [hrows]
    rfl
  have hassignments : (setRootPlacement user documentId atRoot s).assignments = s.assignments := by rw [hrows]
  have hright :=
      setRootPlacement_assignments user documentId atRoot (s.assignments.filter fun assignment =>
      !(assignment.documentId = documentId && assignment.tagId ∈ ownTags s user)) s
  refine Eq.trans ?_ hright.symm
  rw [unassign, hown, hassignments]

/-- The edits that give a document a place begin so. -/
theorem cleared_sound (h : Sound s) (user : UserId) (documentId : DocumentId) :
    Sound (setRootPlacement user documentId false (unassign user documentId (clearParent user documentId s))) ∧
      Free (setRootPlacement user documentId false
          (unassign user documentId (clearParent user documentId s))) user documentId := by
  have hcleared := unassign_sound (clearParent_sound h user documentId) user documentId
  have hsound := leaveRoot_sound hcleared user documentId
  have hroot := not_atRoot_setRootPlacement (unassign user documentId (clearParent user documentId s)) user documentId
  obtain ⟨placements, hrows⟩ := setRootPlacement_rows user documentId false
    (unassign user documentId (clearParent user documentId s))
  rw [hrows] at hsound hroot ⊢
  exact ⟨hsound, not_filed_unassign (clearParent user documentId s) user documentId,
    not_nested_clearParent s user documentId, hroot⟩

/-- A document without a place goes into a folder. -/
theorem file_sound (h : Sound s) {tagId : TagId} (position : Nat) (hown : tagId ∈ ownTags s user)
    (hfree : Free s user documentId) :
    Sound {s with assignments := s.assignments ++ [⟨tagId, documentId, position⟩]} :=
  assign_sound h position hown (fun assignment hmem htag hid =>
    hfree.filed ⟨assignment, hmem, hid, htag ▸ hown⟩) hfree.nested hfree.atRoot

theorem found_of_mapM {id : TagId} {tag : Option Tag} (h : (some id).mapM (requireTag s user) =
    .ok tag) : ∃ found, requireTag s user id = .ok found ∧ tag = some found := by
  cases hrequired : requireTag s user id with
  | error refusal => simp [hrequired] at h
  | ok found => exact ⟨found, rfl, by simpa [hrequired] using h.symm⟩

/-- A destination that is accepted is the user's. -/
theorem own_of_mapM {tagId : Option TagId} {tag : Option Tag} (h : tagId.mapM (requireTag s user) =
    .ok tag) : ∀ id, tagId = some id → id ∈ ownTags s user := by
  rintro id rfl
  obtain ⟨found, hfound, -⟩ := found_of_mapM h
  exact own_of_requireTag hfound

/-- An accepted move keeps the tree sound. -/
theorem moveDocument_sound (h : Sound s) {access : DocumentId → Bool} {tagId : Option TagId} {atRoot : Bool}
    (hok : moveDocument s user access documentId tagId atRoot = .ok t) : Sound t := by
  simp only [moveDocument, Results.bind_eq_ok, ensure_eq_ok, Results.pure_eq_ok] at hok
  obtain ⟨-, hroot, tag, htag, -, -, rfl⟩ := hok
  cases tagId with
  | none =>
    refine setRootPlacement_sound
      (unassign_sound (clearParent_sound h user documentId) user documentId) fun _ => ⟨?_, ?_⟩
    · exact not_filed_unassign (clearParent user documentId s) user documentId
    · exact not_nested_clearParent s user documentId
  | some id =>
    have hroot : atRoot = false := by simpa using hroot
    obtain ⟨hsound, hfree⟩ := cleared_sound h user documentId
    rw [hroot, Option.elim_some, assign, setRootPlacement_assignments]
    obtain ⟨placements, hrows⟩ := setRootPlacement_rows user documentId false
      (unassign user documentId (clearParent user documentId s))
    rw [hrows] at hsound hfree ⊢
    exact file_sound hsound _ (own_of_mapM htag id rfl) hfree

/-- Filing a document keeps the tree sound, and so does taking it out of a folder. -/
theorem assignTag_sound (h : Sound s) {access : DocumentId → Bool} {tagId : TagId} {remove : Bool}
    (hok : assignTag s user access documentId tagId remove = .ok t) : Sound t := by
  simp only [assignTag, Results.bind_eq_ok, ensure_eq_ok] at hok
  obtain ⟨tag, htag, -, -, hok⟩ := hok
  split at hok
  · obtain rfl := Results.pure_eq_ok.mp hok
    have hsub : (s.assignments.filter fun assignment => !(assignment.tagId = tagId &&
        assignment.documentId = documentId)).Sublist s.assignments := List.filter_sublist
    refine ⟨h.tagIds, h.parents, h.folders, fun assignment hmem => h.filed assignment
      (hsub.subset hmem), h.assigned.sublist (hsub.map _), h.nested, h.documents, h.placed,
      fun user' documentId' => ⟨fun hfiled => (h.apart user' documentId').1 ?_, (h.apart user' documentId').2⟩⟩
    obtain ⟨assignment, hmem, hrest⟩ := hfiled
    exact ⟨assignment, hsub.subset hmem, hrest⟩
  · obtain rfl := Results.pure_eq_ok.mp hok
    have hcleared := clearParent_sound h user documentId
    have hsound := leaveRoot_sound hcleared user documentId
    split
    · exact hsound
    case isFalse hnone =>
      have hroot := not_atRoot_setRootPlacement (clearParent user documentId s) user documentId
      rw [assign, setRootPlacement_assignments]
      obtain ⟨placements, hrows⟩ := setRootPlacement_rows user documentId false (clearParent user documentId s)
      rw [hrows] at hsound hroot ⊢
      refine assign_sound hsound _ (own_of_requireTag htag)
        (fun assignment hmem hsame hid => hnone ?_) (not_nested_clearParent s user documentId) hroot
      exact List.any_eq_true.mpr ⟨assignment, hmem, by simp [hsame, hid]⟩

/-- The loop of writing a folder ends, and the tree is kept sound. -/
theorem writeTag_spec (h : Sound s) (user : UserId) (data : TagWrite) {tagId : Option TagId}
    {fresh : TagId} (hfresh : tagId = none → ∀ tag ∈ s.tags, tag.id ≠ fresh) :
    ∃ result, writeTag s user data tagId fresh = some result ∧ ∀ t, result = .ok t → Sound t := by
  rw [writeTag]
  cases htag : tagId.mapM (requireTag s user) with
  | error refusal => exact ⟨.error refusal, rfl, fun t ht => by cases ht⟩
  | ok tag =>
    obtain ⟨checked, hchecked, hspec⟩ :=
      checkAncestors_spec h user tagId "A tag cannot be placed inside itself" data.parentId
    rw [hchecked]
    refine ⟨_, rfl, fun t ht => ?_⟩
    obtain ⟨_, rfl, rfl⟩ := Results.map_eq_ok.mp ht
    have hallowed := hspec.mp rfl
    cases tagId with
    | none =>
      obtain rfl := Results.pure_eq_ok.mp htag
      exact addTag_sound h data.name _ (hfresh rfl) fun p hp => (hallowed p hp).1
    | some id =>
      obtain ⟨found, hfound, rfl⟩ := found_of_mapM htag
      obtain ⟨hmem, rfl, rfl, -⟩ := tag?_eq_some (requireTag_eq_ok.mp hfound)
      exact putTag_sound h hmem rfl rfl rfl fun p hp => ⟨(hallowed p hp).1, (hallowed p hp).2 found.id rfl⟩

/-- The loop of removing a folder ends, and the tree is kept sound. -/
theorem removeTag_sound (h : Sound s) (user : UserId) (tagId : TagId) (confirmed : Bool) :
    ∃ result, removeTag s user tagId confirmed = some result ∧ ∀ t deletion, result = .ok (t, deletion) → Sound t := by
  cases hrequired : requireTag s user tagId with
  | error refusal => exact ⟨.error refusal, by rw [removeTag, hrequired], fun t deletion ht => by cases ht⟩
  | ok tag =>
    have hown := own_of_requireTag hrequired
    obtain ⟨branch, -, hbranch, hresult⟩ := removeTag_eq h hown confirmed
    refine ⟨_, hresult, fun t deletion ht => ?_⟩
    dsimp only at ht
    split at ht
    · obtain rfl := (Prod.mk.inj (Except.ok.inj ht)).1
      exact h
    · obtain rfl := (Prod.mk.inj (Except.ok.inj ht)).1
      refine pruned_sound h hbranch hown fun assignment hmem hgone => ?_
      rw [List.mem_dedup]
      exact List.mem_map_of_mem (List.mem_filter.mpr ⟨hmem, decide_eq_true hgone⟩)

/-- The loop over the documents above ends, and a document may go under one that is not at or below it. -/
theorem validateParent_spec (h : Sound s) (user : UserId) (access : DocumentId → Bool)
    (documentId parentId : DocumentId) :
    ∃ checked, validateParent s user access documentId parentId = some checked ∧
      (checked = .ok () ↔ (access documentId = true ∧ access parentId = true) ∧
        ¬AtOrAbove (parentOf s user) parentId documentId) := by
  have hplaces : ∀ a b, parentOf s user a = some b → b ∈ s.nestings.map (·.parentDocumentId) := fun a b hab => by
    obtain ⟨nesting, hmem, -, -, rfl⟩ := (parentOf_eq_some h.nested).mp hab
    exact List.mem_map_of_mem hmem
  have hlong : (s.nestings.map (·.parentDocumentId)).length < s.nestings.length + 1 := by
    rw [List.length_map]
    exact Nat.lt_succ_self _
  rw [validateParent]
  split
  case isTrue hdenied =>
    refine ⟨_, rfl, iff_of_false (by simp) fun hboth => ?_⟩
    simp [hboth.1.1, hboth.1.2] at hdenied
  case isFalse hadmitted =>
    have haccess : access documentId = true ∧ access parentId = true := by simpa using hadmitted
    obtain ⟨hends, hnot⟩ | ⟨hends, hway⟩ := climbSeen_spec (h.documents user) hplaces hlong documentId parentId
    · rw [hends]
      exact ⟨_, rfl, iff_of_true rfl ⟨haccess, hnot⟩⟩
    · rw [hends]
      exact ⟨_, rfl, iff_of_false (by simp) fun hboth => hboth.2 hway⟩

end Runs
end Galaris.Document.PersonalTree
