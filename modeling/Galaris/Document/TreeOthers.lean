import Galaris.Document.TreeOrder

/-! An edit leaves the rows of the other users as they are (`perform_untouched`). -/
namespace Galaris.Document.PersonalTree

open Transition Ancestry

section Runs
variable {s t : State} {user : UserId} {documentId : DocumentId}
variable {access : DocumentId → Bool} {readable : List DocumentId} {rank : Node → Nat} {move : Move}

/-- The tags, placements and nestings of a user are the same rows, and so are the documents in their folders. -/
structure Untouched (user : UserId) (s t : State) : Prop where
  tags : ∀ tag : Tag, tag.userId = user → (tag ∈ t.tags ↔ tag ∈ s.tags)
  assignments : ∀ assignment : Assignment, assignment.tagId ∈ ownTags s user →
    (assignment ∈ t.assignments ↔ assignment ∈ s.assignments)
  nestings : ∀ nesting : Nesting, nesting.userId = user → (nesting ∈ t.nestings ↔ nesting ∈ s.nestings)
  placements : ∀ placement : Placement, placement.userId = user → (placement ∈ t.placements ↔ placement ∈ s.placements)

theorem Untouched.refl (user : UserId) (s : State) : Untouched user s s :=
    ⟨fun _ _ => .rfl, fun _ _ => .rfl, fun _ _ => .rfl, fun _ _ => .rfl⟩

theorem Untouched.own (h : Untouched user s t) {id : TagId} : id ∈ ownTags t user ↔ id ∈ ownTags s user := by
  rw [mem_ownTags, mem_ownTags]
  exact exists_congr fun tag => ⟨fun ⟨htag, hid, huser, hlive⟩ => ⟨(h.tags tag huser).mp htag, hid, huser, hlive⟩,
    fun ⟨htag, hid, huser, hlive⟩ => ⟨(h.tags tag huser).mpr htag, hid, huser, hlive⟩⟩

theorem Untouched.trans {u : State} (h : Untouched user s t) (h' : Untouched user t u) : Untouched user s u where
  tags tag huser := (h'.tags tag huser).trans (h.tags tag huser)
  assignments assignment hown := (h'.assignments assignment (h.own.mpr hown)).trans (h.assignments assignment hown)
  nestings nesting huser := (h'.nestings nesting huser).trans (h.nestings nesting huser)
  placements placement huser := (h'.placements placement huser).trans (h.placements placement huser)

theorem mem_map_ite {α : Type} {rows : List α} {touched : α → Prop} [DecidablePred touched] {f : α → α} {row : α}
    (h : ∀ old ∈ rows, touched old → old ≠ row ∧ f old ≠ row) :
    row ∈ (rows.map fun old => if touched old then f old else old) ↔ row ∈ rows := by
  rw [List.mem_map]
  constructor
  · rintro ⟨old, hold, hnew⟩
    split at hnew
    case isTrue htouched => exact absurd hnew (h old hold htouched).2
    case isFalse => exact hnew ▸ hold
  · exact fun hmem => ⟨row, hmem, if_neg fun htouched => (h row hmem htouched).1 rfl⟩

section Others
variable {other : UserId} (hother : other ≠ user)
include hother

theorem clearParent_untouched (documentId : DocumentId) (s : State) :
    Untouched other s (clearParent user documentId s) where
  tags _ _ := .rfl
  assignments _ _ := .rfl
  nestings nesting huser := by
    have hne : nesting.userId ≠ user := huser ▸ hother
    rw [clearParent, List.mem_filter]
    simp [hne]
  placements _ _ := .rfl

theorem unassign_untouched (h : Sound s) (documentId : DocumentId) :
    Untouched other s (unassign user documentId s) where
  tags _ _ := .rfl
  assignments assignment hown := by
    have hne : assignment.tagId ∉ ownTags s user := fun hmem => hother (h.owner hown hmem)
    rw [unassign, List.mem_filter]
    simp [hne]
  nestings _ _ := .rfl
  placements _ _ := .rfl

theorem setRootPlacement_untouched (documentId : DocumentId) (atRoot : Bool) (s : State) :
    Untouched other s (setRootPlacement user documentId atRoot s) := by
  have hplacements : ∀ placement : Placement, placement.userId = other → (placement ∈
      (setRootPlacement user documentId atRoot s).placements ↔ placement ∈ s.placements) := by
    intro placement huser
    have hne : placement.userId ≠ user := huser ▸ hother
    rw [setRootPlacement]
    split
    · exact mem_map_ite fun old _ hsame => ⟨fun heq => hne (heq ▸ hsame.1), fun heq => hne (heq ▸ hsame.1)⟩
    · split
      · rw [List.mem_append, List.mem_singleton]
        refine or_iff_left fun hnew => hne ?_
        rw [hnew]
      · rfl
  obtain ⟨placements, hrows⟩ := setRootPlacement_rows user documentId atRoot s
  rw [hrows] at hplacements ⊢
  exact ⟨fun _ _ => .rfl, fun _ _ => .rfl, fun _ _ => .rfl, hplacements⟩

theorem file_untouched (h : Sound s) {tagId : TagId} (hown : tagId ∈ ownTags s user)
    (documentId : DocumentId) (position : Nat) :
    Untouched other s {s with assignments := s.assignments ++ [⟨tagId, documentId, position⟩]} where
  tags _ _ := .rfl
  assignments assignment hmem := by
    rw [List.mem_append, List.mem_singleton]
    refine or_iff_left fun hnew => hother (h.owner hmem ?_)
    rw [hnew]
    exact hown
  nestings _ _ := .rfl
  placements _ _ := .rfl

theorem nest_untouched (documentId parentId : DocumentId) (s : State) :
    Untouched other s {s with nestings := s.nestings ++ [{userId := user, documentId, parentDocumentId := parentId}]} where
  tags _ _ := .rfl
  assignments _ _ := .rfl
  nestings nesting huser := by
    rw [List.mem_append, List.mem_singleton]
    refine or_iff_left fun hnew => hother (huser.symm.trans ?_)
    rw [hnew]
  placements _ _ := .rfl

theorem addTag_untouched (s : State) (fresh : TagId) (parentId : Option TagId) (name : String) (position : Nat) :
    Untouched other s {s with tags := s.tags ++ [{id := fresh, userId := user, parentId, name, position}]} where
  tags tag huser := by
    rw [List.mem_append, List.mem_singleton]
    refine or_iff_left fun hnew => hother (huser.symm.trans ?_)
    rw [hnew]
  assignments _ _ := .rfl
  nestings _ _ := .rfl
  placements _ _ := .rfl

theorem putTag_untouched (h : Sound s) {tag tag' : Tag} (htag : tag ∈ s.tags)
    (hid : tag'.id = tag.id) (huser : tag.userId = user) (huser' : tag'.userId = user) :
    Untouched other s (putTag tag' s) where
  tags row hrow := by
    refine mem_map_ite fun old hold hsame => ?_
    obtain rfl := h.eq_of_id hold htag (hsame.trans hid)
    exact ⟨fun heq => hother (hrow.symm.trans (heq ▸ huser)), fun heq => hother (hrow.symm.trans (heq ▸ huser'))⟩
  assignments _ _ := .rfl
  nestings _ _ := .rfl
  placements _ _ := .rfl

theorem pruned_untouched (h : Sound s) {branch : List TagId} (affected : List DocumentId)
    (hbranch : ∀ id ∈ branch, id ∈ ownTags s user) :
    Untouched other s (pruned s user branch affected) where
  tags row hrow := by
    refine mem_map_ite fun old hold hgone => ?_
    have holdUser : old.userId = user := by
      obtain ⟨tag, htag, hid, huser, -⟩ := mem_ownTags.mp (hbranch old.id hgone)
      exact h.eq_of_id htag hold hid ▸ huser
    exact ⟨fun heq => hother (hrow.symm.trans (heq ▸ holdUser)), fun heq => hother (hrow.symm.trans (heq ▸ holdUser))⟩
  assignments assignment hown := by
    have hne : assignment.tagId ∉ ownTags s user := fun hmem => hother (h.owner hown hmem)
    rw [pruned, List.mem_filter]
    simp [hne]
  nestings _ _ := .rfl
  placements _ _ := .rfl

theorem numberChildren_untouched (h : Sound s) {parentId : Option TagId} {order : List Node}
    (htags : ∀ id, .tag id ∈ order → id ∈ ownTags s user)
    (hparent : ∀ p, parentId = some p → p ∈ ownTags s user) : Untouched other s (numberChildren parentId order s) where
  tags row hrow := by
    refine mem_map_ite fun old hold hmoved => ?_
    have holdUser : old.userId = user := by
      obtain ⟨tag, htag, hid, huser, -⟩ := mem_ownTags.mp (htags old.id hmoved)
      exact h.eq_of_id htag hold hid ▸ huser
    exact ⟨fun heq => hother (hrow.symm.trans (heq ▸ holdUser)), fun heq => hother (hrow.symm.trans (heq ▸ holdUser))⟩
  assignments assignment hown := by
    refine mem_map_ite fun old _ hmoved => ?_
    have holdOwn := hparent old.tagId hmoved.1.symm
    exact ⟨fun heq => hother (h.owner hown (heq ▸ holdOwn)), fun heq => hother (h.owner hown (heq ▸ holdOwn))⟩
  nestings _ _ := .rfl
  placements _ _ := .rfl

theorem numberList_untouched (order : List Node) (s : State) : Untouched other s (numberList user order s) where
  tags _ _ := .rfl
  assignments _ _ := .rfl
  nestings _ _ := .rfl
  placements placement huser := by
    have hrenumbered : placement ∈ (s.placements.map fun old => if old.userId = user ∧ .document old.documentId ∈ order
        then {old with position := positionIn order (.document old.documentId)} else old) ↔ placement ∈ s.placements :=
      mem_map_ite fun old _ hmoved => ⟨fun heq => hother (huser.symm.trans (heq ▸ hmoved.1)),
        fun heq => hother (huser.symm.trans (heq ▸ hmoved.1))⟩
    rw [numberList, List.mem_append, hrenumbered]
    refine or_iff_left fun hnew => ?_
    obtain ⟨id, -, rfl⟩ := List.mem_map.mp hnew
    exact hother huser.symm

theorem numberNested_untouched (parentId : DocumentId) (order : List Node) (s : State) :
    Untouched other s (numberNested user parentId order s) where
  tags _ _ := .rfl
  assignments _ _ := .rfl
  nestings _ huser :=
    mem_map_ite fun _ _ hmoved => ⟨fun heq => hother (huser.symm.trans (heq ▸ hmoved.1)),
      fun heq => hother (huser.symm.trans (heq ▸ hmoved.1))⟩
  placements _ _ := .rfl

/-- The edits that give a document a place begin so. -/
theorem cleared_untouched (h : Sound s) (documentId : DocumentId) :
    Untouched other s (unassign user documentId
        (setRootPlacement user documentId false (clearParent user documentId s))) := by
  have hcleared := clearParent_sound h user documentId
  have hsound := leaveRoot_sound hcleared user documentId
  exact ((clearParent_untouched hother documentId s).trans (setRootPlacement_untouched hother
    documentId false _)).trans (unassign_untouched hother hsound documentId)

end Others

theorem tags_of_order {parentId : Option TagId} {rank : Node → Nat} {node : Node} {l r : List Node}
    (hsiblings : sorted rank ((children s user parentId).filter (·.1 ≠ node)) = l ++ r)
    (hnode : ∀ id, node = .tag id → id ∈ ownTags s user) :
    ∀ id, .tag id ∈ foldersFirst (l ++ node :: r) → id ∈ ownTags s user := by
  intro id hmem
  obtain hsame | hrest := List.mem_cons.mp ((order_perm hsiblings).subset ((foldersFirst_perm _).subset hmem))
  · exact hnode id hsame.symm
  · obtain ⟨row, hrow, hid⟩ := List.mem_map.mp hrest
    obtain ⟨tag, htag, huser, hlive, -, htagId⟩ | ⟨assignment, -, -, hdocument⟩ :=
      mem_childNodes.mp (List.mem_map_of_mem (List.mem_of_mem_filter hrow))
    · exact mem_ownTags.mpr ⟨tag, htag, (Node.tag.inj (hid.symm.trans htagId)).symm, huser, hlive⟩
    · cases hid.symm.trans hdocument

section Edits
variable {other : UserId} (hother : other ≠ user)
include hother

theorem place_untouched (h : Sound s) (hallowed : ∀ p, move.parentId = some p → p ∈ ownTags s user ∧
    ∀ id', move.node.tag? = some id' → ¬AtOrAbove (above s user) p id')
    (hok : place s user access readable rank move = .ok t) : Untouched other s t := by
  cases hnode : move.node with
  | tag id =>
    rw [hnode] at hallowed
    simp only [place, hnode, Results.bind_eq_ok, Results.pure_eq_ok] at hok
    obtain ⟨tag, htag, order, horder, rfl⟩ := hok
    obtain ⟨l, r, hsiblings, rfl, -, -⟩ := insertNear_eq_ok horder
    obtain ⟨hmem, rfl, huser, hlive⟩ := tag?_eq_some (requireTag_eq_ok.mp htag)
    subst huser
    have hput : Sound (putTag {tag with parentId := move.parentId} s) :=
        putTag_sound h hmem rfl rfl rfl fun p hp =>
        ⟨(hallowed p hp).1, (hallowed p hp).2 tag.id rfl⟩
    have hrows : ∀ row, row ∈ (putTag {tag with parentId := move.parentId} s).tags ↔
        row = {tag with parentId := move.parentId} ∨ row ∈ s.tags ∧ row.id ≠ tag.id :=
      fun row => mem_putTag hmem rfl
    have hown : ∀ id ∈ ownTags s tag.userId,
        id ∈ ownTags (putTag {tag with parentId := move.parentId} s) tag.userId := fun id hid => by
      obtain ⟨row, hrow, rfl, huser, hrowLive⟩ := mem_ownTags.mp hid
      by_cases hsame : row.id = tag.id
      · exact mem_ownTags.mpr ⟨_, (hrows _).mpr (.inl rfl), hsame.symm, rfl, hlive⟩
      · exact mem_ownTags.mpr ⟨row, (hrows row).mpr (.inr ⟨hrow, hsame⟩), rfl, huser, hrowLive⟩
    have htags := tags_of_order hsiblings fun id hid => Node.tag.inj hid ▸ mem_ownTags.mpr ⟨tag, hmem, rfl, rfl, hlive⟩
    have hfolder : Untouched other s (putTag {tag with parentId := move.parentId} s) :=
        putTag_untouched hother h hmem rfl rfl rfl
    exact hfolder.trans (numberChildren_untouched hother hput
      (fun id hid => hown id (htags id hid)) fun p hp => hown p (hallowed p hp).1)
  | document id =>
    cases hparent : move.parentId with
    | none =>
      simp only [place, hnode, hparent] at hok
      split at hok
      · cases hok
      · simp only [Results.bind_eq_ok] at hok
        obtain ⟨order, -, hok⟩ := hok
        split at hok
        · obtain rfl := Results.pure_eq_ok.mp hok
          exact numberList_untouched hother order s
        · obtain rfl := Results.pure_eq_ok.mp hok
          have hcleared := (clearParent_untouched hother id s).trans
              (unassign_untouched hother (clearParent_sound h user id) id)
          exact (hcleared.trans (numberList_untouched hother order _)).trans
            (setRootPlacement_untouched hother id move.atRoot _)
    | some parentId =>
      simp only [place, hnode, hparent] at hok
      split at hok
      · cases hok
      · simp only [Results.bind_eq_ok, Results.pure_eq_ok] at hok
        obtain ⟨order, horder, rfl⟩ := hok
        obtain ⟨l, r, hsiblings, rfl, -, -⟩ := insertNear_eq_ok horder
        have hown := (hallowed parentId hparent).1
        have htags := tags_of_order hsiblings fun id' hid => by cases hid
        have huntouched := cleared_untouched hother h id
        obtain ⟨hsound, hfree⟩ := cleared_sound h user id
        rw [← unassign_setRootPlacement] at hsound hfree
        obtain ⟨placements, hrows⟩ := cleared_rows s user id
        rw [hrows] at huntouched hsound hfree ⊢
        refine (huntouched.trans (file_untouched hother hsound hown id 0)).trans
          (numberChildren_untouched hother (file_sound hsound 0 hown hfree) htags ?_)
        exact fun p hp => Option.some.inj hp ▸ hown

theorem reorder_untouched (h : Sound s)
    (hok : reorder s user access readable rank move = some (.ok t)) : Untouched other s t := by
  rw [reorder] at hok
  cases hvalid : move.validate with
  | error refusal =>
    rw [hvalid] at hok
    cases hok
  | ok =>
    rw [hvalid] at hok
    cases hparent : move.parentDocumentId with
    | some parentId =>
      cases hnode : move.node with
      | tag =>
        rw [hparent, hnode] at hok
        cases hok
      | document id =>
        rw [hparent, hnode] at hok
        dsimp only at hok
        obtain ⟨checked, hchecked, -⟩ := validateParent_spec h user access id parentId
        rw [reorderNested, hchecked] at hok
        have hresult := Option.some.inj hok
        simp only [Results.bind_eq_ok, Results.pure_eq_ok] at hresult
        obtain ⟨-, -, -, -, order, -, rfl⟩ := hresult
        exact ((cleared_untouched hother h id).trans (nest_untouched hother id parentId _)).trans
          (numberNested_untouched hother parentId order _)
    | none =>
      rw [hparent] at hok
      dsimp only at hok
      split at hok
      · cases hok
      · obtain ⟨checked, hchecked, hspec⟩ := checkAncestors_spec h user move.node.tag?
          "A folder cannot be placed inside itself" move.parentId
        rw [hchecked] at hok
        obtain ⟨_, rfl, hplace⟩ := Results.bind_eq_ok.mp (Option.some.inj hok)
        exact place_untouched hother h (hspec.mp rfl) hplace

theorem assignTag_untouched (h : Sound s) {tagId : TagId} {remove : Bool}
    (hok : assignTag s user access documentId tagId remove = .ok t) : Untouched other s t := by
  simp only [assignTag, Results.bind_eq_ok, ensure_eq_ok] at hok
  obtain ⟨tag, htag, -, -, hok⟩ := hok
  have hown := own_of_requireTag htag
  split at hok
  · obtain rfl := Results.pure_eq_ok.mp hok
    refine ⟨fun _ _ => .rfl, fun assignment hmem => ?_, fun _ _ => .rfl, fun _ _ => .rfl⟩
    have hne : assignment.tagId ≠ tagId := fun hsame => hother (h.owner (hsame ▸ hmem) hown)
    rw [List.mem_filter]
    simp [hne]
  · obtain rfl := Results.pure_eq_ok.mp hok
    have hcleared := clearParent_untouched hother documentId s
    refine Untouched.trans ?_ (setRootPlacement_untouched hother documentId false _)
    split
    · exact hcleared
    · exact hcleared.trans (file_untouched hother (clearParent_sound h user documentId) hown documentId _)

theorem moveDocument_untouched (h : Sound s) {tagId : Option TagId} {atRoot : Bool}
    (hok : moveDocument s user access documentId tagId atRoot = .ok t) : Untouched other s t := by
  simp only [moveDocument, Results.bind_eq_ok, Results.pure_eq_ok] at hok
  obtain ⟨-, -, tag, htag, -, -, rfl⟩ := hok
  have hsound := unassign_sound (clearParent_sound h user documentId) user documentId
  have hcleared := (clearParent_untouched hother documentId s).trans
      (unassign_untouched hother (clearParent_sound h user documentId) documentId)
  refine Untouched.trans ?_ (setRootPlacement_untouched hother documentId atRoot _)
  cases tagId with
  | none => exact hcleared
  | some id => exact hcleared.trans (file_untouched hother hsound (own_of_mapM htag id rfl) documentId _)

theorem writeTag_untouched (h : Sound s) {data : TagWrite} {tagId : Option TagId} {fresh : TagId}
    (hok : writeTag s user data tagId fresh = some (.ok t)) : Untouched other s t := by
  rw [writeTag] at hok
  cases htag : tagId.mapM (requireTag s user) with
  | error refusal =>
    rw [htag] at hok
    cases hok
  | ok tag =>
    obtain ⟨checked, hchecked, -⟩ :=
      checkAncestors_spec h user tagId "A tag cannot be placed inside itself" data.parentId
    rw [htag, hchecked] at hok
    obtain ⟨_, -, rfl⟩ := Results.map_eq_ok.mp (Option.some.inj hok)
    cases tagId with
    | none =>
      obtain rfl := Results.pure_eq_ok.mp htag
      exact addTag_untouched hother s fresh data.parentId data.name _
    | some id =>
      obtain ⟨found, hfound, rfl⟩ := found_of_mapM htag
      obtain ⟨hmem, rfl, huser, -⟩ := tag?_eq_some (requireTag_eq_ok.mp hfound)
      exact putTag_untouched hother h hmem rfl huser huser

theorem removeTag_untouched (h : Sound s) {tagId : TagId} {confirmed : Bool} {deletion : Deletion}
    (hok : removeTag s user tagId confirmed = some (.ok (t, deletion))) :
    Untouched other s t := by
  cases hrequired : requireTag s user tagId with
  | error refusal =>
    rw [removeTag, hrequired] at hok
    cases hok
  | ok tag =>
    have hown := own_of_requireTag hrequired
    obtain ⟨branch, -, hbranch, hresult⟩ := removeTag_eq h hown confirmed
    rw [hresult] at hok
    have hdone := Option.some.inj hok
    dsimp only at hdone
    split at hdone
    · obtain rfl := (Prod.mk.inj (Except.ok.inj hdone)).1
      exact Untouched.refl other s
    · obtain rfl := (Prod.mk.inj (Except.ok.inj hdone)).1
      exact pruned_untouched hother h _ fun id hmem => own_of_atOrAbove h hown ((hbranch id).mp hmem)

theorem perform_untouched (h : Sound s) {edit : Edit} (hok : perform s user edit = some (.ok t)) :
    Untouched other s t := by
  cases edit with
  | writeTag => exact writeTag_untouched hother h hok
  | removeTag tagId confirmed =>
    obtain ⟨result, hresult, hmap⟩ := Option.map_eq_some_iff.mp hok
    obtain ⟨⟨t', deletion⟩, rfl, rfl⟩ := Results.map_eq_ok.mp hmap
    exact removeTag_untouched hother h hresult
  | assignTag => exact assignTag_untouched hother h (Option.some.inj hok)
  | moveDocument => exact moveDocument_untouched hother h (Option.some.inj hok)
  | reorder => exact reorder_untouched hother h hok
  | sortChildren parentId rank descending =>
    have hsorted := Option.some.inj hok
    simp only [sortChildren, Results.bind_eq_ok, Results.pure_eq_ok] at hsorted
    obtain ⟨tag, htag, rfl⟩ := hsorted
    refine numberChildren_untouched hother h (fun id hmem => ?_) (own_of_mapM htag)
    have hchild := List.mem_mergeSort.mp ((foldersFirst_perm _).subset hmem)
    obtain ⟨row, hrow, huser, hlive, -, hid⟩ | ⟨assignment, -, -, hdocument⟩ := mem_childNodes.mp hchild
    · exact mem_ownTags.mpr ⟨row, hrow, (Node.tag.inj hid).symm, huser, hlive⟩
    · cases hdocument

end Edits

end Runs
end Galaris.Document.PersonalTree
