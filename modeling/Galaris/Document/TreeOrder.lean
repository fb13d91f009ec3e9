import Galaris.Document.TreeEdits

/-! The order that a move leaves behind.

The moved node stands beside its anchor among the siblings as they were shown, folders first (`Inserted`). Because all
of them are numbered from the first on, what is read afterwards is this order (`sorted_of_positions`). -/
namespace Galaris.Document.PersonalTree

open Transition Ancestry

section Runs
variable {s t : State} {user : UserId} {documentId : DocumentId}

/-! ### Order -/

/-- Sorting loses no row. -/
theorem sorted_perm (rank : Node → Nat) (rows : List (Node × Nat)) :
    (sorted rank rows).Perm (rows.map (·.1)) := (List.mergeSort_perm rows _).map _

/-- The node stands beside its anchor, and the others keep their order. -/
theorem insertNear_eq_ok {access : DocumentId → Bool} {siblings order : List Node} {node : Node}
    {anchor : Option Node} {after : Bool} {own gone : String}
    (h : insertNear access siblings node anchor after own gone = .ok order) :
    ∃ l r, siblings = l ++ r ∧ order = l ++ node :: r ∧ (anchor = none → r = []) ∧
      ∀ a, anchor = some a → if after then ∃ l', l = l' ++ [a] else ∃ r', r = a :: r' := by
  cases anchor with
  | none =>
    obtain rfl := Except.ok.inj h
    exact ⟨siblings, [], (List.append_nil _).symm, rfl, fun _ => rfl,
      fun a ha => absurd ha.symm (Option.some_ne_none a)⟩
  | some anchor =>
    rw [insertNear] at h
    split at h
    · cases h
    · split at h
      · cases h
      · cases hindex : siblings.idxOf? anchor with
        | none => simp [hindex] at h
        | some index =>
          rw [hindex] at h
          obtain rfl := Except.ok.inj h
          refine ⟨_, _, (List.take_append_drop _ _).symm, rfl,
            fun hnone => absurd hnone (Option.some_ne_none anchor), fun a ha => ?_⟩
          obtain rfl := Option.some.inj ha
          obtain ⟨hlt, hget, -⟩ := List.idxOf?_eq_some_iff.mp hindex
          cases after with
          | true => exact ⟨siblings.take index, by rw [Bool.toNat_true, ← hget, List.take_append_getElem]⟩
          | false =>
            exact ⟨siblings.drop (index + 1), by
              rw [Bool.toNat_false, Nat.add_zero, ← hget, List.drop_eq_getElem_cons hlt]⟩

/-- The positions of distinct nodes grow. -/
theorem positionIn_pairwise {order : List Node} (h : order.Nodup) : order.Pairwise fun a b =>
    positionIn order a < positionIn order b := by
  rw [List.pairwise_iff_getElem]
  intro i j hi hj hij
  rw [positionIn, positionIn, List.Nodup.idxOf_getElem h i hi, List.Nodup.idxOf_getElem h j hj]
  exact Nat.succ_lt_succ hij

/-- Rows that are numbered in order are read in that order, whatever the titles. -/
theorem sorted_of_positions (rank : Node → Nat) {rows : List (Node × Nat)} {order : List Node}
    (hnodes : (rows.map (·.1)).Perm order) (hnodup : order.Nodup)
    (hpositions : ∀ row ∈ rows, row.2 = positionIn order row.1) : sorted rank rows = order := by
  have hrows : (rows.map (·.1)).map (fun node => (node, positionIn order node)) = rows := by
    rw [List.map_map]
    refine (List.map_congr_left fun row hmem => ?_).trans (List.map_id' _)
    exact Prod.ext rfl (hpositions row hmem).symm
  have hperm : (order.map fun node => (node, positionIn order node)).Perm rows := hrows ▸ (hnodes.map _).symm
  have hpairwise : (order.map fun node => (node, positionIn order node)).Pairwise fun row row' => row.2 < row'.2 :=
    List.pairwise_map.mpr (positionIn_pairwise hnodup)
  have hsorted : (rows.mergeSort fun row row' => decide (row.2 < row'.2) ||
      decide (row.2 = row'.2) && decide (rank row.1 ≤ rank row'.1)) =
      order.map fun node => (node, positionIn order node) := by
    refine @List.Perm.eq_of_pairwise _ (fun row row' => (decide (row.2 < row'.2) ||
      decide (row.2 = row'.2) && decide (rank row.1 ≤ rank row'.1)) = true) _ _ ?_ ?_ ?_
      ((List.mergeSort_perm rows _).trans hperm.symm)
    · intro row row' hmem hmem' hle hle'
      have hsame : row.2 = row'.2 := by
        simp only [Bool.or_eq_true, Bool.and_eq_true, decide_eq_true_eq] at hle hle'
        omega
      obtain ⟨node, hnode, rfl⟩ := List.mem_map.mp (hperm.symm.subset (List.mem_mergeSort.mp hmem))
      obtain ⟨node', hnode', rfl⟩ := List.mem_map.mp hmem'
      have hindex : order.idxOf node = order.idxOf node' := Nat.succ.inj hsame
      rw [(List.idxOf_inj hnode).mp hindex]
    · refine List.pairwise_mergeSort (fun a b c hab hbc => ?_) (fun a b => ?_) rows
      · simp only [Bool.or_eq_true, Bool.and_eq_true, decide_eq_true_eq] at hab hbc ⊢
        omega
      · simp only [Bool.or_eq_true, Bool.and_eq_true, decide_eq_true_eq]
        omega
    · exact hpairwise.imp fun hlt => by simp [hlt]
  rw [sorted, hsorted, List.map_map]
  exact List.map_id' _

theorem foldersFirst_perm (order : List Node) : (foldersFirst order).Perm order := List.filter_append_perm _ order

/-- The children of a folder: its live subfolders and what is filed in it. -/
theorem mem_childNodes {parentId : Option TagId} {node : Node} : node ∈ (children s user parentId).map (·.1) ↔
    (∃ tag ∈ s.tags, tag.userId = user ∧ tag.deleted = false ∧ tag.parentId = parentId ∧ node = .tag tag.id) ∨
      ∃ assignment ∈ s.assignments, some assignment.tagId = parentId ∧ node = .document assignment.documentId := by
  rw [children, List.map_append, List.map_map, List.map_map, List.mem_append, List.mem_map, List.mem_map]
  refine or_congr ⟨?_, ?_⟩ ⟨?_, ?_⟩
  · rintro ⟨tag, hmem, rfl⟩
    obtain ⟨htag, hkey⟩ := List.mem_filter.mp hmem
    simp only [Bool.and_eq_true, decide_eq_true_eq, Bool.not_eq_true'] at hkey
    exact ⟨tag, htag, hkey.1.1, hkey.1.2, hkey.2, rfl⟩
  · rintro ⟨tag, htag, huser, hlive, hparent, rfl⟩
    exact ⟨tag, List.mem_filter.mpr ⟨htag, by simp [huser, hlive, hparent]⟩, rfl⟩
  · rintro ⟨assignment, hmem, rfl⟩
    obtain ⟨hassignment, hkey⟩ := List.mem_filter.mp hmem
    exact ⟨assignment, hassignment, of_decide_eq_true hkey, rfl⟩
  · rintro ⟨assignment, hassignment, hparent, rfl⟩
    exact ⟨assignment, List.mem_filter.mpr ⟨hassignment, decide_eq_true hparent⟩, rfl⟩

/-- No child is there twice. -/
theorem nodup_childNodes (h : Sound s) (user : UserId) (parentId : Option TagId) :
    ((children s user parentId).map (·.1)).Nodup := by
  rw [children, List.map_append, List.map_map, List.map_map, List.nodup_append]
  refine ⟨?_, ?_, ?_⟩
  · refine List.Nodup.map_on (fun tag htag tag' htag' hsame => ?_) ((List.Nodup.of_map _ h.tagIds).filter _)
    exact h.eq_of_id (List.mem_of_mem_filter htag) (List.mem_of_mem_filter htag') (Node.tag.inj hsame)
  · refine List.Nodup.map_on (fun assignment hmem assignment' hmem' hsame => ?_)
      ((List.Nodup.of_map _ h.assigned).filter _)
    obtain ⟨hold, htag⟩ := List.mem_filter.mp hmem
    obtain ⟨hold', htag'⟩ := List.mem_filter.mp hmem'
    refine List.inj_on_of_nodup_map h.assigned hold hold' (Prod.ext ?_ (Node.document.inj hsame))
    exact Option.some.inj ((of_decide_eq_true htag).trans (of_decide_eq_true htag').symm)
  · rintro node hnode _ hnode' rfl
    obtain ⟨tag, -, rfl⟩ := List.mem_map.mp hnode
    obtain ⟨assignment, -, hdocument⟩ := List.mem_map.mp hnode'
    cases hdocument

/-- The children are the same with their new positions. -/
theorem children_numberChildren (s : State) (user : UserId) (parentId : Option TagId)
    (order : List Node) : children (numberChildren parentId order s) user parentId =
    (children s user parentId).map fun row => (row.1, if row.1 ∈ order then positionIn order row.1 else row.2) := by
  have htag : ∀ tag : Tag, (if .tag tag.id ∈ order
      then {tag with position := positionIn order (.tag tag.id)} else tag).userId = tag.userId ∧
      (if .tag tag.id ∈ order then {tag with position := positionIn order (.tag tag.id)}
        else tag).deleted = tag.deleted ∧
      (if .tag tag.id ∈ order then {tag with position := positionIn order (.tag tag.id)}
          else tag).parentId = tag.parentId := fun tag => by
    split <;> exact ⟨rfl, rfl, rfl⟩
  rw [children, children, List.map_append, List.map_map, List.map_map, numberChildren,
    List.filter_map, List.filter_map, List.map_map, List.map_map]
  refine congrArg₂ (· ++ ·) ?_ ?_
  · rw [List.filter_congr fun tag _ =>
        show _ = (decide (tag.userId = user) && !tag.deleted && decide (tag.parentId = parentId)) by
      rw [Function.comp_apply, (htag tag).1, (htag tag).2.1, (htag tag).2.2]]
    refine List.map_congr_left fun tag _ => ?_
    rw [Function.comp_apply, Function.comp_apply]
    split <;> rfl
  · rw [List.filter_congr fun assignment _ => show _ = decide (some assignment.tagId = parentId) by
      rw [Function.comp_apply]
      split <;> rfl]
    refine List.map_congr_left fun assignment hmem => ?_
    have hparent : some assignment.tagId = parentId := of_decide_eq_true (List.mem_filter.mp hmem).2
    rw [Function.comp_apply, Function.comp_apply]
    simp only [hparent, true_and]
    split <;> rfl

/-- The children of a folder are read as they have been numbered. -/
theorem children_shown {parentId : Option TagId} {order : List Node}
    (hnodes : ((children s user parentId).map (·.1)).Perm order) (hnodup : order.Nodup)
    (rank : Node → Nat) :
    sorted rank (children (numberChildren parentId order s) user parentId) = order := by
  rw [children_numberChildren]
  refine sorted_of_positions rank ?_ hnodup fun row hmem => ?_
  · rw [List.map_map]
    exact hnodes
  · obtain ⟨old, hold, rfl⟩ := List.mem_map.mp hmem
    exact if_pos (hnodes.subset (List.mem_map_of_mem hold))

/-- What a move inserts its node into, with the node. -/
theorem order_perm {rank : Node → Nat} {rows : List (Node × Nat)} {node : Node} {l r : List Node}
    (hsiblings : sorted rank (rows.filter (·.1 ≠ node)) = l ++ r) :
    (l ++ node :: r).Perm (node :: (rows.filter (·.1 ≠ node)).map (·.1)) :=
  List.perm_middle.trans ((hsiblings ▸ sorted_perm rank _).cons node)

/-- The new order has no node twice. -/
theorem order_nodup {rank : Node → Nat} {rows : List (Node × Nat)} {node : Node} {l r : List Node}
    (hsiblings : sorted rank (rows.filter (·.1 ≠ node)) = l ++ r)
    (hnodup : (rows.map (·.1)).Nodup) : (l ++ node :: r).Nodup := by
  refine (order_perm hsiblings).nodup_iff.mpr
    (List.nodup_cons.mpr ⟨fun hmem => ?_, hnodup.sublist (List.filter_sublist.map _)⟩)
  obtain ⟨row, hrow, hsame⟩ := List.mem_map.mp hmem
  have hother := (List.mem_filter.mp hrow).2
  simp [hsame] at hother

/-- The rows that are read after a move: those that were there, and the node. -/
theorem perm_of_mem_iff {rank : Node → Nat} {rows rows' : List (Node × Nat)} {node : Node}
    {l r : List Node} (hsiblings : sorted rank (rows.filter (·.1 ≠ node)) = l ++ r)
    (hnodup : (rows.map (·.1)).Nodup) (hnodup' : (rows'.map (·.1)).Nodup)
    (hmem : ∀ n, n ∈ rows'.map (·.1) ↔ n = node ∨ n ∈ rows.map (·.1) ∧ n ≠ node) :
    (rows'.map (·.1)).Perm (l ++ node :: r) := by
  refine (List.perm_ext_iff_of_nodup hnodup' (order_nodup hsiblings hnodup)).mpr fun n => ?_
  rw [hmem, (order_perm hsiblings).mem_iff, List.mem_cons, List.mem_map, List.mem_map]
  refine or_congr_right ⟨?_, ?_⟩
  · rintro ⟨⟨row, hrow, rfl⟩, hother⟩
    exact ⟨row, List.mem_filter.mpr ⟨hrow, decide_eq_true hother⟩, rfl⟩
  · rintro ⟨row, hrow, rfl⟩
    exact ⟨⟨row, List.mem_of_mem_filter hrow, rfl⟩, of_decide_eq_true (List.mem_filter.mp hrow).2⟩

/-- The node of a move stands among its siblings as the move says, beside its anchor or last; then folders
come first. -/
def Inserted (siblings : List Node) (move : Move) (order : List Node) : Prop :=
  ∃ l r, siblings = l ++ r ∧ (move.anchor = none → r = []) ∧
    (∀ a, move.anchor = some a → if move.after then ∃ l', l = l' ++ [a] else ∃ r', r = a :: r') ∧
    order = foldersFirst (l ++ move.node :: r)

variable {access : DocumentId → Bool} {readable : List DocumentId} {rank : Node → Nat} {move : Move}

theorem mem_putTag {tag tag' row : Tag} (htag : tag ∈ s.tags) (hid : tag'.id = tag.id) :
    row ∈ (putTag tag' s).tags ↔ row = tag' ∨ row ∈ s.tags ∧ row.id ≠ tag.id := by
  rw [putTag, List.mem_map]
  constructor
  · rintro ⟨old, hold, rfl⟩
    split
    case isTrue => exact .inl rfl
    case isFalse hother => exact .inr ⟨hold, fun hsame => hother (hsame.trans hid.symm)⟩
  · rintro (rfl | ⟨hrow, hother⟩)
    · exact ⟨tag, htag, if_pos hid.symm⟩
    · exact ⟨row, hrow, if_neg fun hsame => hother (hsame.trans hid)⟩

/-- A folder is placed as the move says. -/
theorem placeTag_spec (h : Sound s) {id : TagId} (hnode : move.node = .tag id)
    (hallowed : ∀ p, move.parentId = some p → p ∈ ownTags s user ∧ ∀ id',
      move.node.tag? = some id' → ¬AtOrAbove (above s user) p id')
    (hok : place s user access readable rank move = .ok t) :
    Sound t ∧ ∀ rank',
        Inserted (sorted rank ((children s user move.parentId).filter (·.1 ≠ move.node))) move
        (sorted rank' (children t user move.parentId)) := by
  rw [hnode] at hallowed
  simp only [place, hnode, Results.bind_eq_ok, Results.pure_eq_ok] at hok
  obtain ⟨tag, htag, order, horder, rfl⟩ := hok
  obtain ⟨l, r, hsiblings, rfl, hlast, hanchor⟩ := insertNear_eq_ok horder
  obtain ⟨hmem, rfl, rfl, hlive⟩ := tag?_eq_some (requireTag_eq_ok.mp htag)
  have hput : Sound (putTag {tag with parentId := move.parentId} s) :=
      putTag_sound h hmem rfl rfl rfl fun p hp => ⟨(hallowed p hp).1, (hallowed p hp).2 tag.id rfl⟩
  refine ⟨hput.renumber (bare_numberChildren _ _ _), fun rank' => ⟨l, r, hnode ▸ hsiblings, hlast, hanchor, ?_⟩⟩
  have hrows : ∀ row, row ∈ (putTag {tag with parentId := move.parentId} s).tags ↔
      row = {tag with parentId := move.parentId} ∨ row ∈ s.tags ∧ row.id ≠ tag.id :=
    fun row => mem_putTag hmem rfl
  have hperm := perm_of_mem_iff hsiblings (nodup_childNodes h _ _)
      (nodup_childNodes hput tag.userId move.parentId) fun n => by
    rw [mem_childNodes, mem_childNodes]
    constructor
    · rintro (⟨row, hrow, huser, hrowLive, hparent, rfl⟩ | ⟨assignment, hassignment, hparent, rfl⟩)
      · obtain rfl | ⟨hold, hother⟩ := (hrows row).mp hrow
        · exact .inl rfl
        · exact .inr ⟨.inl ⟨row, hold, huser, hrowLive, hparent, rfl⟩, fun hsame => hother (Node.tag.inj hsame)⟩
      · exact .inr ⟨.inr ⟨assignment, hassignment, hparent, rfl⟩, by simp⟩
    · rintro (rfl | ⟨⟨row, hrow, huser, hrowLive, hparent, rfl⟩ | ⟨assignment, hassignment, hparent, rfl⟩, hother⟩)
      · exact .inl ⟨_, (hrows _).mpr (.inl rfl), rfl, hlive, rfl, rfl⟩
      · exact .inl ⟨row, (hrows row).mpr (.inr ⟨hrow, fun hid => hother (congrArg Node.tag hid)⟩),
          huser, hrowLive, hparent, rfl⟩
      · exact .inr ⟨assignment, hassignment, hparent, rfl⟩
  rw [hnode]
  exact children_shown (hperm.trans (foldersFirst_perm _).symm)
    ((foldersFirst_perm _).nodup_iff.mpr (order_nodup hsiblings (nodup_childNodes h _ _))) rank'

/-- The edits that give a document a place only touch what is its own. -/
theorem cleared_rows (s : State) (user : UserId) (documentId : DocumentId) : ∃ placements,
    unassign user documentId
        (setRootPlacement user documentId false (clearParent user documentId s)) =
        {unassign user documentId (clearParent user documentId s) with placements} := by
  rw [unassign_setRootPlacement]
  exact setRootPlacement_rows user documentId false _

/-- A document that is put into a folder. -/
theorem placeFiled_spec (h : Sound s) {id : DocumentId} {parentId : TagId}
    (hnode : move.node = .document id) (hparent : move.parentId = some parentId)
    (hown : parentId ∈ ownTags s user) (hok : place s user access readable rank move = .ok t) :
    Sound t ∧ ∀ rank',
        Inserted (sorted rank ((children s user move.parentId).filter (·.1 ≠ move.node))) move
        (sorted rank' (children t user move.parentId)) := by
  simp only [place, hnode, hparent] at hok
  split at hok
  · cases hok
  · simp only [Results.bind_eq_ok, Results.pure_eq_ok] at hok
    obtain ⟨order, horder, rfl⟩ := hok
    obtain ⟨l, r, hsiblings, rfl, hlast, hanchor⟩ := insertNear_eq_ok horder
    obtain ⟨hsound, hfree⟩ := cleared_sound h user id
    rw [← unassign_setRootPlacement] at hsound hfree
    obtain ⟨placements, hrows⟩ := cleared_rows s user id
    rw [hrows] at hsound hfree ⊢
    have hfiled := file_sound hsound 0 hown hfree
    refine ⟨hfiled.renumber (bare_numberChildren _ _ _),
      fun rank' => ⟨l, r, hnode ▸ hparent ▸ hsiblings, hlast, hanchor, ?_⟩⟩
    have hperm := perm_of_mem_iff hsiblings (nodup_childNodes h _ _)
        (nodup_childNodes hfiled user (some parentId)) fun n => by
      rw [mem_childNodes, mem_childNodes]
      constructor
      · rintro (⟨row, hrow, huser, hlive, hunder, rfl⟩ | ⟨assignment, hassignment, hunder, rfl⟩)
        · exact .inr ⟨.inl ⟨row, hrow, huser, hlive, hunder, rfl⟩, by simp⟩
        · obtain hold | hnew := List.mem_append.mp hassignment
          · obtain ⟨hkept, hother⟩ := List.mem_filter.mp hold
            refine .inr ⟨.inr ⟨assignment, hkept, hunder, rfl⟩, fun hsame => ?_⟩
            have hownTag : assignment.tagId ∈ ownTags s user := (Option.some.inj hunder).symm ▸ hown
            simp [Node.document.inj hsame,
              show assignment.tagId ∈ ownTags (clearParent user id s) user from hownTag] at hother
          · rw [List.mem_singleton.mp hnew]
            exact .inl rfl
      · rintro (rfl | ⟨⟨row, hrow, huser, hlive, hunder, rfl⟩ | ⟨assignment, hassignment, hunder, rfl⟩, hother⟩)
        · exact .inr ⟨_, List.mem_append_right _ (List.mem_singleton_self _), rfl, rfl⟩
        · exact .inl ⟨row, hrow, huser, hlive, hunder, rfl⟩
        · refine .inr ⟨assignment, List.mem_append_left _ (List.mem_filter.mpr ⟨hassignment, ?_⟩), hunder, rfl⟩
          have hapart : assignment.documentId ≠ id := fun hid => hother (congrArg Node.document hid)
          simp [hapart]
    rw [hnode, hparent]
    exact children_shown (hperm.trans (foldersFirst_perm _).symm)
      ((foldersFirst_perm _).nodup_iff.mpr (order_nodup hsiblings (nodup_childNodes h _ _))) rank'

/-! ### The list of documents -/

/-- Documents alone stay in their order. -/
theorem foldersFirst_documents {order : List Node} (h : ∀ node ∈ order, node.isTag = false) :
    foldersFirst order = order := by
  rw [foldersFirst, List.filter_eq_nil_iff.mpr fun node hmem => by simp [h node hmem], List.nil_append]
  exact List.filter_eq_self.mpr fun node hmem => by simp [h node hmem]

theorem Sound.placement? (h : Sound s) {placement : Placement} (hmem : placement ∈ s.placements) :
    placement? s placement.userId placement.documentId = some placement := by
  obtain ⟨other, hfind⟩ := Option.isSome_iff_exists.mp (placement?_isSome.mpr ⟨placement, hmem, rfl, rfl⟩)
  have hkey := List.find?_some hfind
  simp only [Bool.and_eq_true, decide_eq_true_eq] at hkey
  rw [hfind, List.inj_on_of_nodup_map h.placed (List.mem_of_find?_eq_some hfind) hmem (Prod.ext hkey.1 hkey.2)]

/-- Each document of the list has a row with its number. -/
theorem numbered_row {order : List Node} {id : DocumentId} (hmem : .document id ∈ order) :
    ∃ placement ∈ (numberList user order s).placements, placement.userId = user ∧
    placement.documentId = id ∧ placement.position = positionIn order (.document id) := by
  by_cases hsome : (placement? s user id).isSome = true
  · obtain ⟨placement, hplacement, rfl, rfl⟩ := placement?_isSome.mp hsome
    exact ⟨_, List.mem_append_left _ (List.mem_map.mpr ⟨placement, hplacement, if_pos ⟨rfl, hmem⟩⟩), rfl, rfl, rfl⟩
  · refine ⟨_, List.mem_append_right _
      (List.mem_map.mpr ⟨id, List.mem_filter.mpr ⟨mem_documents.mpr hmem, ?_⟩, rfl⟩), rfl, rfl, rfl⟩
    rw [Option.isNone_iff_eq_none]
    exact Option.not_isSome_iff_eq_none.mp hsome

/-- A placement that is there stays, with its position. -/
theorem setRootPlacement_row {atRoot : Bool} {user' : UserId} {documentId' : DocumentId} {position : Nat}
    (h : ∃ placement ∈ s.placements, placement.userId = user' ∧ placement.documentId = documentId' ∧
      placement.position = position) :
    ∃ placement ∈ (setRootPlacement user documentId atRoot s).placements, placement.userId = user' ∧
        placement.documentId = documentId' ∧ placement.position = position := by
  obtain ⟨placement, hmem, hrest⟩ := h
  rw [setRootPlacement]
  split
  · refine ⟨_, List.mem_map.mpr ⟨placement, hmem, rfl⟩, ?_⟩
    split <;> exact hrest
  · split
    · exact ⟨placement, List.mem_append_left _ hmem, hrest⟩
    · exact ⟨placement, hmem, hrest⟩

/-- The list is read as it has been numbered. -/
theorem listed_shown (h : Sound t) {order : List Node} {ids : List DocumentId}
    (hnodes : (ids.map Node.document).Perm order) (hnodup : order.Nodup)
    (hrows : ∀ id, .document id ∈ order → ∃ placement ∈ t.placements, placement.userId = user ∧
      placement.documentId = id ∧ placement.position = positionIn order (.document id))
    (rank : Node → Nat) : sorted rank (listed t user ids) = order := by
  refine sorted_of_positions rank ?_ hnodup fun row hmem => ?_
  · rw [listed, List.map_map]
    exact hnodes
  · obtain ⟨id, hid, rfl⟩ := List.mem_map.mp hmem
    obtain ⟨placement, hplacement, rfl, rfl, hposition⟩ := hrows id (hnodes.subset (List.mem_map_of_mem hid))
    rw [h.placement? hplacement]
    exact hposition

/-- A document that is moved in the list of all documents. -/
theorem placeListed_spec (h : Sound s) {id : DocumentId} (hreadable : readable.Nodup)
    (hnode : move.node = .document id) (hparent : move.parentId = none)
    (hok : place s user access readable rank move = .ok t) :
    Sound t ∧ ∀ rank', Inserted (sorted rank ((listed s user readable).filter (·.1 ≠ move.node)))
        move (sorted rank' (listed t user (id :: readable.filter (· ≠ id)))) := by
  simp only [place, hnode, hparent] at hok
  split at hok
  · cases hok
  · simp only [Results.bind_eq_ok] at hok
    obtain ⟨order, horder, hok⟩ := hok
    have hothers : listed s user (readable.filter (· ≠ id)) = (listed s user readable).filter (·.1 ≠ .document id) := by
      rw [listed, listed, List.filter_map]
      refine congrArg (List.map _) (List.filter_congr fun other _ => ?_)
      simp
    rw [hothers] at horder
    obtain ⟨l, r, hsiblings, rfl, hlast, hanchor⟩ := insertNear_eq_ok horder
    have hnodup : ((listed s user readable).map (·.1)).Nodup := by
      rw [listed, List.map_map]
      exact hreadable.map fun a b hab => Node.document.inj hab
    have hdistinct := order_nodup hsiblings hnodup
    have hperm : ((id :: readable.filter (· ≠ id)).map Node.document).Perm (l ++ .document id :: r) := by
      refine ((order_perm hsiblings).trans (List.Perm.of_eq ?_)).symm
      rw [← hothers, listed, List.map_map]
      rfl
    have hdocuments : ∀ node ∈ l ++ Node.document id :: r, node.isTag = false := fun node hmem => by
      obtain ⟨other, -, rfl⟩ := List.mem_map.mp (hperm.symm.subset hmem)
      rfl
    split at hok
    · obtain rfl := Results.pure_eq_ok.mp hok
      have hsound := numberList_sound h user hdistinct
      refine ⟨hsound, fun rank' => ⟨l, r, hnode ▸ hsiblings, hlast, hanchor, ?_⟩⟩
      rw [hnode, foldersFirst_documents hdocuments]
      exact listed_shown hsound hperm hdistinct (fun other hmem => numbered_row hmem) rank'
    · obtain rfl := Results.pure_eq_ok.mp hok
      have hcleared := unassign_sound (clearParent_sound h user id) user id
      have hsound : Sound (setRootPlacement user id move.atRoot
          (numberList user (l ++ .document id :: r) (unassign user id (clearParent user id s)))) :=
        setRootPlacement_sound (numberList_sound hcleared user hdistinct) fun _ =>
          ⟨not_filed_unassign (clearParent user id s) user id, not_nested_clearParent s user id⟩
      refine ⟨hsound, fun rank' => ⟨l, r, hnode ▸ hsiblings, hlast, hanchor, ?_⟩⟩
      rw [hnode, foldersFirst_documents hdocuments]
      exact listed_shown hsound hperm hdistinct (fun other hmem => setRootPlacement_row (numbered_row hmem)) rank'

/-! ### Documents under documents -/

/-- What is nested under a document. -/
theorem mem_nestedNodes {parentId : DocumentId} {node : Node} : node ∈ (nested s user parentId).map (·.1) ↔
    ∃ nesting ∈ s.nestings, nesting.userId = user ∧ nesting.parentDocumentId = parentId ∧
    node = .document nesting.documentId := by
  rw [nested, List.map_map, List.mem_map]
  constructor
  · rintro ⟨nesting, hmem, rfl⟩
    obtain ⟨hnesting, hkey⟩ := List.mem_filter.mp hmem
    simp only [Bool.and_eq_true, decide_eq_true_eq] at hkey
    exact ⟨nesting, hnesting, hkey.1, hkey.2, rfl⟩
  · rintro ⟨nesting, hnesting, huser, hparent, rfl⟩
    exact ⟨nesting, List.mem_filter.mpr ⟨hnesting, by simp [huser, hparent]⟩, rfl⟩

theorem nodup_nestedNodes (h : Sound s) (user : UserId) (parentId : DocumentId) :
    ((nested s user parentId).map (·.1)).Nodup := by
  rw [nested, List.map_map]
  refine List.Nodup.map_on (fun nesting hmem nesting' hmem' hsame => ?_) ((List.Nodup.of_map _ h.nested).filter _)
  obtain ⟨hold, hkey⟩ := List.mem_filter.mp hmem
  obtain ⟨hold', hkey'⟩ := List.mem_filter.mp hmem'
  simp only [Bool.and_eq_true, decide_eq_true_eq] at hkey hkey'
  exact List.inj_on_of_nodup_map h.nested hold hold' (Prod.ext (hkey.1.trans hkey'.1.symm) (Node.document.inj hsame))

/-- What is nested is the same with its new positions. -/
theorem nested_numberNested (s : State) (user : UserId) (parentId : DocumentId)
    (order : List Node) : nested (numberNested user parentId order s) user parentId =
    (nested s user parentId).map fun row => (row.1, if row.1 ∈ order then positionIn order row.1 else row.2) := by
  rw [nested, nested, List.map_map, numberNested, List.filter_map, List.map_map]
  rw [List.filter_congr fun nesting _ =>
      show _ = (decide (nesting.userId = user) && decide (nesting.parentDocumentId = parentId)) by
    rw [Function.comp_apply]
    split <;> rfl]
  refine List.map_congr_left fun nesting hmem => ?_
  have hkey := (List.mem_filter.mp hmem).2
  simp only [Bool.and_eq_true, decide_eq_true_eq] at hkey
  rw [Function.comp_apply, Function.comp_apply]
  simp only [hkey.1, hkey.2, true_and]
  split <;> rfl

/-- A document is placed under another as the move says. -/
theorem reorderNested_spec (h : Sound s) {id parentId : DocumentId} (hnode : move.node = .document id) :
    ∃ result, reorderNested s user access rank move id parentId = some result ∧ ∀ t, result = .ok t → Sound t ∧
      ∀ rank', Inserted (sorted rank ((nested s user parentId).filter (·.1 ≠ move.node))) move
      (sorted rank' (nested t user parentId)) := by
  obtain ⟨checked, hchecked, hspec⟩ := validateParent_spec h user access id parentId
  rw [reorderNested, hchecked]
  refine ⟨_, rfl, fun t ht => ?_⟩
  simp only [Results.bind_eq_ok, Results.pure_eq_ok] at ht
  obtain ⟨_, rfl, -, -, order, horder, rfl⟩ := ht
  have hbelow := (hspec.mp rfl).2
  obtain ⟨l, r, hsiblings, rfl, hlast, hanchor⟩ := insertNear_eq_ok horder
  obtain ⟨hsound, hfree⟩ := cleared_sound h user id
  rw [← unassign_setRootPlacement] at hsound hfree
  obtain ⟨placements, hrows⟩ := cleared_rows s user id
  rw [hrows] at hsound hfree ⊢
  have hkept : ∀ nesting ∈ (unassign user id (clearParent user id s)).nestings,
      nesting ∈ s.nestings ∧ (nesting.userId = user → nesting.documentId ≠ id) :=
      fun nesting hmem => by
    obtain ⟨hold, hother⟩ := List.mem_filter.mp hmem
    exact ⟨hold, fun huser hid => by simp [huser, hid] at hother⟩
  have hnested := nest_sound hsound
      (fun hway : AtOrAbove _ parentId id => hbelow (Relation.ReflTransGen.mono (fun a b hab => by
    obtain ⟨nesting, hmem, hrest⟩ := (parentOf_eq_some hsound.nested).mp hab
    exact (parentOf_eq_some h.nested).mpr
      ⟨nesting, (hkept nesting hmem).1, hrest⟩) _ _ hway)) hfree.filed hfree.nested hfree.atRoot
  refine ⟨hnested.renumber (bare_numberNested user parentId _ _),
    fun rank' => ⟨l, r, hnode ▸ hsiblings, hlast, hanchor, ?_⟩⟩
  have hperm := perm_of_mem_iff hsiblings (nodup_nestedNodes h _ _)
      (nodup_nestedNodes hnested user parentId) fun n => by
    rw [mem_nestedNodes, mem_nestedNodes]
    constructor
    · rintro ⟨nesting, hmem, huser, hparent, rfl⟩
      obtain hold | hnew := List.mem_append.mp hmem
      · obtain ⟨hmem, hother⟩ := hkept nesting hold
        exact .inr ⟨⟨nesting, hmem, huser, hparent, rfl⟩, fun hsame => hother huser (Node.document.inj hsame)⟩
      · rw [List.mem_singleton.mp hnew]
        exact .inl rfl
    · rintro (rfl | ⟨⟨nesting, hmem, huser, hparent, rfl⟩, hother⟩)
      · exact ⟨_, List.mem_append_right _ (List.mem_singleton_self _), rfl, rfl, rfl⟩
      · refine ⟨nesting, List.mem_append_left _ (List.mem_filter.mpr ⟨hmem, ?_⟩), huser, hparent, rfl⟩
        have hapart : nesting.documentId ≠ id := fun hid => hother (congrArg Node.document hid)
        simp [hapart]
  have hdistinct := order_nodup hsiblings (nodup_nestedNodes h _ _)
  have hdocuments : ∀ node ∈ l ++ Node.document id :: r, node.isTag = false := fun node hmem => by
    obtain ⟨nesting, -, -, -, rfl⟩ := mem_nestedNodes.mp (hperm.symm.subset hmem)
    rfl
  rw [hnode, foldersFirst_documents hdocuments, nested_numberNested]
  refine sorted_of_positions rank' ?_ hdistinct fun row hmem => ?_
  · rw [List.map_map]
    exact hperm
  · obtain ⟨old, hold, rfl⟩ := List.mem_map.mp hmem
    exact if_pos (hperm.subset (List.mem_map_of_mem hold))

/-! ### Every edit -/

/-- What a move is made in, where these documents may be read. -/
def shown (s : State) (user : UserId) (readable : List DocumentId) (move : Move) : List (Node × Nat) :=
  match move.parentDocumentId with
  | some parentId => nested s user parentId
  | none =>
    if move.listOnly || !move.node.isTag && move.parentId.isNone then listed s user readable
      else children s user move.parentId

/-- The moved document among those that may be read. -/
def Move.reads (move : Move) (readable : List DocumentId) : List DocumentId :=
    move.node.document?.elim readable fun id => id :: readable.filter (· ≠ id)

/-- A reorder ends, and places the node as the move says. -/
theorem reorder_spec (h : Sound s) (user : UserId) (access : DocumentId → Bool)
    (hreadable : readable.Nodup) (rank : Node → Nat) (move : Move) :
    ∃ result, reorder s user access readable rank move = some result ∧ ∀ t, result = .ok t → Sound t ∧
      ∀ rank', Inserted (sorted rank ((shown s user readable move).filter (·.1 ≠ move.node))) move
      (sorted rank' (shown t user (move.reads readable) move)) := by
  have hrefused : ∀ refusal : Refusal, ∃ result : Except Refusal State,
      some (Except.error refusal) = some result ∧ ∀ t, result = .ok t → Sound t ∧
      ∀ rank', Inserted (sorted rank ((shown s user readable move).filter (·.1 ≠ move.node))) move
      (sorted rank' (shown t user (move.reads readable) move)) :=
    fun refusal => ⟨_, rfl, fun t ht => by cases ht⟩
  rw [reorder]
  cases hvalid : move.validate with
  | error refusal => exact hrefused refusal
  | ok =>
    cases hparent : move.parentDocumentId with
    | some parentId =>
      cases hnode : move.node with
      | tag => exact ⟨_, rfl, fun t ht => by cases ht⟩
      | document id =>
        obtain ⟨result, hresult, hspec⟩ := @reorderNested_spec s user access rank move h id parentId hnode
        refine ⟨result, hresult, fun t ht => ?_⟩
        simp only [shown, hparent]
        exact hnode ▸ hspec t ht
    | none =>
      dsimp only
      split
      case isTrue => exact hrefused _
      case isFalse hlist =>
        obtain ⟨checked, hchecked, hspec⟩ := checkAncestors_spec h user move.node.tag?
          "A folder cannot be placed inside itself" move.parentId
        rw [hchecked]
        refine ⟨_, rfl, fun t ht => ?_⟩
        obtain ⟨_, rfl, hplace⟩ := Results.bind_eq_ok.mp ht
        have hallowed := hspec.mp rfl
        cases hnode : move.node with
        | tag id =>
          have hshown : ∀ s' readable', shown s' user readable' move =
              children s' user move.parentId := fun s' readable' => by
            have hnotList : move.listOnly = false := by simpa [hnode, Node.isTag] using hlist
            simp [shown, hparent, hnotList, hnode, Node.isTag]
          rw [hshown]
          simp only [hshown]
          exact hnode ▸ placeTag_spec h hnode hallowed hplace
        | document id =>
          cases hfolder : move.parentId with
          | none =>
            have hshown : ∀ s' readable', shown s' user readable' move = listed s' user readable' :=
                fun s' readable' => by
              simp [shown, hparent, hnode, Node.isTag, hfolder]
            have hreads : move.reads readable = id :: readable.filter (· ≠ id) := by rw [Move.reads, hnode]; rfl
            rw [hshown]
            simp only [hshown, hreads]
            exact hnode ▸ placeListed_spec h hreadable hnode hfolder hplace
          | some folder =>
            have hshown : ∀ s' readable', shown s' user readable' move =
                children s' user move.parentId := fun s' readable' => by
              have hnotList : move.listOnly = false := by simpa [hfolder] using hlist
              simp [shown, hparent, hnotList, hfolder]
            rw [hshown]
            simp only [hshown]
            exact hnode ▸ placeFiled_spec h hnode hfolder (hallowed folder hfolder).1 hplace

/-- Every edit ends, and leaves the rows in order. -/
theorem perform_spec (h : Sound s) (user : UserId) {edit : Edit} (hpossible : possible s edit = true) :
    ∃ result, perform s user edit = some result ∧ ∀ t, result = .ok t → Sound t := by
  cases edit with
  | writeTag data tagId fresh =>
    refine writeTag_spec h user data fun hnone => ?_
    subst hnone
    simpa [possible] using hpossible
  | removeTag tagId confirmed =>
    obtain ⟨result, hresult, hspec⟩ := removeTag_sound h user tagId confirmed
    rw [perform, hresult]
    refine ⟨_, rfl, fun t ht => ?_⟩
    obtain ⟨⟨t', deletion⟩, rfl, rfl⟩ := Results.map_eq_ok.mp ht
    exact hspec t' deletion rfl
  | assignTag => exact ⟨_, rfl, fun t ht => assignTag_sound h ht⟩
  | moveDocument => exact ⟨_, rfl, fun t ht => moveDocument_sound h ht⟩
  | reorder access readable rank move =>
    obtain ⟨result, hresult, hspec⟩ := reorder_spec h user access (of_decide_eq_true hpossible) rank move
    exact ⟨result, hresult, fun t ht => (hspec t ht).1⟩
  | sortChildren parentId rank descending =>
    refine ⟨_, rfl, fun t ht => ?_⟩
    simp only [sortChildren, Results.bind_eq_ok, Results.pure_eq_ok] at ht
    obtain ⟨-, -, rfl⟩ := ht
    exact h.renumber (bare_numberChildren _ _ _)

end Runs
end Galaris.Document.PersonalTree
