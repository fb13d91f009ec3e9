import Galaris.Base.Ancestry
import Galaris.Base.Transition
import Mathlib.Data.List.Dedup

/-! The personal classification of documents (`document/document_tags.py`, `document_nesting.py`, `document_order.py`).

Every user files the documents in folders of their own, hangs them under one another, or puts them at the root, and
orders each of these by hand. An edit is one transaction under the lock of the user's tree (`lock_tree`).

Documents are not deleted here. The code reads siblings through a join with `Document`, which leaves out the rows of
documents that have been deleted since; `children` and `nested` are the rows of live documents. -/
namespace Galaris.Document.PersonalTree

open Transition Ancestry

abbrev UserId := Nat
abbrev TagId := Nat
abbrev DocumentId := Nat

/-- A row of `document_tags`: a folder. -/
structure Tag where
  id : TagId
  userId : UserId
  parentId : Option TagId
  name : String
  position : Nat := 0
  deleted : Bool := false
deriving DecidableEq, Repr

/-- A row of `document_tag_assignments`: a document in a folder. -/
structure Assignment where
  tagId : TagId
  documentId : DocumentId
  position : Nat := 0
deriving DecidableEq, Repr

/-- A row of `document_nesting`: a document under another. -/
structure Nesting where
  userId : UserId
  documentId : DocumentId
  parentDocumentId : DocumentId
  position : Nat := 0
deriving DecidableEq, Repr

/-- A row of `document_list_positions`: the place in the list of all documents, and whether the document is
at the root. -/
structure Placement where
  userId : UserId
  documentId : DocumentId
  position : Nat := 0
  atRoot : Bool := false
deriving DecidableEq, Repr

structure State where
  tags : List Tag := []
  assignments : List Assignment := []
  nestings : List Nesting := []
  placements : List Placement := []
deriving DecidableEq, Repr

inductive Node
  | tag (id : TagId)
  | document (id : DocumentId)
deriving DecidableEq, Repr

def Node.isTag : Node → Bool
  | .tag _ => true
  | .document _ => false

def Node.tag? : Node → Option TagId
  | .tag id => some id
  | .document _ => none

def Node.document? : Node → Option DocumentId
  | .tag _ => none
  | .document id => some id

/-- Why an edit is refused; `forbidden` is what `document_actor` raises. -/
inductive Refusal
  | notFound (message : String)
  | invalid (message : String)
  | forbidden
deriving DecidableEq, Repr

def ensure (condition : Bool) (refusal : Refusal) : Except Refusal Unit := if condition then .ok () else .error refusal

/-! ### Folders -/

def tag? (s : State) (user : UserId) (id : TagId) : Option Tag :=
    s.tags.find? fun tag => tag.id = id && tag.userId = user && !tag.deleted

def requireTag (s : State) (user : UserId) (id : TagId) : Except Refusal Tag :=
  match tag? s user id with
  | some tag => .ok tag
  | none => .error (.notFound "Tag not found")

def ownTags (s : State) (user : UserId) : List TagId :=
    (s.tags.filter fun tag => tag.userId = user && !tag.deleted).map (·.id)

/-- The folder that a folder of the user is in. -/
def above (s : State) (user : UserId) (id : TagId) : Option TagId := (tag? s user id).bind (·.parentId)

/-- The way up from the folder that something is put into; `none` where it takes more turns than there are. -/
def checkAncestors (s : State) (user : UserId) (moving : Option TagId) (message : String) :
    Nat → Option TagId → Option (Except Refusal Unit)
  | _, none => some (.ok ())
  | 0, some _ => none
  | fuel + 1, some id =>
    if moving = some id then some (.error (.invalid message))
    else match tag? s user id with
    | none => some (.error (.notFound "Tag not found"))
    | some tag => checkAncestors s user moving message fuel tag.parentId

/-- The turns of a loop over the folders. -/
def turns (s : State) : Nat := s.tags.length + 1

/-- The greatest of the positions, or 0. -/
def maximum (positions : List Nat) : Nat := positions.foldl max 0

def nextPosition (s : State) (user : UserId) (parentId : Option TagId) : Nat :=
  max (maximum ((s.tags.filter fun tag => tag.userId = user && !tag.deleted &&
    tag.parentId = parentId).map (·.position)))
    (maximum ((s.assignments.filter fun assignment => some assignment.tagId = parentId).map (·.position))) + 1

def putTag (tag : Tag) (s : State) : State :=
    {s with tags := s.tags.map fun row => if row.id = tag.id then tag else row}

/-- `DocumentTagWrite`. -/
structure TagWrite where
  name : String
  parentId : Option TagId
deriving DecidableEq, Repr

/-- `write_tag`: the folder `tagId`, or a new one with the identifier that is drawn. -/
def writeTag (s : State) (user : UserId) (data : TagWrite) (tagId : Option TagId) (fresh : TagId) :
    Option (Except Refusal State) :=
  match tagId.mapM (requireTag s user) with
  | .error refusal => some (.error refusal)
  | .ok tag =>
    (checkAncestors s user tagId "A tag cannot be placed inside itself" (turns s) data.parentId).map
        fun checked => checked.map fun _ =>
      match tag with
      | none => {s with tags := s.tags ++ [{
          id := fresh, userId := user, parentId := data.parentId, name := data.name
          position := nextPosition s user data.parentId}]}
      | some tag => putTag {tag with
          name := data.name
          parentId := data.parentId
          position := if tag.parentId = data.parentId then tag.position else nextPosition s user data.parentId} s

/-- `DocumentTagDeletionResult`. -/
structure Deletion where
  deleted : Bool
  tagCount : Nat
  documentCount : Nat
deriving DecidableEq, Repr

/-- `remove_tag`: the folder with all that is below it. -/
def removeTag (s : State) (user : UserId) (tagId : TagId) (confirmed : Bool) :
    Option (Except Refusal (State × Deletion)) :=
  match requireTag s user tagId with
  | .error refusal => some (.error refusal)
  | .ok _ => (below (above s user) (ownTags s user) (turns s) [tagId]).map fun branch =>
    let affected := ((s.assignments.filter (·.tagId ∈ branch)).map (·.documentId)).dedup
    if !confirmed && (decide (1 < branch.length) || decide (0 < affected.length))
      then .ok (s, ⟨false, branch.length, affected.length⟩)
    else .ok ({s with
      assignments := s.assignments.filter fun assignment =>
        !(assignment.documentId ∈ affected && assignment.tagId ∈ ownTags s user)
      tags := s.tags.map fun tag => if tag.id ∈ branch then {tag with deleted := true} else tag},
        ⟨true, branch.length, affected.length⟩)

/-! ### The place of a document -/

/-- `clear_parent`. -/
def clearParent (user : UserId) (documentId : DocumentId) (s : State) : State :=
  {s with nestings := s.nestings.filter fun nesting => !(nesting.userId = user && nesting.documentId = documentId)}

/-- The document leaves the folders of the user. -/
def unassign (user : UserId) (documentId : DocumentId) (s : State) : State :=
  {s with assignments := s.assignments.filter fun assignment =>
    !(assignment.documentId = documentId && assignment.tagId ∈ ownTags s user)}

def placement? (s : State) (user : UserId) (documentId : DocumentId) : Option Placement :=
  s.placements.find? fun placement => placement.userId = user && placement.documentId = documentId

/-- `set_root_placement`. -/
def setRootPlacement (user : UserId) (documentId : DocumentId) (atRoot : Bool) (s : State) : State :=
  if (placement? s user documentId).isSome then
    {s with placements := s.placements.map fun placement =>
      if placement.userId = user ∧ placement.documentId = documentId then {placement with atRoot} else placement}
  else if atRoot then {s with placements := s.placements ++ [{userId := user, documentId, atRoot := true}]}
  else s

/-- A new row of `document_tag_assignments`. -/
def assign (user : UserId) (documentId : DocumentId) (tagId : TagId) (s : State) : State :=
  {s with assignments := s.assignments ++ [⟨tagId, documentId, nextPosition s user (some tagId)⟩]}

/-- `assign_tag`; `access` says which documents `document_actor` admits. -/
def assignTag (s : State) (user : UserId) (access : DocumentId → Bool) (documentId : DocumentId)
    (tagId : TagId) (remove : Bool) : Except Refusal State := do
  let _ ← requireTag s user tagId
  ensure (access documentId) .forbidden
  let existing := s.assignments.any fun assignment => assignment.tagId = tagId && assignment.documentId = documentId
  if remove then
    return {s with assignments := s.assignments.filter fun assignment =>
      !(assignment.tagId = tagId && assignment.documentId = documentId)}
  else
    let cleared := clearParent user documentId s
    return setRootPlacement user documentId false (if existing then cleared else assign user documentId tagId cleared)

/-- `move_document`. -/
def moveDocument (s : State) (user : UserId) (access : DocumentId → Bool) (documentId : DocumentId)
    (tagId : Option TagId) (atRoot : Bool) : Except Refusal State := do
  ensure (!(atRoot && tagId.isSome)) (.invalid "Root placement cannot have a folder")
  let _ ← tagId.mapM (requireTag s user)
  ensure (access documentId) .forbidden
  let cleared := unassign user documentId (clearParent user documentId s)
  return setRootPlacement user documentId atRoot (tagId.elim cleared fun id => assign user documentId id cleared)

/-! ### Documents under documents -/

/-- The document that a document is under. -/
def parentOf (s : State) (user : UserId) (documentId : DocumentId) : Option DocumentId :=
  (s.nestings.find? fun nesting => nesting.userId = user && nesting.documentId = documentId).map (·.parentDocumentId)

/-- `validate_parent`; `none` where the way up takes more turns than there are. -/
def validateParent (s : State) (user : UserId) (access : DocumentId → Bool)
    (documentId parentId : DocumentId) : Option (Except Refusal Unit) :=
  if !access documentId || !access parentId then some (.error .forbidden)
  else (climbSeen (parentOf s user) (s.nestings.length + 1) [documentId] parentId).map fun ends =>
    if ends then .ok () else .error (.invalid "A document cannot be placed inside itself or one of its descendants")

/-! ### Order -/

/-- Rows in the order of their positions; `rank` orders titles, and identifiers where titles are the same. -/
def sorted (rank : Node → Nat) (rows : List (Node × Nat)) : List Node :=
  (rows.mergeSort fun row row' => decide (row.2 < row'.2) || decide (row.2 = row'.2) &&
    decide (rank row.1 ≤ rank row'.1)).map (·.1)

/-- The folders and documents in a folder of the user; at the top, the folders. -/
def children (s : State) (user : UserId) (parentId : Option TagId) : List (Node × Nat) :=
  (s.tags.filter fun tag => tag.userId = user && !tag.deleted && tag.parentId = parentId).map
    (fun tag => (.tag tag.id, tag.position)) ++
    (s.assignments.filter fun assignment => some assignment.tagId = parentId).map fun assignment =>
    (.document assignment.documentId, assignment.position)

/-- The list of the documents that the user may read. -/
def listed (s : State) (user : UserId) (readable : List DocumentId) : List (Node × Nat) :=
  readable.map fun id => (.document id, (placement? s user id).elim 0 (·.position))

/-- The documents under a document. -/
def nested (s : State) (user : UserId) (parentId : DocumentId) : List (Node × Nat) :=
  (s.nestings.filter fun nesting => nesting.userId = user && nesting.parentDocumentId =
    parentId).map fun nesting => (.document nesting.documentId, nesting.position)

/-- The siblings with the node beside the anchor, or last. -/
def insertNear (access : DocumentId → Bool) (siblings : List Node) (node : Node)
    (anchor : Option Node) (after : Bool) (own gone : String) : Except Refusal (List Node) :=
  match anchor with
  | none => .ok (siblings ++ [node])
  | some anchor =>
    if anchor = node then .error (.invalid own)
    else if anchor.document?.any (!access ·) then .error .forbidden
    else match siblings.idxOf? anchor with
    | none => .error (.invalid gone)
    | some index => .ok (siblings.take (index + after.toNat) ++ node :: siblings.drop (index + after.toNat))

/-- Manual positioning never places a document before a folder. -/
def foldersFirst (order : List Node) : List Node := order.filter (·.isTag) ++ order.filter (!·.isTag)

/-- The position that a node gets. -/
def positionIn (order : List Node) (node : Node) : Nat := order.idxOf node + 1

/-- The children of a folder are numbered in order. -/
def numberChildren (parentId : Option TagId) (order : List Node) (s : State) : State :=
  {s with
    tags := s.tags.map fun tag =>
      if .tag tag.id ∈ order then {tag with position := positionIn order (.tag tag.id)} else tag
    assignments := s.assignments.map fun assignment =>
      if some assignment.tagId = parentId ∧
        .document assignment.documentId ∈ order then {assignment with
        position := positionIn order (.document assignment.documentId)} else assignment}

/-- The documents of a list are numbered in order; each gets a row. -/
def numberList (user : UserId) (order : List Node) (s : State) : State :=
  {s with placements :=
    s.placements.map (fun placement =>
      if placement.userId = user ∧ .document placement.documentId ∈ order then {placement with
        position := positionIn order (.document placement.documentId)} else placement) ++
    ((order.filterMap (·.document?)).filter fun id => (placement? s user id).isNone).map fun id =>
      {userId := user, documentId := id, position := positionIn order (.document id)}}

/-- The documents under a document are numbered in order. -/
def numberNested (user : UserId) (parentId : DocumentId) (order : List Node) (s : State) : State :=
  {s with nestings := s.nestings.map fun nesting =>
    if nesting.userId = user ∧ nesting.parentDocumentId = parentId ∧ .document nesting.documentId ∈
      order then {nesting with position := positionIn order (.document nesting.documentId)}
    else nesting}

/-- `DocumentOrderMove`. -/
structure Move where
  node : Node
  parentId : Option TagId := none
  parentDocumentId : Option DocumentId := none
  listOnly : Bool := false
  atRoot : Bool := false
  anchor : Option Node := none
  after : Bool := false
deriving DecidableEq, Repr

/-- Its validator. -/
def Move.validate (move : Move) : Except Refusal Unit :=
  if move.atRoot && (move.parentId.isSome || move.parentDocumentId.isSome || move.listOnly || move.node.isTag) then
    .error (.invalid "Root placement only accepts documents without a parent")
  else if move.parentDocumentId.isSome && (move.parentId.isSome || move.listOnly || move.node.isTag) then
    .error (.invalid "A document parent only accepts documents outside the flat list")
  else .ok ()

/-- `document_nesting.reorder`. -/
def reorderNested (s : State) (user : UserId) (access : DocumentId → Bool) (rank : Node → Nat)
    (move : Move) (documentId parentId : DocumentId) :
    Option (Except Refusal State) :=
  (validateParent s user access documentId parentId).map fun checked => do
    checked
    ensure (!move.anchor.any (·.isTag)) (.invalid "Invalid document anchor")
    let siblings := sorted rank ((nested s user parentId).filter (·.1 ≠ .document documentId))
    let order ← insertNear access siblings (.document documentId) move.anchor move.after
      "Invalid document anchor" "The anchor is no longer under this document"
    let cleared := unassign user documentId (setRootPlacement user documentId false (clearParent user documentId s))
    return numberNested user parentId order {cleared with
      nestings := cleared.nestings ++ [{userId := user, documentId, parentDocumentId := parentId}]}

/-- The part of `document_order.reorder` after its way up from the folder. -/
def place (s : State) (user : UserId) (access : DocumentId → Bool) (readable : List DocumentId)
    (rank : Node → Nat) (move : Move) : Except Refusal State :=
  match move.node with
  | .tag id => do
    let tag ← requireTag s user id
    let siblings := sorted rank ((children s user move.parentId).filter (·.1 ≠ move.node))
    let order ← insertNear access siblings move.node move.anchor move.after
      "A node cannot be its own anchor" "The anchor is no longer in this folder"
    return numberChildren move.parentId (foldersFirst order) (putTag {tag with parentId := move.parentId} s)
  | .document id =>
    if !access id then .error .forbidden
    else match move.parentId with
    | none => do
      let siblings := sorted rank (listed s user (readable.filter (· ≠ id)))
      let order ← insertNear access siblings move.node move.anchor move.after
        "A node cannot be its own anchor" "The anchor is no longer in this folder"
      if move.listOnly then return numberList user order s
      else return setRootPlacement user id move.atRoot (numberList user order (unassign user id (clearParent user id s)))
    | some parentId => do
      let siblings := sorted rank ((children s user (some parentId)).filter (·.1 ≠ move.node))
      let order ← insertNear access siblings move.node move.anchor move.after
        "A node cannot be its own anchor" "The anchor is no longer in this folder"
      let cleared := unassign user id (setRootPlacement user id false (clearParent user id s))
      return numberChildren (some parentId) (foldersFirst order)
        {cleared with assignments := cleared.assignments ++ [⟨parentId, id, 0⟩]}

/-- `document_order.reorder`. -/
def reorder (s : State) (user : UserId) (access : DocumentId → Bool) (readable : List DocumentId)
    (rank : Node → Nat) (move : Move) : Option (Except Refusal State) :=
  match move.validate with
  | .error refusal => some (.error refusal)
  | .ok _ =>
    match move.parentDocumentId, move.node with
    | some parentId, .document id => reorderNested s user access rank move id parentId
    | some _, .tag _ => some (.error (.invalid "Expected a document parent"))
    | none, _ =>
      if move.listOnly && (move.parentId.isSome || move.node.isTag)
        then some (.error (.invalid "List ordering only accepts documents without a parent"))
      else (checkAncestors s user move.node.tag? "A folder cannot be placed inside itself" (turns s) move.parentId).map
        fun checked => checked.bind fun _ => place s user access readable rank move

/-- `sort_children`; `rank` orders the titles without their accents, and then the identifiers. -/
def sortChildren (s : State) (user : UserId) (parentId : Option TagId) (rank : Node → Nat)
    (descending : Bool) : Except Refusal State := do
  let _ ← parentId.mapM (requireTag s user)
  let ordered := ((children s user parentId).map (·.1)).mergeSort fun node node' =>
    if descending then rank node' ≤ rank node else rank node ≤ rank node'
  return numberChildren parentId (foldersFirst ordered) s

/-! ### Runs -/

inductive Edit
  | writeTag (data : TagWrite) (tagId : Option TagId) (fresh : TagId)
  | removeTag (tagId : TagId) (confirmed : Bool)
  | assignTag (access : DocumentId → Bool) (documentId : DocumentId) (tagId : TagId) (remove : Bool)
  | moveDocument (access : DocumentId → Bool) (documentId : DocumentId) (tagId : Option TagId) (atRoot : Bool)
  | reorder (access : DocumentId → Bool) (readable : List DocumentId) (rank : Node → Nat) (move : Move)
  | sortChildren (parentId : Option TagId) (rank : Node → Nat) (descending : Bool)

/-- An edit of a user; `none` where a loop of it does not end. -/
def perform (s : State) (user : UserId) : Edit → Option (Except Refusal State)
  | .writeTag data tagId fresh => writeTag s user data tagId fresh
  | .removeTag tagId confirmed => (removeTag s user tagId confirmed).map fun result => result.map (·.1)
  | .assignTag access documentId tagId remove => some (assignTag s user access documentId tagId remove)
  | .moveDocument access documentId tagId atRoot => some (moveDocument s user access documentId tagId atRoot)
  | .reorder access readable rank move => reorder s user access readable rank move
  | .sortChildren parentId rank descending => some (sortChildren s user parentId rank descending)

/-- The identifier of a new folder is not that of another; what may be read is listed once. -/
def possible (s : State) : Edit → Bool
  | .writeTag _ tagId fresh => tagId.isSome || s.tags.all (·.id ≠ fresh)
  | .reorder _ readable _ _ => decide readable.Nodup
  | _ => true

/-- What is refused changes nothing. -/
def apply (s : State) (edit : UserId × Edit) : Option State :=
  if possible s edit.2 then (perform s edit.1 edit.2).map fun result =>
    match result with
    | .ok t => t
    | .error _ => s
  else none

abbrev Happens : State → UserId × Edit → State → Prop := Executes apply

end Galaris.Document.PersonalTree
