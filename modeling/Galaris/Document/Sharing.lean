import Galaris.Base.Propagation
import Galaris.Base.Search
import Mathlib.Data.List.AList
import Mathlib.Algebra.Order.Ring.Nat
import Mathlib.Order.Lattice.Nat

/-! Inherited sharing of documents and folders (`app/document/sharing_inheritance.py`).

The authoritative sharing of an item is its own intent. `reconcile_sharing` rebuilds what is
effective from the intents and the placements: it derives the edges along which an owner
shares, propagates the policies along them with a work queue, and writes the result into the
sharing tables (`_project`).

Dictionaries are association lists without double keys, compared by what they look up. -/
namespace Galaris.Documents

abbrev Id := Nat

inductive PrincipalKind
  | agent | user | team
deriving DecidableEq, Repr

abbrev Principal := PrincipalKind × Nat

abbrev Grants := AList fun _ : Principal => Bool

/-- Equality of two dictionaries. -/
def sameGrants (a b : Grants) : Bool := (a.keys ++ b.keys).all fun key => a.lookup key == b.lookup key

/-- `grants[key] = grants.get(key, False) or write`. -/
def Grants.allow (grants : Grants) (key : Principal) (write : Bool) : Grants :=
  grants.insert key ((grants.lookup key).getD false || write)

/-- Without the entries that `keep` refuses. -/
def Grants.keep (grants : Grants) (keep : Principal → Bool) : Grants :=
  (grants.keys.filter fun key => !keep key).foldl (fun grants key => grants.erase key) grants

/-- The own sharing of an item; a level is 0 (none), 1 (read) or 2 (write). -/
structure Intent where
  globalAccess : Nat
  groupAccess : Nat
  grants : Grants

/-- The effective sharing, without its grants. -/
structure Config where
  globalAccess : Nat
  groupAccess : Nat
  revision : Nat
deriving DecidableEq

inductive Visibility
  | private' | shared
deriving DecidableEq, Repr

inductive Kind
  | document (readOnly : Bool) (documentType : String) (visibility : Visibility)
  | folder (parent : Option Id)
deriving DecidableEq, Repr

structure Item where
  identity : Id
  shareId : Id
  user : Option Nat
  agent : Option Nat
  kind : Kind
  lockVersion : Nat
deriving DecidableEq, Repr

namespace Item

/-- Text and data share documentary inheritance; processes keep their own sharing. -/
def inherits (item : Item) : Bool :=
  match item.kind with
  | .document _ documentType _ => ["text", "html", "data"].contains documentType
  | .folder _ => true

/-- An editable document or a folder. -/
def shareable (item : Item) : Bool :=
  match item.kind with
  | .document readOnly _ _ => !readOnly
  | .folder _ => true

def isFolder (item : Item) : Bool :=
  match item.kind with
  | .document _ _ _ => false
  | .folder _ => true

end Item

/-- The tables that are read. The items are the documents and folders; their identities and the
configurations they refer to are unique. -/
structure Database where
  items : List Item
  /-- The user of an agent. -/
  agentUser : Nat → Option Nat
  principals : List Principal
  userTeams : List (Nat × Nat)
  agentTeams : List (Nat × Nat)
  /-- The folder and the document of an assignment. -/
  assignments : List (Id × Id)
  /-- The user, the parent and the document of a nesting. -/
  nestings : List (Nat × Id × Id)
  config : Id → Config
  grants : Id → Grants
  intent : Id → Option Intent
  identities : (items.map (·.identity)).Nodup
  shares : (items.map (·.shareId)).Nodup

/-! ### Policies -/

structure Policy where
  shareId : Id
  ownerUser : Option Nat
  ownGroup : Nat
  «public» : Nat
  grants : Grants
  inherited : Grants

instance : Inhabited Policy := ⟨⟨0, none, 0, 0, ∅, ∅⟩⟩

namespace Policy

/-- The principal is new, or may write now. -/
def gains (policy : Policy) (key : Principal) (write : Bool) : Bool :=
  match policy.grants.lookup key with
  | none => true
  | some before => write && !before

/-- One grant of the source. -/
def receive (result : Policy × Bool) (entry : Sigma fun _ : Principal => Bool) : Policy × Bool :=
  let policy := {result.1 with inherited := result.1.inherited.allow entry.1 entry.2}
  if result.1.gains entry.1 entry.2 then ({policy with grants := policy.grants.insert entry.1 entry.2}, true)
  else (policy, result.2)

/-- `Policy.merge`, with whether it changed the policy. -/
def merge (policy source : Policy) : Policy × Bool :=
  source.grants.entries.foldl receive
    ({policy with «public» := max policy.public source.public}, policy.public < source.public)

end Policy

namespace Database
variable (db : Database)

/-- The own sharing: the intent, or what is effective for an item without intent; principals that
are gone are dropped. -/
def own (shareId : Id) : Intent :=
  let intent := (db.intent shareId).getD
    ⟨(db.config shareId).globalAccess, (db.config shareId).groupAccess, db.grants shareId⟩
  {intent with grants := Grants.keep intent.grants fun key => decide (key ∈ db.principals)}

def ownerUser (item : Item) : Option Nat := item.user.or (item.agent.bind db.agentUser)

/-- The live teams of the owner. -/
def memberships (item : Item) : List Nat :=
  match item.user, item.agent with
  | some user, _ => (db.userTeams.filter fun row => row.1 = user).map (·.2)
  | none, some agent => (db.agentTeams.filter fun row => row.1 = agent).map (·.2)
  | none, none => []

/-- The policy of an item before the propagation: its own grants, and those of the owner's teams. -/
def policy (item : Item) : Policy :=
  let intent := db.own item.shareId
  { shareId := item.shareId
    ownerUser := db.ownerUser item
    ownGroup := intent.groupAccess
    «public» := intent.globalAccess
    grants :=
      if intent.groupAccess = 0 then intent.grants
      else (db.memberships item).foldl
        (fun grants team => Grants.allow grants (.team, team) (intent.groupAccess == 2)) intent.grants
    inherited := ∅ }

/-- The items that take part, in the order of their rows. -/
def policyItems : List Item := db.items.filter (·.inherits)

def item? (identity : Id) : Option Item := db.policyItems.find? (·.identity = identity)

def policies (identity : Id) : Policy := ((db.item? identity).map db.policy).getD default

/-! ### Placements -/

def folderUser (identity : Id) : Option Nat :=
  (db.items.find? fun item => item.isFolder && item.identity = identity).bind (·.user)

/-- The placements of the folders: in a folder that is there. -/
def folderPlacements : List (Nat × Id × Id) :=
  db.items.filterMap fun item =>
    match item.kind, item.user with
    | .folder (some parent), some user =>
      if db.items.any fun other =>
        other.isFolder && other.identity = parent then some (user, parent, item.identity) else none
    | _, _ => none

def assignmentPlacements : List (Nat × Id × Id) :=
  db.assignments.filterMap fun row => (db.folderUser row.1).map fun user => (user, row.1, row.2)

/-- Who placed what in what. -/
def placements : List (Nat × Id × Id) := db.folderPlacements ++ db.assignmentPlacements ++ db.nestings

/-- The placements of one user, as parent and child. -/
def placedBy (user : Nat) : List (Id × Id) := (db.placements.filter fun row => row.1 = user).map (·.2)

/-- The user owns the item, and may share it. -/
def gives (user : Nat) (identity : Id) : Bool :=
  (db.item? identity).any fun item => db.ownerUser item == some user && item.shareable

/-- The items that share with `parent`: what its owner placed below it, through items that are
received or read-only. -/
def edges (parent : Id) : List Id :=
  match (db.item? parent).bind db.ownerUser with
  | some user =>
    if db.gives user parent then
      let children := Search.targets (db.placedBy user) parent
      Search.gather (db.placedBy user) (db.gives user) (children.length + (db.placedBy user).length + 1)
        children.reverse [parent]
    else []
  | none => []

/-! ### `reconcile_sharing` -/

/-- The end of the work queue. -/
def propagated : Propagation.State Id Policy :=
  Propagation.run Policy.merge db.edges (db.policyItems.length + db.policyItems.length * db.policyItems.length)
    ⟨db.policies, db.policyItems.map (·.identity)⟩

/-- The effective grants of an item: its own and those it inherits. -/
def effective (policy : Policy) : Grants :=
  policy.inherited.entries.foldl (fun grants entry => Grants.allow grants entry.1 entry.2)
    (db.own policy.shareId).grants

/-- The rows of the grants once `_project` wrote them. -/
def projectRows (current grants : Grants) : Grants := grants ∪ Grants.keep current fun key => decide (key ∈ grants)

/-- The configuration and the grants of a share are as expected already. -/
def projected (policy : Policy) : Bool :=
  (db.config policy.shareId).globalAccess == policy.public &&
    (db.config policy.shareId).groupAccess == policy.ownGroup &&
    sameGrants (db.grants policy.shareId) (db.effective policy)

/-- `_project`. -/
def project (policy : Policy) : Config × Grants :=
  let config := db.config policy.shareId
  if db.projected policy then (config, db.grants policy.shareId)
  else (⟨policy.public, policy.ownGroup, config.revision + 1⟩,
    projectRows (db.grants policy.shareId) (db.effective policy))

def expectedVisibility (policy : Policy) : Visibility :=
  if policy.public ≠ 0 || policy.ownGroup ≠ 0 || !(db.effective policy).keys.isEmpty then .shared else .private'

/-- The visibility of a document that differs from its sharing. -/
def visibilityDrift (item : Item) (policy : Policy) : Bool :=
  match item.kind with
  | .document _ _ visibility => visibility ≠ db.expectedVisibility policy
  | .folder _ => false

/-- The item once its sharing is written; one that changed gets a new version. -/
def rewritten (item : Item) (policy : Policy) : Item :=
  if db.projected policy && !db.visibilityDrift item policy then item
  else
    { item with
      lockVersion := item.lockVersion + 1
      kind := match item.kind with
        | .document readOnly documentType _ => .document readOnly documentType (db.expectedVisibility policy)
        | .folder parent => .folder parent }

/-- The policy of an item at the end of the propagation. -/
def final (item : Item) : Policy := db.propagated.at' item.identity

/-- The item with this configuration, if it takes part. -/
def shareItem? (shareId : Id) : Option Item := db.policyItems.find? (·.shareId = shareId)

theorem rewritten_identity (item : Item) (policy : Policy) : (db.rewritten item policy).identity = item.identity := by
  unfold rewritten
  split <;> rfl

theorem rewritten_shareId (item : Item) (policy : Policy) : (db.rewritten item policy).shareId = item.shareId := by
  unfold rewritten
  split <;> rfl

/-- `reconcile_sharing`. -/
def reconcile : Database :=
  { db with
    items := db.items.map fun item => if item.inherits then db.rewritten item (db.final item) else item
    config := fun shareId => ((db.shareItem? shareId).map fun item =>
      (db.project (db.final item)).1).getD (db.config shareId)
    grants := fun shareId => ((db.shareItem? shareId).map fun item =>
      (db.project (db.final item)).2).getD (db.grants shareId)
    intent := fun shareId => ((db.shareItem? shareId).map fun item => db.own item.shareId).or (db.intent shareId)
    identities := by
      rw [List.map_map]
      convert db.identities using 2
      funext item
      simp only [Function.comp_apply]
      split
      · exact db.rewritten_identity item _
      · rfl
    shares := by
      rw [List.map_map]
      convert db.shares using 2
      funext item
      simp only [Function.comp_apply]
      split
      · exact db.rewritten_shareId item _
      · rfl }

/-- How many items `reconcile_sharing` says it changed. -/
def changed : Nat :=
  (db.policyItems.filter fun item => !db.projected (db.final item) || db.visibilityDrift item (db.final item)).length

end Database

end Galaris.Documents
