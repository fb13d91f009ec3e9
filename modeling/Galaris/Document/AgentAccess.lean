import Mathlib.Data.Finset.Sort
import Mathlib.Data.List.AList

/-! Which agents may read and write a document (`document/access.py`).

`managed_item_agent_ids` answers in memory where it is given the rights by team, and asks the
database otherwise. Both add up the same four rights (`mem_readable`, `mem_writable`), but only the
clauses of the database ask for the policy of the document, so they agree except on the processes that
nobody owns any more (`agrees_iff`). -/
namespace Galaris.Document.AgentAccess

abbrev AgentId := Nat
abbrev UserId := Nat
abbrev TeamId := Nat
abbrev ShareId := Nat
abbrev DocumentId := Nat

structure Agent where
  id : AgentId
  deleted : Bool

structure User where
  id : UserId
  isActive : Bool

structure Team where
  id : TeamId
  deleted : Bool

/-- `ShareGrant`, of one principal. -/
structure Grant where
  shareId : ShareId
  agentId : Option AgentId
  userId : Option UserId
  teamId : Option TeamId
  canWrite : Bool

inductive StoredType
  | text | data | html | dataset | process | form
  deriving DecidableEq

/-- A `Document`, with the levels of its share. -/
structure Item where
  id : DocumentId
  shareId : ShareId
  storedType : StoredType
  ownerAgent : Option AgentId
  ownerUser : Option UserId
  globalAccess : Nat
  groupAccess : Nat
  readOnly : Bool
  deleted : Bool

/-- The tables that the access depends on; a membership is a team with its member. -/
structure Database where
  agents : List Agent
  users : List User
  teams : List Team
  agentTeams : List (TeamId × AgentId)
  teamUsers : List (TeamId × UserId)
  documents : List Item
  grants : List Grant

/-- `document_type`. -/
def Item.type (item : Item) : StoredType :=
  if item.storedType = .html ∨ item.storedType = .form then .text else item.storedType

section Access
variable (db : Database)

/-- `owner_team_clause`. -/
def ownerTeamClause (team : TeamId) (item : Item) : Bool :=
  (db.agentTeams.any fun member => member.1 == team && some member.2 == item.ownerAgent) ||
    db.teamUsers.any fun member => member.1 == team && some member.2 == item.ownerUser

/-- A row of `document_team_permissions`. -/
structure Permission where
  item : DocumentId
  team : TeamId
  canWrite : Bool

/-- The teams that a document is shared with. -/
def explicitTeams (item : Item) : List Permission :=
  (db.grants.filter (·.shareId == item.shareId)).flatMap fun grant =>
    (db.teams.filter fun team => some team.id == grant.teamId && !team.deleted).map fun team =>
      ⟨item.id, team.id, grant.canWrite⟩

/-- The teams of the owner. -/
def inheritedTeams (item : Item) : List Permission :=
  (db.teams.filter fun team => ownerTeamClause db team.id item && decide (0 < item.groupAccess) &&
    !item.deleted && !team.deleted).map
    fun team => ⟨item.id, team.id, item.groupAccess == 2⟩

/-- `document_team_permissions`, of the given documents or of all. -/
def documentTeamPermissions (items : Option (List DocumentId)) : List Permission :=
  let asked := db.documents.filter fun item => items.elim true (·.contains item.id)
  asked.flatMap (explicitTeams db) ++ asked.flatMap (inheritedTeams db)

/-- `agent_team_grant_clause`, of one agent. -/
def agentTeamGrantClause (agent : AgentId) (item : Item) (write : Bool) : Bool :=
  (documentTeamPermissions db none).any fun permission =>
    permission.item == item.id && (!write || permission.canWrite) &&
    db.agentTeams.any fun member => member.1 == permission.team && member.2 == agent &&
      db.agents.any fun row => row.id == member.2 && !row.deleted

/-- `orphan_process_clause`. -/
def orphanProcessClause (item : Item) : Bool :=
  item.type == .process && !((db.agents.any fun row => some row.id == item.ownerAgent && !row.deleted) ||
    db.users.any fun row => some row.id == item.ownerUser && row.isActive)

/-- `document_policy_clause`, of nobody. -/
def documentPolicyClause (item : Item) : Bool := !orphanProcessClause db item

/-- The rights that are added up in the clauses. -/
def rights (item : Item) (agent : AgentId) (write : Bool) : Bool :=
  item.ownerAgent == some agent || (if write then item.globalAccess == 2 else decide (1 ≤ item.globalAccess)) ||
    (db.grants.any fun grant => grant.shareId == item.shareId && grant.agentId == some agent &&
      (!write || grant.canWrite)) ||
    agentTeamGrantClause db agent item write

def readableItemClause (item : Item) (agent : AgentId) : Bool :=
    documentPolicyClause db item && rights db item agent false

def writableItemClause (item : Item) (agent : AgentId) : Bool :=
    documentPolicyClause db item && !item.readOnly && rights db item agent true

abbrev TeamAccess := AList fun _ : AgentId => Bool

/-- `current[agent_id] = current.get(agent_id, False) or can_write`. -/
def TeamAccess.allow (current : TeamAccess) (agent : AgentId) (canWrite : Bool) : TeamAccess :=
  current.insert agent ((current.lookup agent).getD false || canWrite)

/-- The rows of `document_team_agent_access`. -/
def teamAgentRows (items : List DocumentId) : List (DocumentId × AgentId × Bool) :=
  (documentTeamPermissions db (some items)).flatMap fun permission =>
      (db.agentTeams.filter (·.1 == permission.team)).flatMap fun member =>
    (db.agents.filter fun row => row.id == member.2 && !row.deleted).map fun row =>
      (permission.item, row.id, permission.canWrite)

def collect (result : AList fun _ : DocumentId => TeamAccess) (row : DocumentId × AgentId × Bool) :
    AList fun _ : DocumentId => TeamAccess :=
  result.insert row.1 (((result.lookup row.1).getD ∅).allow row.2.1 row.2.2)

/-- `document_team_agent_access`. -/
def documentTeamAgentAccess (items : List DocumentId) : AList fun _ : DocumentId => TeamAccess :=
  (teamAgentRows db items).foldl collect ∅

/-- The agents that may read, and those that may write. -/
abbrev Sets := Finset AgentId × Finset AgentId

/-- A right of an agent, where it is a candidate. -/
def grantTo (candidates : Finset AgentId) (sets : Sets) (agent : AgentId) (canWrite : Bool) : Sets :=
  if agent ∈ candidates then (insert agent sets.1, if canWrite then insert agent sets.2 else sets.2) else sets

def everyone (item : Item) (candidates : Finset AgentId) : Sets :=
  (if 1 ≤ item.globalAccess then candidates else ∅, if item.globalAccess = 2 then candidates else ∅)

def withOwner (item : Item) (candidates : Finset AgentId) (sets : Sets) : Sets :=
  item.ownerAgent.elim sets fun agent => grantTo candidates sets agent true

def withGrants (item : Item) (candidates : Finset AgentId) (sets : Sets) : Sets :=
  (db.grants.filter (·.shareId == item.shareId)).foldl
    (fun sets grant => grant.agentId.elim sets fun agent => grantTo candidates sets agent grant.canWrite) sets

def withTeams (candidates : Finset AgentId) (teamAccess : TeamAccess) (sets : Sets) : Sets :=
  teamAccess.entries.foldl (fun sets entry => grantTo candidates sets entry.1 entry.2) sets

/-- `managed_item_agent_ids`, given the rights by team. -/
def managedInMemory (item : Item) (candidates : Finset AgentId) (teamAccess : TeamAccess) :
    List AgentId × List AgentId :=
  let sets := withTeams candidates teamAccess
    (withGrants db item candidates (withOwner item candidates (everyone item candidates)))
  (sets.1.sort (· ≤ ·), if item.readOnly then [] else sets.2.sort (· ≤ ·))

/-- `managed_item_agent_ids`, from the clauses. -/
def managedFromClauses (item : Item) (candidates : Finset AgentId) : List AgentId × List AgentId :=
  let rows := (db.agents.filter fun row => decide (row.id ∈ candidates)).map (·.id)
  (rows.filter (readableItemClause db item), rows.filter (writableItemClause db item))

/-! ### The rights by team -/

variable {db}

theorem mem_documentTeamPermissions {items : Option (List DocumentId)} {permission : Permission} :
    permission ∈ documentTeamPermissions db items ↔ ∃ item ∈ db.documents, items.elim true (·.contains item.id) = true ∧
      (permission ∈ explicitTeams db item ∨ permission ∈ inheritedTeams db item) := by
  simp only [documentTeamPermissions, List.mem_append, List.mem_flatMap, List.mem_filter]
  constructor
  · rintro (⟨item, ⟨hitem, hasked⟩, h⟩ | ⟨item, ⟨hitem, hasked⟩, h⟩)
    · exact ⟨item, hitem, hasked, .inl h⟩
    · exact ⟨item, hitem, hasked, .inr h⟩
  · rintro ⟨item, hitem, hasked, h | h⟩
    · exact .inl ⟨item, ⟨hitem, hasked⟩, h⟩
    · exact .inr ⟨item, ⟨hitem, hasked⟩, h⟩

theorem permission_item {item : Item} {permission : Permission}
    (h : permission ∈ explicitTeams db item ∨ permission ∈ inheritedTeams db item) :
    permission.item = item.id := by
  obtain h | h := h
  · obtain ⟨grant, -, h⟩ := List.mem_flatMap.mp h
    obtain ⟨team, -, rfl⟩ := List.mem_map.mp h
    rfl
  · obtain ⟨team, -, rfl⟩ := List.mem_map.mp h
    rfl

/-- The permissions of one document are those among all. -/
theorem mem_permissions_of (id : DocumentId) {permission : Permission} :
    permission ∈ documentTeamPermissions db (some [id]) ↔
        permission ∈ documentTeamPermissions db none ∧ permission.item = id := by
  rw [mem_documentTeamPermissions, mem_documentTeamPermissions]
  constructor
  · rintro ⟨item, hitem, hasked, h⟩
    have hid : item.id = id := by simpa using hasked
    exact ⟨⟨item, hitem, rfl, h⟩, (permission_item h).trans hid⟩
  · rintro ⟨⟨item, hitem, -, h⟩, hid⟩
    have hsame : item.id = id := (permission_item h).symm.trans hid
    exact ⟨item, hitem, by simp [hsame], h⟩

/-- An agent has a right by team: some team of the agent has it. -/
def ByTeam (db : Database) (item : Item) (agent : AgentId) (write : Bool) : Prop :=
  ∃ permission ∈ documentTeamPermissions db none, permission.item = item.id ∧
    (write = true → permission.canWrite = true) ∧
    (permission.team, agent) ∈ db.agentTeams ∧ ∃ row ∈ db.agents, row.id = agent ∧ row.deleted = false

theorem agentTeamGrantClause_iff {agent : AgentId} {item : Item} {write : Bool} :
    agentTeamGrantClause db agent item write = true ↔ ByTeam db item agent write := by
  simp only [agentTeamGrantClause, List.any_eq_true, Bool.and_eq_true, beq_iff_eq, Bool.or_eq_true,
    Bool.not_eq_true', ByTeam]
  constructor
  · rintro ⟨permission, hpermission, ⟨hitem, hwrite⟩, ⟨team, member⟩, hmember, ⟨hteam, hagent⟩, row, hrow, hid, hlive⟩
    dsimp only at hteam hagent hid
    subst hteam hagent
    refine ⟨permission, hpermission, hitem, fun hw => hwrite.resolve_left (by rw [hw]; decide),
      hmember, row, hrow, hid, hlive⟩
  · rintro ⟨permission, hpermission, hitem, hwrite, hmember, row, hrow, hid, hlive⟩
    refine ⟨permission, hpermission, ⟨hitem, ?_⟩, _, hmember, ⟨rfl, rfl⟩, row, hrow, hid, hlive⟩
    cases write with
    | false => exact .inl rfl
    | true => exact .inr (hwrite rfl)

theorem byTeam_iff_row {item : Item} {agent : AgentId} {write : Bool} :
    ByTeam db item agent write ↔ ∃ row ∈ teamAgentRows db [item.id], row.1 = item.id ∧
        row.2.1 = agent ∧ (write = true → row.2.2 = true) := by
  simp only [teamAgentRows, List.mem_flatMap, List.mem_filter, List.mem_map, mem_permissions_of,
    Bool.and_eq_true, beq_iff_eq, Bool.not_eq_true']
  constructor
  · rintro ⟨permission, hpermission, hitem, hwrite, hmember, row, hrow, hid, hlive⟩
    exact ⟨_, ⟨permission, ⟨hpermission, hitem⟩, _, ⟨hmember, rfl⟩, row, ⟨hrow, hid, hlive⟩, rfl⟩, hitem, hid, hwrite⟩
  · rintro ⟨_, ⟨permission, ⟨hpermission, hitem⟩, ⟨team, member⟩, ⟨hmember, hteam⟩, row,
      ⟨hrow, hid, hlive⟩, rfl⟩, -, hagent, hwrite⟩
    dsimp only at hteam hid hagent hwrite
    subst hteam hagent
    rw [← hid] at hmember
    exact ⟨permission, hpermission, hitem, hwrite, hmember, row, hrow, rfl, hlive⟩

/-! ### Folds -/

/-- What an element may add is there in the end where some element adds it. -/
theorem foldl_adds {σ β : Type} (holds : σ → Prop) (adds : β → Prop) {f : σ → β → σ}
    (h : ∀ s b, holds (f s b) ↔ holds s ∨ adds b) (items : List β) (s : σ) :
    holds (items.foldl f s) ↔ holds s ∨ ∃ b ∈ items, adds b := by
  induction items generalizing s with
  | nil => simp
  | cons b rest ih => rw [List.foldl_cons, ih, h, List.exists_mem_cons_iff, or_assoc]

/-- An agent has access, to write where that is asked. -/
def Holds (access : TeamAccess) (agent : AgentId) (write : Bool) : Prop :=
    ∃ canWrite, access.lookup agent = some canWrite ∧ (write = true → canWrite = true)

theorem holds_allow {access : TeamAccess} {member agent : AgentId} {canWrite write : Bool} :
    Holds (access.allow member canWrite) agent write ↔ Holds access agent write ∨
        (member = agent ∧ (write = true → canWrite = true)) := by
  unfold Holds TeamAccess.allow
  by_cases hagent : member = agent
  · subst hagent
    rw [AList.lookup_insert]
    cases hheld : access.lookup member with
    | none => simp
    | some held => cases write <;> cases held <;> simp
  · rw [AList.lookup_insert_ne (Ne.symm hagent)]
    simp [hagent]

theorem holds_collect {item : DocumentId} {agent : AgentId} {write : Bool}
    (result : AList fun _ : DocumentId => TeamAccess)
    (row : DocumentId × AgentId × Bool) : Holds (((collect result row).lookup item).getD ∅) agent write ↔
      Holds ((result.lookup item).getD ∅) agent write ∨
          (row.1 = item ∧ row.2.1 = agent ∧ (write = true → row.2.2 = true)) := by
  obtain ⟨id, member, canWrite⟩ := row
  by_cases hitem : id = item
  · subst hitem
    rw [collect, AList.lookup_insert, Option.getD_some, holds_allow]
    simp
  · rw [collect, AList.lookup_insert_ne (Ne.symm hitem)]
    simp [hitem]

theorem exists_entry {access : TeamAccess} {agent : AgentId} {write : Bool} :
    (∃ entry ∈ access.entries, entry.1 = agent ∧ (write = true → entry.2 = true)) ↔ Holds access agent write := by
  unfold Holds
  constructor
  · rintro ⟨⟨id, canWrite⟩, hentry, rfl, hwrite⟩
    exact ⟨canWrite, AList.mem_lookup_iff.mpr hentry, hwrite⟩
  · rintro ⟨canWrite, hlookup, hwrite⟩
    exact ⟨⟨agent, canWrite⟩, AList.mem_lookup_iff.mp hlookup, rfl, hwrite⟩

/-- `document_team_agent_access` has the rights by team. -/
theorem holds_teamAccess {item : Item} {agent : AgentId} {write : Bool} :
    Holds (((documentTeamAgentAccess db [item.id]).lookup item.id).getD ∅) agent write ↔
        ByTeam db item agent write := by
  rw [byTeam_iff_row]
  refine (foldl_adds (fun result : AList fun _ : DocumentId => TeamAccess => Holds ((result.lookup
    item.id).getD ∅) agent write) _ holds_collect (teamAgentRows db [item.id]) ∅).trans ?_
  refine or_iff_right fun ⟨canWrite, hlookup, _⟩ => ?_
  cases hlookup

/-! ### Both paths -/

/-- The rights of an agent, in memory and in the clauses. -/
def Granted (db : Database) (item : Item) (agent : AgentId) (write : Bool) : Prop :=
  item.ownerAgent = some agent ∨ (if write then item.globalAccess = 2 else 1 ≤ item.globalAccess) ∨
    (∃ grant ∈ db.grants, grant.shareId = item.shareId ∧ grant.agentId = some agent ∧
      (write = true → grant.canWrite = true)) ∨ ByTeam db item agent write

theorem rights_iff {item : Item} {agent : AgentId} {write : Bool} :
    rights db item agent write = true ↔ Granted db item agent write := by
  simp only [rights, Bool.or_eq_true, agentTeamGrantClause_iff, List.any_eq_true, Bool.and_eq_true,
    beq_iff_eq, Granted, or_assoc]
  cases write with
  | false => simp
  | true => simp [and_assoc]

/-- Who may write may read. -/
theorem Granted.read {item : Item} {agent : AgentId} (h : Granted db item agent true) :
    Granted db item agent false := by
  obtain h | h | ⟨grant, hgrant, hshare, hagent, -⟩ | ⟨permission, hpermission, hitem, -, hmember⟩ := h
  · exact .inl h
  · rw [if_pos rfl] at h
    exact .inr (.inl (by rw [h]; decide))
  · exact .inr (.inr (.inl ⟨grant, hgrant, hshare, hagent, nofun⟩))
  · exact .inr (.inr (.inr ⟨permission, hpermission, hitem, nofun, hmember⟩))

/-- Of the sets, the writable one where that is asked. -/
def chosen (write : Bool) (sets : Sets) : Finset AgentId := if write then sets.2 else sets.1

section Chosen
variable {item : Item} {candidates : Finset AgentId} {a : AgentId} {write : Bool}

theorem mem_grantTo (sets : Sets) (agent : AgentId) (canWrite : Bool) :
    a ∈ chosen write (grantTo candidates sets agent canWrite) ↔ a ∈ chosen write sets ∨
        (a ∈ candidates ∧ agent = a ∧ (write = true → canWrite = true)) := by
  unfold grantTo
  split
  case isTrue h =>
    have hinsert : ∀ set : Finset AgentId, a ∈ insert agent set ↔ a ∈ set ∨ (a ∈ candidates ∧ agent = a) := by
      intro set
      rw [Finset.mem_insert, or_comm]
      exact or_congr_right ⟨fun heq => ⟨heq ▸ h, heq.symm⟩, fun h => h.2.symm⟩
    cases write <;> cases canWrite <;> simp [chosen, hinsert]
  case isFalse h =>
    refine (or_iff_left ?_).symm
    rintro ⟨ha, rfl, -⟩
    exact h ha

theorem mem_everyone : a ∈ chosen write (everyone item candidates) ↔
    a ∈ candidates ∧ (if write then item.globalAccess = 2 else 1 ≤ item.globalAccess) := by
  cases write with
  | false => by_cases hglobal : 1 ≤ item.globalAccess <;> simp [chosen, everyone, hglobal]
  | true => by_cases hglobal : item.globalAccess = 2 <;> simp [chosen, everyone, hglobal]

theorem mem_withOwner {sets : Sets} : a ∈ chosen write (withOwner item candidates sets) ↔
    a ∈ chosen write sets ∨ (a ∈ candidates ∧ item.ownerAgent = some a) := by
  unfold withOwner
  cases item.ownerAgent with
  | none => simp
  | some agent =>
    rw [Option.elim_some, mem_grantTo]
    simp

theorem mem_withGrants {sets : Sets} : a ∈ chosen write (withGrants db item candidates sets) ↔ a ∈ chosen write sets ∨
    (a ∈ candidates ∧ ∃ grant ∈ db.grants, grant.shareId = item.shareId ∧ grant.agentId = some a ∧
      (write = true → grant.canWrite = true)) := by
  have hgrant : ∀ (sets : Sets) (grant : Grant), a ∈ chosen write
      (grant.agentId.elim sets fun agent => grantTo candidates sets agent grant.canWrite) ↔
      a ∈ chosen write sets ∨ (a ∈ candidates ∧ grant.agentId = some a ∧ (write = true → grant.canWrite = true)) := by
    intro sets grant
    cases grant.agentId with
    | none => simp
    | some agent => rw [Option.elim_some, mem_grantTo, Option.some_inj]
  refine (foldl_adds (fun sets => a ∈ chosen write sets) _ hgrant _ sets).trans (or_congr_right ?_)
  constructor
  · rintro ⟨grant, hgrant, ha, hagent, hwrite⟩
    obtain ⟨hgrant, hshare⟩ := List.mem_filter.mp hgrant
    exact ⟨ha, grant, hgrant, eq_of_beq hshare, hagent, hwrite⟩
  · rintro ⟨ha, grant, hgrant, hshare, hagent, hwrite⟩
    exact ⟨grant, List.mem_filter.mpr ⟨hgrant, beq_iff_eq.mpr hshare⟩, ha, hagent, hwrite⟩

theorem mem_withTeams {teamAccess : TeamAccess} {sets : Sets} :
    a ∈ chosen write (withTeams candidates teamAccess sets) ↔ a ∈ chosen write sets ∨
        (a ∈ candidates ∧ Holds teamAccess a write) := by
  have hentry : ∀ (sets : Sets) (entry : Sigma fun _ : AgentId => Bool),
      a ∈ chosen write (grantTo candidates sets entry.1 entry.2) ↔
      a ∈ chosen write sets ∨ (a ∈ candidates ∧ entry.1 = a ∧ (write = true → entry.2 = true)) :=
        fun sets entry => mem_grantTo sets entry.1 entry.2
  refine (foldl_adds (fun sets => a ∈ chosen write sets) _ hentry _ sets).trans (or_congr_right ?_)
  rw [← exists_entry]
  constructor
  · rintro ⟨entry, hentry, ha, hholds⟩
    exact ⟨ha, entry, hentry, hholds⟩
  · rintro ⟨ha, entry, hentry, hholds⟩
    exact ⟨entry, hentry, ha, hholds⟩

/-- In memory, the candidates with a right are chosen. -/
theorem mem_sets : a ∈ chosen write
    (withTeams candidates (((documentTeamAgentAccess db [item.id]).lookup item.id).getD ∅)
    (withGrants db item candidates (withOwner item candidates (everyone item candidates)))) ↔
    a ∈ candidates ∧ Granted db item a write := by
  rw [mem_withTeams, mem_withGrants, mem_withOwner, mem_everyone,
    holds_teamAccess, ← and_or_left, ← and_or_left, ← and_or_left, Granted,
    or_assoc, or_assoc, or_left_comm]

end Chosen

/-- A finite set of agents that are not deleted. -/
structure LiveAgents (db : Database) where
  ids : Finset AgentId
  live : ∀ a ∈ ids, ∃ row ∈ db.agents, row.id = a ∧ row.deleted = false

/-- What `managed_item_agent_ids` answers with the rights by team of the document. -/
def inMemory (db : Database) (item : Item) (agents : LiveAgents db) : List AgentId × List AgentId :=
  managedInMemory db item agents.ids (((documentTeamAgentAccess db [item.id]).lookup item.id).getD ∅)

theorem mem_readable {item : Item} {agents : LiveAgents db} {a : AgentId} :
    a ∈ (inMemory db item agents).1 ↔ a ∈ agents.ids ∧ Granted db item a false := by
  rw [← mem_sets]
  exact Finset.mem_sort _

theorem mem_writable {item : Item} {agents : LiveAgents db} {a : AgentId} :
    a ∈ (inMemory db item agents).2 ↔ item.readOnly = false ∧ a ∈ agents.ids ∧ Granted db item a true := by
  rw [← mem_sets]
  unfold inMemory managedInMemory
  dsimp only
  cases item.readOnly with
  | false => simp [chosen]
  | true => simp

theorem mem_rows {agents : LiveAgents db} {clause : AgentId → Bool} {a : AgentId} :
    a ∈ ((db.agents.filter fun row => decide (row.id ∈ agents.ids)).map (·.id)).filter clause ↔
        a ∈ agents.ids ∧ clause a = true := by
  rw [List.mem_filter, List.mem_map]
  refine and_congr_left fun _ => ⟨?_, fun ha => ?_⟩
  · rintro ⟨row, hrow, rfl⟩
    exact of_decide_eq_true (List.mem_filter.mp hrow).2
  · obtain ⟨row, hrow, rfl, -⟩ := agents.live a ha
    exact ⟨row, List.mem_filter.mpr ⟨hrow, decide_eq_true ha⟩, rfl⟩

theorem mem_clauses_readable {item : Item} {agents : LiveAgents db} {a : AgentId} :
    a ∈ (managedFromClauses db item agents.ids).1 ↔ documentPolicyClause db item = true ∧
        a ∈ agents.ids ∧ Granted db item a false := by
  rw [← rights_iff]
  refine mem_rows.trans ?_
  rw [readableItemClause, Bool.and_eq_true, and_left_comm]

theorem mem_clauses_writable {item : Item} {agents : LiveAgents db} {a : AgentId} :
    a ∈ (managedFromClauses db item agents.ids).2 ↔
      documentPolicyClause db item = true ∧ item.readOnly = false ∧ a ∈ agents.ids ∧ Granted db item a true := by
  rw [← rights_iff]
  refine mem_rows.trans ?_
  rw [writableItemClause, Bool.and_eq_true, Bool.and_eq_true, Bool.not_eq_true', and_assoc, and_left_comm]
  exact and_congr_right fun _ => and_left_comm

/-- Both paths name the same agents, and who may write may read. -/
structure Agrees (db : Database) (item : Item) (agents : LiveAgents db) : Prop where
  reads : ∀ a, a ∈ (inMemory db item agents).1 ↔ a ∈ (managedFromClauses db item agents.ids).1
  writes : ∀ a, a ∈ (inMemory db item agents).2 ↔ a ∈ (managedFromClauses db item agents.ids).2
  writesRead : ∀ a, a ∈ (inMemory db item agents).2 → a ∈ (inMemory db item agents).1
  clausesRead : ∀ a, a ∈ (managedFromClauses db item agents.ids).2 → a ∈ (managedFromClauses db item agents.ids).1

/-- The paths agree on a document unless it is a process without a live owner, on which some of the agents
have a right. -/
theorem agrees_iff (db : Database) (item : Item) (agents : LiveAgents db) :
    Agrees db item agents ↔ orphanProcessClause db item = false ∨ ∀ a ∈ agents.ids, rights db item a false = false := by
  have hpolicy : documentPolicyClause db item = true ↔ orphanProcessClause db item = false := by
    rw [documentPolicyClause, Bool.not_eq_true']
  constructor
  · intro h
    by_contra hneither
    rw [not_or] at hneither
    refine hneither.2 fun a ha => ?_
    by_contra hright
    have hgranted := rights_iff.mp (Bool.not_eq_false _ ▸ hright)
    have hclause := (h.reads a).mp (mem_readable.mpr ⟨ha, hgranted⟩)
    exact hneither.1 (hpolicy.mp (mem_clauses_readable.mp hclause).1)
  · intro h
    have hagrees : ∀ write a, a ∈ agents.ids ∧ Granted db item a write ↔
        documentPolicyClause db item = true ∧ a ∈ agents.ids ∧ Granted db item a write := by
      intro write a
      obtain horphan | hnone := h
      · exact (and_iff_right (hpolicy.mpr horphan)).symm
      · refine (and_iff_right_of_imp fun ⟨ha, hgranted⟩ => ?_).symm
        have hread : Granted db item a false := by
          cases write with
          | false => exact hgranted
          | true => exact hgranted.read
        exact absurd (rights_iff.mpr hread) (Bool.eq_false_iff.mp (hnone a ha))
    refine ⟨fun a => ?_, fun a => ?_, fun a ha => ?_, fun a ha => ?_⟩
    · rw [mem_readable, mem_clauses_readable]
      exact hagrees false a
    · rw [mem_writable, mem_clauses_writable]
      exact (and_congr_right fun _ => hagrees true a).trans and_left_comm
    · obtain ⟨-, hmem, hgranted⟩ := mem_writable.mp ha
      exact mem_readable.mpr ⟨hmem, hgranted.read⟩
    · obtain ⟨hclause, -, hmem, hgranted⟩ := mem_clauses_writable.mp ha
      exact mem_clauses_readable.mpr ⟨hclause, hmem, hgranted.read⟩

/-- A process of a deleted agent, which everyone may read. -/
def orphan : Item := ⟨1, 1, .process, some 1, none, 1, 0, false, false⟩

def orphanage : Database := ⟨[⟨1, true⟩, ⟨2, false⟩], [], [], [], [], [orphan], []⟩

/-- In memory, an agent may read a process that has lost its owner. -/
theorem orphan_disagrees : ¬∀ (db : Database) (item : Item) (agents : LiveAgents db),
    item ∈ db.documents → item.deleted = false → Agrees db item agents := by
  intro h
  have hlive : ∀ a ∈ ({2} : Finset AgentId), ∃ row ∈ orphanage.agents, row.id = a ∧ row.deleted = false := by
    intro a ha
    rw [Finset.mem_singleton.mp ha]
    exact ⟨⟨2, false⟩, by simp [orphanage], rfl, rfl⟩
  have hagrees := h orphanage orphan ⟨{2}, hlive⟩ List.mem_cons_self rfl
  have hmemory : 2 ∈ (inMemory orphanage orphan ⟨{2}, hlive⟩).1 :=
      mem_readable.mpr ⟨Finset.mem_singleton_self 2, .inr (.inl (by decide))⟩
  have hclauses := (hagrees.reads 2).mp hmemory
  exact absurd (mem_clauses_readable.mp hclauses).1 (by decide)

end Access

end Galaris.Document.AgentAccess
