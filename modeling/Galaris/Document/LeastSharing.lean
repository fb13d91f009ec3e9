import Galaris.Document.Inheritance

/-! The sharing that intents and placements justify, and nothing else.

`Justified` says what the rest of the documents and folders gives an item. It determines the
sharing (`Justified.unique`), and only reads the sources: the intents, the owners, the teams and
the placements (`SameSources`). `reconcile_sharing` leaves every item with it
(`reconcile_justified`), whatever was effective before, in whatever order the rows come; so a
second run finds nothing to do. -/
namespace Galaris.Documents

attribute [ext] Database

/-! ### What is justified -/

namespace Database
variable {db : Database}

/-- The own levels of the items that share with this one, or are this one. -/
def levels (db : Database) (identity : Id) : Set Nat :=
  {level | ∃ other ∈ db.items, other.inherits = true ∧ db.Reaches other.identity identity ∧
    level = (db.own other.shareId).globalAccess}

/-- The own grant of the item, or one that an item above offers. -/
def Given (db : Database) (item : Item) (key : Principal) (write : Bool) : Prop :=
  (db.own item.shareId).grants.lookup key = some write ∨
    ∃ other ∈ db.items, other.inherits = true ∧ db.Above other.identity item.identity ∧ db.Offered other key write

/-- The sharing is what the intents and the placements give the item, and no more. -/
structure Justified (db : Database) (item : Item) (config : Config) (grants : Grants) : Prop where
  level : IsGreatest (db.levels item.identity) config.globalAccess
  group : config.groupAccess = (db.own item.shareId).groupAccess
  granted : ∀ key, (∃ write, grants.lookup key = some write) ↔ ∃ write, db.Given item key write
  writes : ∀ key, grants.lookup key = some true ↔ db.Given item key true

/-- What is justified for an item is unique. -/
theorem Justified.unique {item : Item} {config config' : Config} {grants grants' : Grants}
    (h : db.Justified item config grants) (h' : db.Justified item config' grants') :
    config.globalAccess = config'.globalAccess ∧ config.groupAccess = config'.groupAccess ∧
      ∀ key, grants.lookup key = grants'.lookup key := by
  refine ⟨h.level.unique h'.level, h.group.trans h'.group.symm, fun key => ?_⟩
  have hgranted := (h.granted key).trans (h'.granted key).symm
  have hwrites := (h.writes key).trans (h'.writes key).symm
  cases hlookup : grants.lookup key with
  | none =>
    cases hlookup' : grants'.lookup key with
    | none => rfl
    | some write =>
      obtain ⟨write, hsome⟩ := hgranted.mpr ⟨write, hlookup'⟩
      rw [hlookup] at hsome
      cases hsome
  | some write =>
    obtain ⟨write', hlookup'⟩ := hgranted.mp ⟨write, hlookup⟩
    rw [hlookup, hlookup'] at hwrites
    rw [hlookup']
    cases write <;> cases write' <;> simp at hwrites ⊢

theorem rank_le {write : Bool} : 1 ≤ rank (some write) := by cases write <;> decide

theorem two_le_rank {write : Bool} : 2 ≤ rank (some write) ↔ write = true := by cases write <;> decide

/-- Who is granted anything may read. -/
theorem Grants.one_le_right {grants : Grants} {key : Principal} :
    1 ≤ grants.right key ↔ ∃ write, grants.lookup key = some write := by
  unfold Grants.right
  cases grants.lookup key with
  | none => simp [rank]
  | some write => simp [rank_le]

/-- Who is granted to write has the higher right. -/
theorem Grants.two_le_right {grants : Grants} {key : Principal} :
    2 ≤ grants.right key ↔ grants.lookup key = some true := by
  unfold Grants.right
  cases grants.lookup key with
  | none => simp [rank]
  | some write => simp [two_le_rank]

/-- The rights that an item ends with. -/
theorem effective_final {item : Item} (hmem : item ∈ db.items) (hinherits : item.inherits = true) (key : Principal)
    {r : Nat} (hr : 1 ≤ r) :
    r ≤ (db.effective (db.final item)).right key ↔ ∃ write, db.Given item key write ∧ r ≤ rank (some write) := by
  have hown : r ≤ (db.own item.shareId).grants.right key ↔
      ∃ write, (db.own item.shareId).grants.lookup key = some write ∧ r ≤ rank (some write) := by
    unfold Grants.right
    cases (db.own item.shareId).grants.lookup key with
    | none => simp [rank, Nat.ne_of_gt hr]
    | some write => simp
  rw [effective_right _ key hr, (final_kept hmem hinherits).1, hown, final_inherited item key hr]
  unfold Given
  constructor
  · rintro (⟨write, hlookup, hle⟩ | ⟨other, hother, hinherits', habove, hle⟩)
    · exact ⟨write, .inl hlookup, hle⟩
    · obtain ⟨write, hoffered, hle⟩ := (policy_right db other key hr).mp hle
      exact ⟨write, .inr ⟨other, hother, hinherits', habove, hoffered⟩, hle⟩
  · rintro ⟨write, hlookup | ⟨other, hother, hinherits', habove, hoffered⟩, hle⟩
    · exact .inl ⟨write, hlookup, hle⟩
    · exact .inr ⟨other, hother, hinherits', habove, (policy_right db other key hr).mpr ⟨write, hoffered, hle⟩⟩

/-- What is written for an item is justified. -/
theorem project_justified {item : Item} (hmem : item ∈ db.items) (hinherits : item.inherits = true) :
    db.Justified item (db.project (db.final item)).1 (db.project (db.final item)).2 := by
  obtain ⟨hlevel, hgroup, hlookup⟩ := db.project_spec (db.final item)
  refine ⟨?_, hgroup.trans (final_kept hmem hinherits).2, fun key => ?_, fun key => ?_⟩
  · rw [hlevel]
    exact final_public hmem hinherits
  · rw [hlookup, ← Grants.one_le_right, effective_final hmem hinherits key le_rfl]
    simp only [rank_le, and_true]
  · rw [hlookup, ← Grants.two_le_right, effective_final hmem hinherits key (Nat.le_succ 1)]
    simp [two_le_rank]

/-- What a pass writes is justified. -/
theorem reconcile_justified {item : Item} (hmem : item ∈ db.items) (hinherits : item.inherits = true) :
    db.Justified item (db.reconcile.config item.shareId) (db.reconcile.grants item.shareId) := by
  rw [reconcile_config hmem hinherits, reconcile_grants hmem hinherits]
  exact project_justified hmem hinherits

/-- An item that takes no part keeps its sharing. -/
theorem reconcile_kept {item : Item} (hmem : item ∈ db.items) (hinherits : item.inherits = false) :
    db.reconcile.config item.shareId = db.config item.shareId ∧
        db.reconcile.grants item.shareId = db.grants item.shareId := by
  have hnone : db.shareItem? item.shareId = none := by
    cases hfound : db.shareItem? item.shareId with
    | none => rfl
    | some other =>
      obtain ⟨hother, hinherits', hshare⟩ := shareItem?_eq_some.mp hfound
      rw [eq_of_shareId hother hmem hshare, hinherits] at hinherits'
      cases hinherits'
  constructor
  · show ((db.shareItem? item.shareId).map _).getD _ = _
    rw [hnone]
    rfl
  · show ((db.shareItem? item.shareId).map _).getD _ = _
    rw [hnone]
    rfl

end Database

/-! ### The sources -/

/-- What is read of an item: neither its version nor its visibility. -/
def Item.source (item : Item) : Item :=
  { item with
    lockVersion := 0
    kind := match item.kind with
      | .document readOnly documentType _ => .document readOnly documentType .private'
      | .folder parent => .folder parent }

namespace Item
variable {item item' : Item}

/-- An item with the same source is the same item. -/
theorem source_kept (h : item.source = item'.source) : item.identity = item'.identity ∧ item.shareId = item'.shareId ∧
    item.user = item'.user ∧ item.agent = item'.agent := by
  have hidentity := congrArg Item.identity h
  have hshare := congrArg Item.shareId h
  have huser := congrArg Item.user h
  have hagent := congrArg Item.agent h
  exact ⟨hidentity, hshare, huser, hagent⟩

theorem source_inherits (item : Item) : item.source.inherits = item.inherits := by
  unfold inherits source
  cases item.kind <;> rfl

theorem source_shareable (item : Item) : item.source.shareable = item.shareable := by
  unfold shareable source
  cases item.kind <;> rfl

theorem source_isFolder (item : Item) : item.source.isFolder = item.isFolder := by
  unfold isFolder source
  cases item.kind <;> rfl

theorem source_folder {parent : Option Id} : item.source.kind = .folder parent ↔ item.kind = .folder parent := by
  unfold source
  cases item.kind <;> simp

end Item

/-- The same intents, owners, teams and placements, whatever the order of the rows and whatever was
effective. -/
structure SameSources (db db' : Database) : Prop where
  items : ∀ source : Item, source ∈ db.items.map Item.source ↔ source ∈ db'.items.map Item.source
  agentUser : ∀ agent, db.agentUser agent = db'.agentUser agent
  userTeams : ∀ row, row ∈ db.userTeams ↔ row ∈ db'.userTeams
  agentTeams : ∀ row, row ∈ db.agentTeams ↔ row ∈ db'.agentTeams
  assignments : ∀ row, row ∈ db.assignments ↔ row ∈ db'.assignments
  nestings : ∀ row, row ∈ db.nestings ↔ row ∈ db'.nestings
  own : ∀ item ∈ db.items, item.inherits = true →
    (db.own item.shareId).globalAccess = (db'.own item.shareId).globalAccess ∧
      (db.own item.shareId).groupAccess = (db'.own item.shareId).groupAccess ∧
      ∀ key, (db.own item.shareId).grants.lookup key = (db'.own item.shareId).grants.lookup key

namespace SameSources
variable {db db' : Database}

theorem item (h : SameSources db db') {item : Item} (hmem : item ∈ db.items) :
    ∃ item' ∈ db'.items, item'.source = item.source :=
  List.mem_map.mp ((h.items _).mp (List.mem_map_of_mem hmem))

theorem symm (h : SameSources db db') : SameSources db' db where
  items source := (h.items source).symm
  agentUser agent := (h.agentUser agent).symm
  userTeams row := (h.userTeams row).symm
  agentTeams row := (h.agentTeams row).symm
  assignments row := (h.assignments row).symm
  nestings row := (h.nestings row).symm
  own item' hmem hinherits := by
    obtain ⟨item, hitem, hsource⟩ := List.mem_map.mp ((h.items _).mpr (List.mem_map_of_mem hmem))
    have hinherits' : item.inherits = true := by rw [← item.source_inherits, hsource, item'.source_inherits, hinherits]
    obtain ⟨hlevel, hgroup, hlookup⟩ := h.own item hitem hinherits'
    rw [(Item.source_kept hsource).2.1] at hlevel hgroup hlookup
    exact ⟨hlevel.symm, hgroup.symm, fun key => (hlookup key).symm⟩

theorem ownerUser (h : SameSources db db') {item item' : Item} (hsource : item'.source = item.source) :
    db'.ownerUser item' = db.ownerUser item := by
  obtain ⟨-, -, huser, hagent⟩ := Item.source_kept hsource
  have hagents : db.agentUser = db'.agentUser := funext h.agentUser
  unfold Database.ownerUser
  rw [huser, hagent, hagents]

theorem shares_of (h : SameSources db db') {user : Nat} {identity : Id} (hshares : db.Shares user identity) :
    db'.Shares user identity := by
  obtain ⟨item, hmem, hinherits, hidentity, howner, hshareable⟩ := hshares
  obtain ⟨item', hmem', hsource⟩ := h.item hmem
  refine ⟨item', hmem', ?_, (Item.source_kept hsource).1.trans hidentity, (h.ownerUser hsource).trans howner, ?_⟩
  · rw [← item'.source_inherits, hsource, item.source_inherits, hinherits]
  · rw [← item'.source_shareable, hsource, item.source_shareable, hshareable]

theorem placed_of (h : SameSources db db') {user : Nat} {parent child : Id} (hplaced : db.Placed user parent child) :
    db'.Placed user parent child := by
  -- A folder that is there is there with the same user.
  have hfolder : ∀ {folder : Item}, folder ∈ db.items → folder.isFolder = true →
      ∃ folder' ∈ db'.items, folder'.isFolder = true ∧ folder'.identity = folder.identity ∧
      folder'.user = folder.user := by
    intro folder hmem hfolder
    obtain ⟨folder', hmem', hsource⟩ := h.item hmem
    refine ⟨folder', hmem', ?_, (Item.source_kept hsource).1, (Item.source_kept hsource).2.2.1⟩
    rw [← folder'.source_isFolder, hsource, folder.source_isFolder, hfolder]
  obtain ⟨item, hmem, hkind, huser, hidentity, other, hother, hothers, hparent⟩ |
    ⟨hassigned, folder, hmem, hisFolder, hidentity, huser⟩ | hnested := hplaced
  · obtain ⟨item', hmem', hsource⟩ := h.item hmem
    obtain ⟨hidentity', -, huser', -⟩ := Item.source_kept hsource
    obtain ⟨other', hother', hothers', hparent', -⟩ := hfolder hother hothers
    refine .inl ⟨item', hmem', ?_, huser'.trans huser, hidentity'.trans hidentity, other', hother',
      hothers', hparent'.trans hparent⟩
    rw [← Item.source_folder, hsource, Item.source_folder]
    exact hkind
  · obtain ⟨folder', hmem', hisFolder', hidentity', huser'⟩ := hfolder hmem hisFolder
    exact .inr (.inl ⟨(h.assignments _).mp hassigned, folder', hmem', hisFolder', hidentity'.trans hidentity,
      huser'.trans huser⟩)
  · exact .inr (.inr ((h.nestings _).mp hnested))

/-- The same sources lead the same ways. -/
theorem leads (h : SameSources db db') : db.Leads = db'.Leads := by
  have hshares : db.Shares = db'.Shares :=
    funext fun user => funext fun identity => propext ⟨h.shares_of, h.symm.shares_of⟩
  have hplaced : db.Placed = db'.Placed :=
    funext fun user => funext fun parent => funext fun child => propext ⟨h.placed_of, h.symm.placed_of⟩
  unfold Database.Leads
  rw [hshares, hplaced]

/-- The same sources have the same items above. -/
theorem above (h : SameSources db db') : db.Above = db'.Above := by
  unfold Database.Above
  rw [h.leads]

/-- The same sources reach the same. -/
theorem reaches (h : SameSources db db') : db.Reaches = db'.Reaches := by
  unfold Database.Reaches
  rw [h.leads]

theorem memberships_of (h : SameSources db db') {item item' : Item} (hsource : item'.source = item.source) {team : Nat}
    (hteam : team ∈ db.memberships item) : team ∈ db'.memberships item' := by
  obtain ⟨-, -, huser, hagent⟩ := Item.source_kept hsource
  unfold Database.memberships at hteam ⊢
  rw [huser, hagent]
  split at hteam
  case h_1 user _ =>
    obtain ⟨row, hrow, rfl⟩ := List.mem_map.mp hteam
    obtain ⟨hrow, hfound⟩ := List.mem_filter.mp hrow
    exact List.mem_map.mpr ⟨row, List.mem_filter.mpr ⟨(h.userTeams row).mp hrow, hfound⟩, rfl⟩
  case h_2 agent =>
    obtain ⟨row, hrow, rfl⟩ := List.mem_map.mp hteam
    obtain ⟨hrow, hfound⟩ := List.mem_filter.mp hrow
    exact List.mem_map.mpr ⟨row, List.mem_filter.mpr ⟨(h.agentTeams row).mp hrow, hfound⟩, rfl⟩
  case h_3 => exact hteam

/-- An item and its sources on the other side. -/
theorem takesPart (h : SameSources db db') {item : Item} (hmem : item ∈ db.items) (hinherits : item.inherits = true) :
    ∃ item' ∈ db'.items, item'.inherits = true ∧ item'.source = item.source := by
  obtain ⟨item', hmem', hsource⟩ := h.item hmem
  refine ⟨item', hmem', ?_, hsource⟩
  rw [← item'.source_inherits, hsource, item.source_inherits, hinherits]

theorem offered_of (h : SameSources db db') {item item' : Item} (hmem : item ∈ db.items)
    (hinherits : item.inherits = true)
    (hsource : item'.source = item.source) {key : Principal} {write : Bool} (hoffered : db.Offered item key write) :
    db'.Offered item' key write := by
  obtain ⟨-, hgroup, hlookup⟩ := h.own item hmem hinherits
  have hshare := (Item.source_kept hsource).2.1
  unfold Database.Offered at hoffered ⊢
  rw [hshare, ← hlookup, ← hgroup]
  refine hoffered.imp_right fun ⟨haccess, ⟨team, hteam, hkey⟩, hwrite⟩ => ⟨haccess, ⟨team, ?_, hkey⟩, hwrite⟩
  exact h.memberships_of hsource hteam

theorem given_of (h : SameSources db db') {item item' : Item} (hmem : item ∈ db.items)
    (hinherits : item.inherits = true)
    (hsource : item'.source = item.source) {key : Principal} {write : Bool} (hgiven : db.Given item key write) :
    db'.Given item' key write := by
  obtain ⟨-, -, hlookup⟩ := h.own item hmem hinherits
  obtain ⟨hidentity, hshare, -⟩ := Item.source_kept hsource
  obtain hown | ⟨other, hother, hinherits', habove, hoffered⟩ := hgiven
  · refine .inl ?_
    rw [hshare, ← hlookup]
    exact hown
  · obtain ⟨other', hother', hinherits'', hsource'⟩ := h.takesPart hother hinherits'
    refine .inr ⟨other', hother', hinherits'', ?_, h.offered_of hother hinherits' hsource' hoffered⟩
    rw [(Item.source_kept hsource').1, hidentity, ← h.above]
    exact habove

theorem levels_of (h : SameSources db db') {identity level : Nat} (hlevel : level ∈ db.levels identity) :
    level ∈ db'.levels identity := by
  obtain ⟨other, hother, hinherits, hreach, rfl⟩ := hlevel
  obtain ⟨other', hother', hinherits', hsource⟩ := h.takesPart hother hinherits
  refine ⟨other', hother', hinherits', ?_, ?_⟩
  · rw [(Item.source_kept hsource).1, ← h.reaches]
    exact hreach
  · rw [(Item.source_kept hsource).2.1]
    exact (h.own other hother hinherits).1

/-- What is justified only depends on the sources. -/
theorem justified (h : SameSources db db') {item item' : Item} (hmem : item ∈ db.items)
    (hinherits : item.inherits = true)
    (hmem' : item' ∈ db'.items) (hsource : item'.source = item.source) {config : Config} {grants : Grants}
    (hjustified : db.Justified item config grants) : db'.Justified item' config grants := by
  obtain ⟨hidentity, hshare, -⟩ := Item.source_kept hsource
  have hinherits' : item'.inherits = true := by rw [← item'.source_inherits, hsource, item.source_inherits, hinherits]
  have hgiven : ∀ key write, db.Given item key write ↔ db'.Given item' key write := fun key write =>
    ⟨h.given_of hmem hinherits hsource, h.symm.given_of hmem' hinherits' hsource.symm⟩
  have hlevels : db.levels item.identity = db'.levels item'.identity := by
    rw [hidentity]
    exact Set.ext fun level => ⟨h.levels_of, h.symm.levels_of⟩
  refine ⟨hlevels ▸ hjustified.level, ?_, fun key => ?_, fun key => ?_⟩
  · rw [hshare, ← (h.own item hmem hinherits).2.1]
    exact hjustified.group
  · simp only [← hgiven]
    exact hjustified.granted key
  · rw [← hgiven]
    exact hjustified.writes key

end SameSources

/-! ### The order of the work queue -/

namespace Database
variable {db : Database}

/-- The items may be queued in any order, and the edges of an item visited in any order. -/
theorem start_of_order {edges : Id → List Id} (hedges : ∀ parent child, child ∈ edges parent ↔ child ∈ db.edges parent)
    {queue : List Id} (hqueue : queue.Perm (db.policyItems.map (·.identity))) :
    Propagation.Start policyRules edges db.policies db.nodes queue where
  targets source target hedge := db.start.targets source target ((hedges source target).mp hedge)
  received := db.start.received
  queued identity := hqueue.mem_iff.trans (db.start.queued identity)
  nodup := hqueue.nodup_iff.mpr db.identities_nodup

/-- The order of the work changes neither the levels nor the grants, and the queue empties in every order. -/
theorem final_of_order {edges : Id → List Id} (hedges : ∀ parent child, child ∈ edges parent ↔ child ∈ db.edges parent)
    {queue : List Id} (hqueue : queue.Perm (db.policyItems.map (·.identity))) {fuel : Nat}
    (hfuel : db.policyItems.length + db.policyItems.length * db.policyItems.length ≤ fuel) :
    (Propagation.run Policy.merge edges fuel ⟨db.policies, queue⟩).pending = [] ∧
      ∀ item ∈ db.items, item.inherits = true → ∀ policy : Policy,
        policy = (Propagation.run Policy.merge edges fuel ⟨db.policies, queue⟩).at' item.identity →
        policy.public = (db.final item).public ∧
          ∀ key, policy.grants.lookup key = (db.final item).grants.lookup key ∧
            policy.inherited.lookup key = (db.final item).inherited.lookup key := by
  have hstart := start_of_order hedges hqueue
  have henough : Propagation.enough db.nodes ≤ fuel := (db.enough_nodes).le.trans hfuel
  have hreaches : ∀ node w, Propagation.Reaches edges w node ↔ Propagation.Reaches db.edges w node := by
    unfold Propagation.Reaches
    simp only [hedges, implies_true]
  have hvalue : ∀ item ∈ db.items, item.inherits = true →
      ((Propagation.run Policy.merge edges fuel ⟨db.policies, queue⟩).at' item.identity).value =
      (db.final item).value := by
    intro item hmem hinherits
    have hnode : item.identity ∈ db.nodes := mem_nodes.mpr ⟨item, mem_policyItems.mpr ⟨hmem, hinherits⟩, rfl⟩
    have hthere := Propagation.final_value hstart henough hnode
    have hhere := Propagation.final_value db.start (db.enough_nodes).le hnode
    simp only [hreaches] at hthere
    exact hthere.unique hhere
  refine ⟨Propagation.run_terminates hstart henough, fun item hmem hinherits policy heq => ?_⟩
  have hsame := hvalue item hmem hinherits
  have hthere := Propagation.final_received hstart henough item.identity
  have hhere := Propagation.final_received db.start (db.enough_nodes).le item.identity
  have hreceived : ((Propagation.run Policy.merge edges fuel ⟨db.policies, queue⟩).at' item.identity).inherited.right =
      (db.final item).inherited.right := by
    refine IsLUB.unique hthere ?_
    convert hhere using 1
    · simp only [hedges]
      -- The sources of the item take part, so that they end with the same value.
      refine Set.image_congr fun source hsource => ?_
      obtain ⟨parent, hparent, rfl⟩ := (mem_edges.mp hsource).items.1
      obtain ⟨hparent, hinherits'⟩ := mem_policyItems.mp hparent
      exact congrArg Prod.snd (hvalue parent hparent hinherits')
    · rfl
  subst heq
  refine ⟨congrArg Prod.fst hsame, fun key => ⟨?_, ?_⟩⟩
  · exact rank_injective (congrFun (congrArg Prod.snd hsame) key)
  · exact rank_injective (congrFun hreceived key)

/-! ### A second run -/

theorem keep_of_all {grants : Grants} {keep : Principal → Bool} (h : ∀ key ∈ grants, keep key = true) :
    grants.keep keep = grants := by
  have hnone : (grants.keys.filter fun key => !keep key) = [] := by
    rw [List.filter_eq_nil_iff]
    intro key hkey
    rw [h key (AList.mem_keys.mpr hkey)]
    exact Bool.false_ne_true
  unfold Grants.keep
  rw [hnone]
  rfl

/-- Where there is an intent, nothing else is read. -/
theorem own_of_intent {shareId : Id} {intent : Intent} (h : db.intent shareId = some intent) :
    db.own shareId = {intent with grants := Grants.keep intent.grants fun key => decide (key ∈ db.principals)} := by
  unfold own
  rw [h]
  rfl

/-- Principals that are gone are gone from the intent that was written. -/
theorem own_reconcile {item : Item} (hmem : item ∈ db.items) (hinherits : item.inherits = true) :
    db.reconcile.intent item.shareId = some (db.own item.shareId) ∧
        db.reconcile.own item.shareId = db.own item.shareId := by
  have hintent : db.reconcile.intent item.shareId = some (db.own item.shareId) := by
    show ((db.shareItem? item.shareId).map _).or _ = _
    rw [shareItem?_eq_some.mpr ⟨hmem, hinherits, rfl⟩]
    rfl
  refine ⟨hintent, ?_⟩
  have hlive : ∀ key ∈ (db.own item.shareId).grants, decide (key ∈ db.principals) = true := by
    intro key hkey
    cases hthere : decide (key ∈ db.principals) with
    | true => rfl
    | false =>
      have hkept := Grants.right_keep ((db.intent item.shareId).getD ⟨(db.config item.shareId).globalAccess,
        (db.config item.shareId).groupAccess,
        db.grants item.shareId⟩).grants (fun key => decide (key ∈ db.principals)) key
      rw [if_neg (by simp [hthere])] at hkept
      obtain ⟨write, hlookup⟩ := Option.isSome_iff_exists.mp (AList.lookup_isSome.mpr hkey)
      have hpositive := Grants.one_le_right.mpr ⟨write, hlookup⟩
      have hzero : (db.own item.shareId).grants.right key = 0 := hkept
      omega
  rw [own_of_intent hintent]
  show (⟨_, _, Grants.keep (db.own item.shareId).grants fun key => decide (key ∈ db.principals)⟩ : Intent) = _
  rw [keep_of_all hlive]

/-- A pass writes no sources. -/
theorem rewritten_source (item : Item) (policy : Policy) : (db.rewritten item policy).source = item.source := by
  unfold rewritten
  split
  · rfl
  · unfold Item.source
    cases item.kind <;> rfl

/-- The item that a run leaves. -/
def left (db : Database) (item : Item) : Item := if item.inherits then db.rewritten item (db.final item) else item

theorem left_source (item : Item) : (db.left item).source = item.source := by
  unfold left
  split
  · exact rewritten_source item _
  · rfl

/-- A pass keeps the sources. -/
theorem reconcile_sources (db : Database) : SameSources db db.reconcile where
  items source := by
    have hmap : db.reconcile.items = db.items.map db.left := rfl
    have hsources : Item.source ∘ db.left = Item.source := funext fun item => left_source item
    rw [hmap, List.map_map, hsources]
  agentUser _ := rfl
  userTeams _ := Iff.rfl
  agentTeams _ := Iff.rfl
  assignments _ := Iff.rfl
  nestings _ := Iff.rfl
  own item hmem hinherits := by
    rw [(own_reconcile hmem hinherits).2]
    exact ⟨rfl, rfl, fun _ => rfl⟩

theorem keys_isEmpty {grants : Grants} : grants.keys.isEmpty = true ↔ ∀ key, grants.lookup key = none := by
  rw [List.isEmpty_iff, List.eq_nil_iff_forall_not_mem]
  refine forall_congr' fun key => ?_
  rw [← AList.mem_keys, AList.lookup_eq_none]

theorem expectedVisibility_congr {db db' : Database} {policy policy' : Policy}
    (hpublic : policy.public = policy'.public)
    (hgroup : policy.ownGroup = policy'.ownGroup)
    (hlookup : ∀ key, (db.effective policy).lookup key = (db'.effective policy').lookup key) :
    db.expectedVisibility policy = db'.expectedVisibility policy' := by
  have hempty : (db.effective policy).keys.isEmpty = (db'.effective policy').keys.isEmpty := by
    rw [Bool.eq_iff_iff, keys_isEmpty, keys_isEmpty]
    exact forall_congr' fun key => by rw [hlookup]
  unfold expectedVisibility
  rw [hpublic, hgroup, hempty]

/-- The visibility of a document that a run leaves is the expected one. -/
theorem rewritten_visibility {item : Item} {policy : Policy} {readOnly : Bool}
    {documentType : String} {visibility : Visibility}
    (hkind : (db.rewritten item policy).kind = .document readOnly documentType visibility) :
    visibility = db.expectedVisibility policy := by
  unfold rewritten at hkind
  split at hkind
  case isTrue hsame =>
    rw [Bool.and_eq_true, Bool.not_eq_true'] at hsame
    have hdrift := hsame.2
    unfold visibilityDrift at hdrift
    rw [hkind] at hdrift
    simpa using hdrift
  case isFalse =>
    dsimp only at hkind
    split at hkind
    case h_1 =>
      rw [Kind.document.injEq] at hkind
      exact hkind.2.2.symm
    case h_2 => cases hkind

theorem left_inherits (item : Item) : (db.left item).inherits = item.inherits := by
  rw [← Item.source_inherits, left_source, item.source_inherits]

theorem left_mem {item : Item} (hmem : item ∈ db.items) (hinherits : item.inherits = true) :
    db.left item ∈ db.reconcile.items ∧ (db.left item).inherits = true := by
  exact ⟨List.mem_map_of_mem hmem, (left_inherits item).trans hinherits⟩

/-- A second run computes the sharing that the first one wrote. -/
theorem final_again {item : Item} (hmem : item ∈ db.items) (hinherits : item.inherits = true) :
    (db.reconcile.final (db.left item)).public = (db.final item).public ∧
      (db.reconcile.final (db.left item)).ownGroup = (db.final item).ownGroup ∧
      ∀ key, (db.reconcile.effective (db.reconcile.final (db.left item))).lookup key =
        (db.effective (db.final item)).lookup key := by
  obtain ⟨hmem', hinherits'⟩ := left_mem hmem hinherits
  have hfirst := (reconcile_sources db).justified hmem hinherits hmem' (left_source item)
      (project_justified hmem hinherits)
  have hsecond := project_justified hmem' hinherits'
  obtain ⟨hlevel, hgroup, hlookup⟩ := hsecond.unique hfirst
  obtain ⟨hlevel', hgroup', hlookup'⟩ := db.project_spec (db.final item)
  obtain ⟨hlevel'', hgroup'', hlookup''⟩ := db.reconcile.project_spec (db.reconcile.final (db.left item))
  refine ⟨?_, ?_, fun key => ?_⟩
  · exact hlevel''.symm.trans (hlevel.trans hlevel')
  · exact hgroup''.symm.trans (hgroup.trans hgroup')
  · exact (hlookup'' key).symm.trans ((hlookup key).trans (hlookup' key))

/-- A second run finds every item as it should be. -/
theorem nothing_left {item : Item} (hmem : item ∈ db.items) (hinherits : item.inherits = true) :
    db.reconcile.projected (db.reconcile.final (db.left item)) = true ∧
      db.reconcile.visibilityDrift (db.left item) (db.reconcile.final (db.left item)) = false := by
  obtain ⟨hmem', hinherits'⟩ := left_mem hmem hinherits
  obtain ⟨hpublic, hgroup, hlookup⟩ := final_again hmem hinherits
  constructor
  · obtain ⟨hlevel, hgroup', hlookup'⟩ := db.project_spec (db.final item)
    rw [projected_iff, (final_kept hmem' hinherits').1, (Item.source_kept (left_source item)).2.1,
      reconcile_config hmem hinherits, reconcile_grants hmem hinherits]
    exact ⟨hlevel.trans hpublic.symm, hgroup'.trans hgroup.symm, fun key => (hlookup' key).trans (hlookup key).symm⟩
  · unfold visibilityDrift
    split
    case h_1 readOnly documentType visibility hkind =>
      unfold left at hkind
      rw [if_pos hinherits] at hkind
      rw [rewritten_visibility hkind, expectedVisibility_congr hpublic hgroup hlookup]
      exact decide_eq_false (not_not_intro rfl)
    case h_2 => rfl

/-- A second pass changes nothing. -/
theorem reconcile_twice (db : Database) : db.reconcile.reconcile = db.reconcile ∧ db.reconcile.changed = 0 := by
  -- What takes part in the second run was left by the first one.
  have hthere : ∀ item' ∈ db.reconcile.items, item'.inherits = true →
      db.reconcile.projected (db.reconcile.final item') = true ∧
        db.reconcile.visibilityDrift item' (db.reconcile.final item') = false := by
    intro item' hmem' hinherits'
    obtain ⟨item, hmem, rfl⟩ := List.mem_map.mp hmem'
    exact nothing_left hmem ((left_inherits item).symm.trans hinherits')
  have hshare : ∀ {shareId item'}, db.reconcile.shareItem? shareId = some item' →
      item' ∈ db.reconcile.items ∧ item'.inherits = true ∧ item'.shareId = shareId := shareItem?_eq_some.mp
  constructor
  · ext1
    case items =>
      show db.reconcile.items.map db.reconcile.left = db.reconcile.items
      refine (List.map_congr_left fun item' hmem' => ?_).trans (List.map_id _)
      show db.reconcile.left item' = item'
      unfold left
      split
      case isTrue hinherits' =>
        obtain ⟨hprojected, hdrift⟩ := hthere item' hmem' hinherits'
        unfold rewritten
        rw [hprojected, hdrift]
        rfl
      case isFalse => rfl
    case config =>
      funext shareId
      show ((db.reconcile.shareItem? shareId).map fun item => (db.reconcile.project (db.reconcile.final item)).1).getD
        (db.reconcile.config shareId) = db.reconcile.config shareId
      cases hfound : db.reconcile.shareItem? shareId with
      | none => rfl
      | some item' =>
        obtain ⟨hmem', hinherits', rfl⟩ := hshare hfound
        show (db.reconcile.project (db.reconcile.final item')).1 = _
        unfold project
        rw [if_pos (hthere item' hmem' hinherits').1, (final_kept hmem' hinherits').1]
    case grants =>
      funext shareId
      show ((db.reconcile.shareItem? shareId).map fun item => (db.reconcile.project (db.reconcile.final item)).2).getD
        (db.reconcile.grants shareId) = db.reconcile.grants shareId
      cases hfound : db.reconcile.shareItem? shareId with
      | none => rfl
      | some item' =>
        obtain ⟨hmem', hinherits', rfl⟩ := hshare hfound
        show (db.reconcile.project (db.reconcile.final item')).2 = _
        unfold project
        rw [if_pos (hthere item' hmem' hinherits').1, (final_kept hmem' hinherits').1]
    case intent =>
      funext shareId
      show ((db.reconcile.shareItem? shareId).map fun item => db.reconcile.own item.shareId).or
        (db.reconcile.intent shareId) = db.reconcile.intent shareId
      cases hfound : db.reconcile.shareItem? shareId with
      | none => rfl
      | some item' =>
        obtain ⟨hmem', hinherits', rfl⟩ := hshare hfound
        obtain ⟨item, hmem, rfl⟩ := List.mem_map.mp hmem'
        have hinherits : item.inherits = true := (left_inherits item).symm.trans hinherits'
        have hsame : (db.left item).shareId = item.shareId := (Item.source_kept (left_source item)).2.1
        obtain ⟨hintent, hown⟩ := own_reconcile hmem hinherits
        show some (db.reconcile.own (db.left item).shareId) = db.reconcile.intent (db.left item).shareId
        rw [hsame, hintent, hown]
    all_goals rfl
  · unfold changed
    rw [List.length_eq_zero_iff, List.filter_eq_nil_iff]
    intro item' hmem'
    obtain ⟨hmem', hinherits'⟩ := mem_policyItems.mp hmem'
    obtain ⟨hprojected, hdrift⟩ := hthere item' hmem' hinherits'
    rw [hprojected, hdrift]
    exact Bool.false_ne_true

/-- With an intent for every item, what was effective is not read. -/
theorem sources_of_intents
    (h : ∀ item ∈ db.items, item.inherits = true → ∃ intent, db.intent item.shareId = some intent)
    (config : Id → Config) (grants : Id → Grants) : SameSources db {db with config := config, grants := grants} where
  items _ := Iff.rfl
  agentUser _ := rfl
  userTeams _ := Iff.rfl
  agentTeams _ := Iff.rfl
  assignments _ := Iff.rfl
  nestings _ := Iff.rfl
  own item hmem hinherits := by
    obtain ⟨intent, hintent⟩ := h item hmem hinherits
    have hother : Database.intent {db with config := config, grants := grants} item.shareId = some intent := hintent
    rw [own_of_intent hintent, own_of_intent hother]
    exact ⟨rfl, rfl, fun _ => rfl⟩

/-- Two databases with the same sources end with the same sharing. -/
theorem reconcile_congr {db' : Database} (h : SameSources db db') {item : Item} (hmem : item ∈ db.items)
    (hinherits : item.inherits = true) :
    (db'.reconcile.config item.shareId).globalAccess = (db.reconcile.config item.shareId).globalAccess ∧
      (db'.reconcile.config item.shareId).groupAccess = (db.reconcile.config item.shareId).groupAccess ∧
      ∀ key, (db'.reconcile.grants item.shareId).lookup key = (db.reconcile.grants item.shareId).lookup key := by
  obtain ⟨item', hmem', hinherits', hsource⟩ := h.takesPart hmem hinherits
  have hhere := h.justified hmem hinherits hmem' hsource (reconcile_justified hmem hinherits)
  have hthere := reconcile_justified hmem' hinherits'
  rw [(Item.source_kept hsource).2.1] at hthere
  exact hthere.unique hhere

end Database

/-- A public folder of user 1, in it a document of user 2, and below that a document of user 1. -/
def passedOver : Database where
  items :=
    [⟨1, 11, some 1, none, .folder none, 0⟩,
      ⟨2, 12, some 2, none, .document false "text" .private', 0⟩,
      ⟨3, 13, some 1, none, .document false "html" .private', 0⟩]
  agentUser _ := none
  principals := [(.team, 7)]
  userTeams := [(1, 7)]
  agentTeams := []
  assignments := [(1, 2)]
  nestings := [(1, 2, 3)]
  config _ := ⟨0, 0, 0⟩
  grants _ := ∅
  intent shareId := if shareId = 11 then some ⟨2, 1, ∅⟩ else none
  identities := by decide
  shares := by decide

/-- The document of the other user is passed over. -/
example : [11, 12, 13].map (fun shareId =>
    (passedOver.reconcile.config shareId, (passedOver.reconcile.grants shareId).entries)) =
    [(⟨2, 1, 1⟩, []), (⟨0, 0, 0⟩, []), (⟨2, 0, 1⟩, [⟨(.team, 7), false⟩])] := by decide +kernel

end Galaris.Documents
