import Galaris.Document.Sharing

/-! What `reconcile_sharing` leaves: the least sharing that the intents and placements give.

A grant is read as a right, 0 (none), 1 (read) or 2 (write), so that merging two policies is
the join of their levels and of their rights (`policyRules`) and the work queue is a
propagation. The edges are what an owner placed below an item, directly or through items the
owner may not share (`mem_edges`). -/
namespace Galaris.Documents

/-! ### Rights -/

def rank : Option Bool → Nat
  | none => 0
  | some false => 1
  | some true => 2

/-- The right of a principal. -/
def Grants.right (grants : Grants) (key : Principal) : Nat := rank (grants.lookup key)

theorem rank_injective {a b : Option Bool} (h : rank a = rank b) : a = b := by
  rcases a with _ | _ | _ <;> rcases b with _ | _ | _ <;> first | rfl | cases h

theorem eq_of_thresholds {a b : Nat} (h : ∀ r, 1 ≤ r → (r ≤ a ↔ r ≤ b)) : a = b := by
  refine le_antisymm ?_ ?_
  · obtain rfl | ha := Nat.eq_zero_or_pos a
    · exact Nat.zero_le b
    · exact (h a ha).mp le_rfl
  · obtain rfl | hb := Nat.eq_zero_or_pos b
    · exact Nat.zero_le a
    · exact (h b hb).mpr le_rfl

/-- A grant of at least this right. -/
def Offers (entries : List (Sigma fun _ : Principal => Bool)) (key : Principal) (r : Nat) : Prop :=
  ∃ entry ∈ entries, entry.1 = key ∧ r ≤ rank (some entry.2)

namespace Grants

theorem right_insert (grants : Grants) (key other : Principal) (write : Bool) :
    right (grants.insert key write) other = if other = key then rank (some write) else right grants other := by
  unfold right
  split
  case isTrue heq =>
    subst heq
    rw [AList.lookup_insert]
  case isFalse hne => rw [AList.lookup_insert_ne hne]

theorem right_allow (grants : Grants) (key other : Principal) (write : Bool) :
    right (grants.allow key write) other =
      if other = key then max (right grants key) (rank (some write)) else right grants other := by
  unfold allow
  rw [right_insert]
  split
  · unfold right
    cases grants.lookup key with
    | none => cases write <;> rfl
    | some before => cases before <;> cases write <;> rfl
  · rfl

theorem le_right_iff {grants : Grants} {key : Principal} {r : Nat} (hr : 1 ≤ r) :
    r ≤ right grants key ↔ Offers grants.entries key r := by
  constructor
  · intro h
    unfold right at h
    cases hlookup : grants.lookup key with
    | none =>
      rw [hlookup] at h
      exact absurd (hr.trans h) (by decide)
    | some write =>
      rw [hlookup] at h
      exact ⟨⟨key, write⟩, AList.mem_lookup_iff.mp hlookup, rfl, h⟩
  · rintro ⟨⟨found, write⟩, hmem, rfl, hle⟩
    unfold right
    rw [AList.mem_lookup_iff.mpr hmem]
    exact hle

/-- What is allowed in turn adds up. -/
theorem le_right_foldl {γ : Type} (entry : γ → Principal × Bool) (entries : List γ) (grants : Grants) (key : Principal)
    (r : Nat) :
    r ≤ right (entries.foldl (fun grants e => allow grants (entry e).1 (entry e).2) grants) key ↔
      r ≤ right grants key ∨ ∃ e ∈ entries, (entry e).1 = key ∧ r ≤ rank (some (entry e).2) := by
  induction entries generalizing grants with
  | nil => simp
  | cons e rest ih =>
    rw [List.foldl_cons, ih, right_allow, List.exists_mem_cons_iff]
    by_cases hkey : key = (entry e).1
    · rw [if_pos hkey, le_max_iff, ← hkey, or_assoc]
      simp
    · rw [if_neg hkey]
      simp [Ne.symm hkey]

theorem right_keep (grants : Grants) (keep : Principal → Bool) (key : Principal) :
    right (Grants.keep grants keep) key = if keep key then right grants key else 0 := by
  have herase : ∀ (keys : List Principal) (grants : Grants),
      (keys.foldl (fun (grants : Grants) key => grants.erase key) grants).lookup key =
        if key ∈ keys then none else grants.lookup key := by
    intro keys
    induction keys with
    | nil => simp
    | cons first rest ih =>
      intro grants
      rw [List.foldl_cons, ih]
      by_cases hkey : key = first
      · subst hkey
        simp
      · simp [hkey, AList.lookup_erase_ne hkey]
  unfold right Grants.keep
  rw [herase]
  simp only [List.mem_filter, ← AList.mem_keys]
  cases hkeep : keep key with
  | true => simp
  | false =>
    by_cases hmem : key ∈ grants
    · simp [hmem, rank]
    · simp [hmem, AList.lookup_eq_none.mpr hmem, rank]

end Grants

theorem sameGrants_iff {a b : Grants} : sameGrants a b = true ↔ ∀ key, a.lookup key = b.lookup key := by
  unfold sameGrants
  simp only [List.all_eq_true, List.mem_append, ← AList.mem_keys, beq_iff_eq]
  refine ⟨fun h key => ?_, fun h key _ => h key⟩
  by_cases ha : key ∈ a
  · exact h key (.inl ha)
  · by_cases hb : key ∈ b
    · exact h key (.inr hb)
    · rw [AList.lookup_eq_none.mpr ha, AList.lookup_eq_none.mpr hb]

/-! ### `Policy.merge` is a join -/

namespace Policy

theorem gains_iff (policy : Policy) (key : Principal) (write : Bool) :
    policy.gains key write = false ↔ rank (some write) ≤ policy.grants.right key := by
  unfold gains Grants.right
  cases policy.grants.lookup key with
  | none => cases write <;> decide
  | some before => cases before <;> cases write <;> decide

/-- One grant raises the right of its principal. -/
theorem right_receive (result : Policy × Bool) (entry : Sigma fun _ : Principal => Bool) (key : Principal) :
    (receive result entry).1.grants.right key =
      if key = entry.1 then max (result.1.grants.right key) (rank (some entry.2)) else result.1.grants.right key := by
  unfold receive
  dsimp only
  split
  case isTrue hgain =>
    rw [Grants.right_insert]
    split
    case isTrue heq =>
      subst heq
      have hless : ¬ rank (some entry.2) ≤ result.1.grants.right entry.1 := by
        rw [← gains_iff, hgain]
        exact nofun
      exact (max_eq_right (Nat.le_of_not_le hless)).symm
    case isFalse => rfl
  case isFalse hgain =>
    split
    case isTrue heq =>
      subst heq
      exact (max_eq_left ((gains_iff _ _ _).mp (Bool.eq_false_iff.mpr hgain))).symm
    case isFalse => rfl

theorem inherited_receive (result : Policy × Bool) (entry : Sigma fun _ : Principal => Bool) :
    (receive result entry).1.inherited = result.1.inherited.allow entry.1 entry.2 := by
  unfold receive
  split <;> rfl

/-- The fields that no grant changes. -/
theorem receive_kept (result : Policy × Bool) (entry : Sigma fun _ : Principal => Bool) :
    (receive result entry).1.public = result.1.public ∧ (receive result entry).1.shareId = result.1.shareId ∧
      (receive result entry).1.ownGroup = result.1.ownGroup := by
  unfold receive
  split <;> exact ⟨rfl, rfl, rfl⟩

theorem foldl_receive_kept (entries : List (Sigma fun _ : Principal => Bool)) (result : Policy × Bool) :
    (entries.foldl receive result).1.public = result.1.public ∧
    (entries.foldl receive result).1.shareId = result.1.shareId ∧
      (entries.foldl receive result).1.ownGroup = result.1.ownGroup := by
  induction entries generalizing result with
  | nil => exact ⟨rfl, rfl, rfl⟩
  | cons entry rest ih =>
    obtain ⟨hpublic, hshare, hgroup⟩ := ih (receive result entry)
    obtain ⟨hpublic', hshare', hgroup'⟩ := receive_kept result entry
    exact ⟨hpublic.trans hpublic', hshare.trans hshare', hgroup.trans hgroup'⟩

theorem le_right_foldl_receive (entries : List (Sigma fun _ : Principal => Bool))
    (result : Policy × Bool) (key : Principal)
    (r : Nat) :
    r ≤ (entries.foldl receive result).1.grants.right key ↔
      r ≤ result.1.grants.right key ∨ Offers entries key r := by
  unfold Offers
  induction entries generalizing result with
  | nil => simp
  | cons entry rest ih =>
    rw [List.foldl_cons, ih, right_receive, List.exists_mem_cons_iff]
    by_cases hkey : key = entry.1
    · rw [if_pos hkey, le_max_iff, ← hkey, or_assoc]
      simp
    · rw [if_neg hkey]
      simp [Ne.symm hkey]

theorem foldl_receive_inherited (entries : List (Sigma fun _ : Principal => Bool)) (result : Policy × Bool) :
    (entries.foldl receive result).1.inherited =
      entries.foldl (fun grants entry => Grants.allow grants entry.1 entry.2) result.1.inherited := by
  induction entries generalizing result with
  | nil => rfl
  | cons entry rest ih =>
    rw [List.foldl_cons, ih, inherited_receive]
    rfl

/-- The policy is reported as unchanged where every grant was covered. -/
theorem foldl_receive_changed (entries : List (Sigma fun _ : Principal => Bool)) (result : Policy × Bool) :
    (entries.foldl receive result).2 = false ↔
      result.2 = false ∧ ∀ entry ∈ entries, rank (some entry.2) ≤ result.1.grants.right entry.1 := by
  induction entries generalizing result with
  | nil => simp
  | cons entry rest ih =>
    rw [List.foldl_cons, ih, List.forall_mem_cons]
    cases hgain : result.1.gains entry.1 entry.2 with
    | true =>
      have hless : ¬ rank (some entry.2) ≤ result.1.grants.right entry.1 := by
        rw [← gains_iff, hgain]
        exact nofun
      have hflag : (receive result entry).2 = true := by
        unfold receive
        rw [if_pos hgain]
      rw [hflag]
      exact ⟨fun h => absurd h.1 nofun, fun h => absurd h.2.1 hless⟩
    | false =>
      have hle := (gains_iff _ _ _).mp hgain
      have hkept : (receive result entry).2 = result.2 ∧ (receive result entry).1.grants = result.1.grants := by
        unfold receive
        simp [hgain]
      rw [hkept.1, hkept.2]
      exact ⟨fun h => ⟨h.1, hle, h.2⟩, fun h => ⟨h.1, h.2.2⟩⟩

/-- The level and the rights of a policy. -/
def value (policy : Policy) : Nat × (Principal → Nat) := (policy.public, policy.grants.right)

theorem value_merge (policy source : Policy) : (policy.merge source).1.value = policy.value ⊔ source.value := by
  unfold merge value
  refine Prod.ext ?_ (funext fun key => ?_)
  · exact (foldl_receive_kept _ _).1
  · refine eq_of_thresholds fun r hr => ?_
    rw [le_right_foldl_receive, ← Grants.le_right_iff hr]
    exact le_sup_iff.symm

theorem inherited_merge (policy source : Policy) :
    (policy.merge source).1.inherited.right = policy.inherited.right ⊔ source.grants.right := by
  refine funext fun key => eq_of_thresholds fun r hr => ?_
  have hfold := Grants.le_right_foldl (fun entry : Sigma fun _ : Principal => Bool => (entry.1, entry.2))
    source.grants.entries policy.inherited key r
  unfold merge
  rw [foldl_receive_inherited]
  exact hfold.trans ((or_congr Iff.rfl (Grants.le_right_iff hr).symm).trans le_sup_iff.symm)

theorem changed_merge (policy source : Policy) : (policy.merge source).2 = false ↔ source.value ≤ policy.value := by
  unfold merge
  rw [foldl_receive_changed, decide_eq_false_iff_not, Nat.not_lt]
  refine and_congr Iff.rfl ⟨fun h key => ?_, fun h entry hentry => ?_⟩
  · obtain hzero | hpos := Nat.eq_zero_or_pos (source.grants.right key)
    · show source.grants.right key ≤ _
      rw [hzero]
      exact Nat.zero_le _
    · obtain ⟨entry, hentry, rfl, hle⟩ := (Grants.le_right_iff hpos).mp le_rfl
      exact hle.trans (h entry hentry)
  · have hpos : 1 ≤ rank (some entry.2) := by cases entry.2 <;> decide
    exact ((Grants.le_right_iff hpos).mpr ⟨entry, hentry, rfl, le_rfl⟩).trans (h entry.1)

end Policy

/-- The work queue of `reconcile_sharing` is a propagation of levels and rights. -/
def policyRules : Propagation.Rules Policy (Nat × (Principal → Nat)) (Principal → Nat) where
  merge := Policy.merge
  value := Policy.value
  received policy := policy.inherited.right
  part := Prod.snd
  part_mono := monotone_snd
  value_merge := Policy.value_merge
  changed_merge := Policy.changed_merge
  received_merge := Policy.inherited_merge

/-! ### Items and placements -/

namespace Database
variable {db : Database}

theorem mem_policyItems {item : Item} :
    item ∈ db.policyItems ↔ item ∈ db.items ∧ item.inherits = true := List.mem_filter

theorem eq_of_identity {item other : Item} (hitem : item ∈ db.items) (hother : other ∈ db.items)
    (heq : item.identity = other.identity) : item = other := List.inj_on_of_nodup_map db.identities hitem hother heq

theorem eq_of_shareId {item other : Item} (hitem : item ∈ db.items) (hother : other ∈ db.items)
    (heq : item.shareId = other.shareId) : item = other := List.inj_on_of_nodup_map db.shares hitem hother heq

theorem item?_eq_some {identity : Id} {item : Item} :
    db.item? identity = some item ↔ item ∈ db.items ∧ item.inherits = true ∧ item.identity = identity := by
  unfold item?
  constructor
  · intro h
    have hmem := mem_policyItems.mp (List.mem_of_find?_eq_some h)
    exact ⟨hmem.1, hmem.2, by simpa using List.find?_some h⟩
  · rintro ⟨hitem, hinherits, rfl⟩
    obtain ⟨found, hfound⟩ : ∃ found, db.policyItems.find? (·.identity = item.identity) = some found := by
      rw [← Option.isSome_iff_exists, List.find?_isSome]
      exact ⟨item, mem_policyItems.mpr ⟨hitem, hinherits⟩, by simp⟩
    have hmem := mem_policyItems.mp (List.mem_of_find?_eq_some hfound)
    have heq : found.identity = item.identity := by simpa using List.find?_some hfound
    rw [hfound, eq_of_identity hmem.1 hitem heq]

theorem shareItem?_eq_some {shareId : Id} {item : Item} :
    db.shareItem? shareId = some item ↔ item ∈ db.items ∧ item.inherits = true ∧ item.shareId = shareId := by
  unfold shareItem?
  constructor
  · intro h
    have hmem := mem_policyItems.mp (List.mem_of_find?_eq_some h)
    exact ⟨hmem.1, hmem.2, by simpa using List.find?_some h⟩
  · rintro ⟨hitem, hinherits, rfl⟩
    obtain ⟨found, hfound⟩ : ∃ found, db.policyItems.find? (·.shareId = item.shareId) = some found := by
      rw [← Option.isSome_iff_exists, List.find?_isSome]
      exact ⟨item, mem_policyItems.mpr ⟨hitem, hinherits⟩, by simp⟩
    have hmem := mem_policyItems.mp (List.mem_of_find?_eq_some hfound)
    have heq : found.shareId = item.shareId := by simpa using List.find?_some hfound
    rw [hfound, eq_of_shareId hmem.1 hitem heq]

/-- The user owns an item that takes part, and may share it. -/
def Shares (db : Database) (user : Nat) (identity : Id) : Prop :=
  ∃ item ∈ db.items, item.inherits = true ∧ item.identity = identity ∧
    db.ownerUser item = some user ∧ item.shareable = true

theorem gives_iff {user : Nat} {identity : Id} : db.gives user identity = true ↔ db.Shares user identity := by
  unfold gives Shares
  rw [Option.any_eq_true]
  constructor
  · rintro ⟨item, hitem, hgives⟩
    obtain ⟨hmem, hinherits, hidentity⟩ := item?_eq_some.mp hitem
    rw [Bool.and_eq_true, beq_iff_eq] at hgives
    exact ⟨item, hmem, hinherits, hidentity, hgives.1, hgives.2⟩
  · rintro ⟨item, hmem, hinherits, hidentity, howner, hshareable⟩
    refine ⟨item, item?_eq_some.mpr ⟨hmem, hinherits, hidentity⟩, ?_⟩
    rw [howner, hshareable, beq_self_eq_true]
    rfl

/-- The user placed the child in the parent: a folder in a folder, a document in a folder of the
user, or a document below another one. -/
def Placed (db : Database) (user : Nat) (parent child : Id) : Prop :=
  (∃ item ∈ db.items, item.kind = .folder (some parent) ∧ item.user = some user ∧ item.identity = child ∧
      ∃ other ∈ db.items, other.isFolder = true ∧ other.identity = parent) ∨
    ((parent, child) ∈ db.assignments ∧
      ∃ folder ∈ db.items, folder.isFolder = true ∧ folder.identity = parent ∧ folder.user = some user) ∨
    (user, parent, child) ∈ db.nestings

theorem folderUser_eq_some {identity : Id} {user : Nat} : db.folderUser identity = some user ↔
    ∃ folder ∈ db.items, folder.isFolder = true ∧ folder.identity = identity ∧ folder.user = some user := by
  unfold folderUser
  rw [Option.bind_eq_some_iff]
  constructor
  · rintro ⟨folder, hfound, huser⟩
    have hfolder := List.find?_some hfound
    rw [Bool.and_eq_true, decide_eq_true_eq] at hfolder
    exact ⟨folder, List.mem_of_find?_eq_some hfound, hfolder.1, hfolder.2, huser⟩
  · rintro ⟨folder, hmem, hfolder, hidentity, huser⟩
    obtain ⟨found, hfound⟩ : ∃ found,
        (db.items.find? fun item => item.isFolder && item.identity = identity) = some found := by
      rw [← Option.isSome_iff_exists, List.find?_isSome]
      exact ⟨folder, hmem, by simp [hfolder, hidentity]⟩
    have hkind := List.find?_some hfound
    rw [Bool.and_eq_true, decide_eq_true_eq] at hkind
    rw [eq_of_identity (List.mem_of_find?_eq_some hfound) hmem (hkind.2.trans hidentity.symm)] at hfound
    exact ⟨folder, hfound, huser⟩

theorem mem_placedBy {user : Nat} {parent child : Id} :
    (parent, child) ∈ db.placedBy user ↔ db.Placed user parent child := by
  have hfolder : (user, parent, child) ∈ db.folderPlacements ↔
      ∃ item ∈ db.items, item.kind = .folder (some parent) ∧ item.user = some user ∧ item.identity = child ∧
        ∃ other ∈ db.items, other.isFolder = true ∧ other.identity = parent := by
    unfold folderPlacements
    rw [List.mem_filterMap]
    refine exists_congr fun item => and_congr_right fun _ => ?_
    split
    case h_1 folder placer hkind huser =>
      rw [hkind, huser]
      simp only [List.any_eq_true, Bool.and_eq_true, decide_eq_true_eq]
      split
      case isTrue hthere =>
        rw [Option.some.injEq, Prod.mk.injEq, Prod.mk.injEq, Kind.folder.injEq, Option.some.injEq, Option.some.injEq]
        constructor
        · rintro ⟨rfl, rfl, rfl⟩
          exact ⟨rfl, rfl, rfl, hthere⟩
        · rintro ⟨rfl, rfl, rfl, -⟩
          exact ⟨rfl, rfl, rfl⟩
      case isFalse hnot =>
        refine ⟨nofun, fun ⟨hparent, _, _, hthere⟩ => absurd ?_ hnot⟩
        cases hparent
        exact hthere
    case h_2 hnone =>
      refine ⟨nofun, fun ⟨hkind, huser, _⟩ => ?_⟩
      exact absurd huser (hnone parent user hkind)
  have hassigned : (user, parent, child) ∈ db.assignmentPlacements ↔ (parent, child) ∈ db.assignments ∧
      ∃ folder ∈ db.items, folder.isFolder = true ∧ folder.identity = parent ∧ folder.user = some user := by
    unfold assignmentPlacements
    rw [List.mem_filterMap, ← folderUser_eq_some]
    constructor
    · rintro ⟨⟨tag, document⟩, hmem, hrow⟩
      obtain ⟨placer, huser, heq⟩ := Option.map_eq_some_iff.mp hrow
      cases heq
      exact ⟨hmem, huser⟩
    · rintro ⟨hmem, huser⟩
      exact ⟨(parent, child), hmem, by rw [huser]; rfl⟩
  have hmem : (parent, child) ∈ db.placedBy user ↔ (user, parent, child) ∈ db.placements := by
    unfold placedBy
    rw [List.mem_map]
    constructor
    · rintro ⟨⟨placer, row⟩, hrow, rfl⟩
      obtain ⟨hrow, huser⟩ := List.mem_filter.mp hrow
      rw [decide_eq_true_eq] at huser
      exact huser ▸ hrow
    · intro hrow
      exact ⟨(user, parent, child), List.mem_filter.mpr ⟨hrow, by simp⟩, rfl⟩
  rw [hmem]
  unfold placements Placed
  rw [List.mem_append, List.mem_append, hfolder, hassigned, or_assoc]

/-! ### The edges -/

/-- The owner of the parent shares it with the child: the child lies below the parent in the owner's
placements, through items that the owner may not share. -/
def Leads (db : Database) (parent child : Id) : Prop :=
  ∃ user, db.Shares user parent ∧ db.Shares user child ∧ child ≠ parent ∧ ∃ first, db.Placed user parent first ∧
    Relation.ReflTransGen (fun above below => ¬ db.Shares user above ∧ db.Placed user above below) first child

theorem mem_edges {parent child : Id} : child ∈ db.edges parent ↔ db.Leads parent child := by
  have hthrough : ∀ user first, Search.Through (db.placedBy user) (db.gives user) first child ↔
      Relation.ReflTransGen (fun above below => ¬ db.Shares user above ∧ db.Placed user above below) first child := by
    intro user first
    unfold Search.Through
    simp only [Bool.eq_false_iff, ne_eq, gives_iff, mem_placedBy]
  have hgather : ∀ user, db.gives user parent = true →
      (child ∈ Search.gather (db.placedBy user) (db.gives user)
          ((Search.targets (db.placedBy user) parent).length + (db.placedBy user).length + 1)
          (Search.targets (db.placedBy user) parent).reverse [parent] ↔
        db.Shares user child ∧ child ≠ parent ∧ ∃ first, db.Placed user parent first ∧
          Relation.ReflTransGen (fun above below => ¬ db.Shares user above ∧
              db.Placed user above below) first child) := by
    intro user hgives
    rw [Search.mem_gather (by rw [List.length_reverse]; omega) hgives, gives_iff]
    simp only [List.mem_reverse, Search.mem_targets, mem_placedBy, hthrough]
  unfold edges
  constructor
  · intro h
    split at h
    case h_1 user howner =>
      split at h
      case isTrue hgives => exact ⟨user, gives_iff.mp hgives, (hgather user hgives).mp h⟩
      case isFalse => cases h
    case h_2 => cases h
  · rintro ⟨user, hparent, hchild⟩
    have howner : (db.item? parent).bind db.ownerUser = some user := by
      obtain ⟨item, hmem, hinherits, hidentity, howner, -⟩ := hparent
      rw [item?_eq_some.mpr ⟨hmem, hinherits, hidentity⟩]
      exact howner
    have hgives := gives_iff.mpr hparent
    rw [howner]
    dsimp only
    rw [if_pos hgives]
    exact (hgather user hgives).mpr hchild

/-- The item shares with the other, or is the other. -/
def Reaches (db : Database) : Id → Id → Prop := Relation.ReflTransGen db.Leads

/-- The item shares with the other, directly or through others. -/
def Above (db : Database) : Id → Id → Prop := Relation.TransGen db.Leads

theorem Leads.items {parent child : Id} (h : db.Leads parent child) :
    (∃ item ∈ db.policyItems, item.identity = parent) ∧ ∃ item ∈ db.policyItems, item.identity = child := by
  obtain ⟨user, ⟨item, hmem, hinherits, hidentity, -⟩, ⟨other, hmem', hinherits', hidentity', -⟩, -⟩ := h
  exact ⟨⟨item, mem_policyItems.mpr ⟨hmem, hinherits⟩, hidentity⟩,
    ⟨other, mem_policyItems.mpr ⟨hmem', hinherits'⟩, hidentity'⟩⟩

end Database

/-! ### The end of the work queue -/

/-- A join of naturals is one of them. -/
theorem IsLUB.isGreatest_nat {s : Set Nat} {a : Nat} (h : IsLUB s a) (hs : s.Nonempty) : IsGreatest s a := by
  refine ⟨?_, h.1⟩
  obtain rfl | ha := Nat.eq_zero_or_pos a
  · obtain ⟨b, hb⟩ := hs
    exact (Nat.le_zero.mp (h.1 hb)) ▸ hb
  · obtain ⟨c, hc, hlt⟩ := (lt_isLUB_iff h).mp (Nat.sub_lt ha Nat.one_pos)
    have heq : c = a := le_antisymm (h.1 hc) (by omega)
    exact heq ▸ hc

namespace Database
variable {db : Database}

/-- The items that take part, as the nodes of the propagation. -/
def nodes (db : Database) : Finset Id := (db.policyItems.map (·.identity)).toFinset

theorem identities_nodup (db : Database) : (db.policyItems.map (·.identity)).Nodup :=
  db.identities.sublist (List.filter_sublist.map _)

theorem mem_nodes {identity : Id} : identity ∈ db.nodes ↔ ∃ item ∈ db.policyItems, item.identity = identity := by
  unfold nodes
  rw [List.mem_toFinset, List.mem_map]

theorem policies_of_mem {item : Item} (hmem : item ∈ db.items) (hinherits : item.inherits = true) :
    db.policies item.identity = db.policy item := by
  unfold policies
  rw [item?_eq_some.mpr ⟨hmem, hinherits, rfl⟩]
  rfl

theorem policies_inherited (db : Database) (identity : Id) : (db.policies identity).inherited = ∅ := by
  unfold policies
  cases db.item? identity with
  | none => rfl
  | some item => rfl

/-- Every item that takes part is queued once, and has inherited nothing. -/
theorem start (db : Database) :
    Propagation.Start policyRules db.edges db.policies db.nodes (db.policyItems.map (·.identity)) where
  targets source target hedge := by
    obtain ⟨hsource, htarget⟩ := (mem_edges.mp hedge).items
    exact ⟨mem_nodes.mpr hsource, mem_nodes.mpr htarget⟩
  received identity bound := by
    show (db.policies identity).inherited.right ≤ bound
    rw [policies_inherited]
    exact fun _ => Nat.zero_le _
  queued identity := by
    unfold nodes
    exact List.mem_toFinset.symm
  nodup := db.identities_nodup

theorem enough_nodes (db : Database) :
    Propagation.enough db.nodes = db.policyItems.length + db.policyItems.length * db.policyItems.length := by
  have hcard : db.nodes.card = db.policyItems.length := by
    unfold nodes
    rw [List.toFinset_card_of_nodup db.identities_nodup, List.length_map]
  unfold Propagation.enough
  rw [hcard]

theorem reaches_iff {a b : Id} : Propagation.Reaches db.edges a b ↔ db.Reaches a b := by
  unfold Propagation.Reaches Reaches
  simp only [mem_edges]

/-- The level of an item at the end is the greatest own level of the items that reach it. -/
theorem final_public {item : Item} (hmem : item ∈ db.items) (hinherits : item.inherits = true) :
    IsGreatest {level | ∃ other ∈ db.items, other.inherits = true ∧ db.Reaches other.identity item.identity ∧
      level = (db.own other.shareId).globalAccess} (db.final item).public := by
  have hnode : item.identity ∈ db.nodes := mem_nodes.mpr ⟨item, mem_policyItems.mpr ⟨hmem, hinherits⟩, rfl⟩
  have hlub := Propagation.final_value db.start (db.enough_nodes).le hnode
  have hlevel := (isLUB_prod.mp hlub).1
  -- What reaches an item that takes part takes part itself.
  have hreached : ∀ w, db.Reaches w item.identity → ∃ other ∈ db.policyItems, other.identity = w := by
    intro w hw
    obtain heq | ⟨next, hlead, -⟩ := Relation.ReflTransGen.cases_head hw
    · exact ⟨item, mem_policyItems.mpr ⟨hmem, hinherits⟩, heq.symm⟩
    · exact hlead.items.1
  have hset : Prod.fst '' ((fun w => policyRules.value (db.policies w)) ''
      {w | Propagation.Reaches db.edges w item.identity}) =
      {level | ∃ other ∈ db.items, other.inherits = true ∧ db.Reaches other.identity item.identity ∧
        level = (db.own other.shareId).globalAccess} := by
    ext level
    constructor
    · rintro ⟨_, ⟨w, hw, rfl⟩, rfl⟩
      obtain ⟨other, hother, rfl⟩ := hreached w (reaches_iff.mp hw)
      obtain ⟨hother, hinherits'⟩ := mem_policyItems.mp hother
      exact ⟨other, hother, hinherits', reaches_iff.mp hw, congrArg (·.public) (policies_of_mem hother hinherits')⟩
    · rintro ⟨other, hother, hinherits', hreach, rfl⟩
      exact ⟨_, ⟨other.identity, reaches_iff.mpr hreach, rfl⟩, congrArg (·.public) (policies_of_mem hother hinherits')⟩
  rw [hset] at hlevel
  exact IsLUB.isGreatest_nat hlevel ⟨_, item, hmem, hinherits, .refl, rfl⟩

/-- The rights at the end come from the policies of the items that reach the item. -/
theorem final_right {item : Item} (hmem : item ∈ db.items) (hinherits : item.inherits = true)
    (key : Principal) {r : Nat}
    (hr : 1 ≤ r) : r ≤ (db.final item).grants.right key ↔
      ∃ other ∈ db.items, other.inherits = true ∧ db.Reaches other.identity item.identity ∧
        r ≤ (db.policy other).grants.right key := by
  have hnode : item.identity ∈ db.nodes := mem_nodes.mpr ⟨item, mem_policyItems.mpr ⟨hmem, hinherits⟩, rfl⟩
  have hlub := Propagation.final_value db.start (db.enough_nodes).le hnode
  have hright := isLUB_pi.mp (isLUB_prod.mp hlub).2 key
  have hlt := lt_isLUB_iff (b := r - 1) hright
  constructor
  · intro hle
    obtain ⟨c, ⟨_, ⟨_, ⟨w, hw, rfl⟩, rfl⟩, rfl⟩, hc⟩ := hlt.mp (lt_of_lt_of_le (Nat.sub_lt hr Nat.one_pos) hle)
    have hc : r ≤ (db.policies w).grants.right key := by
      have : r - 1 < (db.policies w).grants.right key := hc
      omega
    have hthere : ∃ other ∈ db.policyItems, other.identity = w := by
      obtain heq | ⟨next, hlead, -⟩ := Relation.ReflTransGen.cases_head (reaches_iff.mp hw)
      · exact ⟨item, mem_policyItems.mpr ⟨hmem, hinherits⟩, heq.symm⟩
      · exact hlead.items.1
    obtain ⟨other, hother, rfl⟩ := hthere
    obtain ⟨hother, hinherits'⟩ := mem_policyItems.mp hother
    rw [policies_of_mem hother hinherits'] at hc
    exact ⟨other, hother, hinherits', reaches_iff.mp hw, hc⟩
  · rintro ⟨other, hother, hinherits', hreach, hle⟩
    rw [← policies_of_mem hother hinherits'] at hle
    have hbound := hright.1 ⟨_, ⟨_, ⟨other.identity, reaches_iff.mpr hreach, rfl⟩, rfl⟩, rfl⟩
    exact hle.trans hbound

/-- The inherited rights at the end come from the policies of the items above the item. -/
theorem final_inherited (item : Item) (key : Principal) {r : Nat} (hr : 1 ≤ r) :
    r ≤ (db.final item).inherited.right key ↔
      ∃ other ∈ db.items, other.inherits = true ∧ db.Above other.identity item.identity ∧
        r ≤ (db.policy other).grants.right key := by
  have hright := isLUB_pi.mp (Propagation.final_received db.start (db.enough_nodes).le item.identity) key
  constructor
  · intro hle
    obtain ⟨c, ⟨_, ⟨source, hedge, rfl⟩, rfl⟩, hc⟩ :=
      (lt_isLUB_iff (b := r - 1) hright).mp (lt_of_lt_of_le (Nat.sub_lt hr Nat.one_pos) hle)
    have hlead := mem_edges.mp hedge
    obtain ⟨parent, hparent, rfl⟩ := hlead.items.1
    obtain ⟨hparent, hinherits⟩ := mem_policyItems.mp hparent
    have hc : r ≤ (db.final parent).grants.right key := by
      have : r - 1 < (db.final parent).grants.right key := hc
      omega
    obtain ⟨other, hother, hinherits', hreach, hle⟩ := (final_right hparent hinherits key hr).mp hc
    exact ⟨other, hother, hinherits', Relation.TransGen.tail' hreach hlead, hle⟩
  · rintro ⟨other, hother, hinherits', habove, hle⟩
    obtain ⟨source, hreach, hlead⟩ := Relation.TransGen.tail'_iff.mp habove
    obtain ⟨parent, hparent, rfl⟩ := hlead.items.1
    obtain ⟨hparent, hinherits⟩ := mem_policyItems.mp hparent
    have hfinal := (final_right hparent hinherits key hr).mpr ⟨other, hother, hinherits', hreach, hle⟩
    have hbound := hright.1 ⟨_, ⟨parent.identity, mem_edges.mpr hlead, rfl⟩, rfl⟩
    exact hfinal.trans hbound

/-- The propagation keeps what a policy belongs to. -/
theorem final_kept {item : Item} (hmem : item ∈ db.items) (hinherits : item.inherits = true) :
    (db.final item).shareId = item.shareId ∧ (db.final item).ownGroup = (db.own item.shareId).groupAccess := by
  let K : Id → Policy → Prop := fun identity policy =>
    policy.shareId = (db.policies identity).shareId ∧ policy.ownGroup = (db.policies identity).ownGroup
  have hmerge : ∀ identity a b, K identity a → K identity (Policy.merge a b).1 := by
    intro identity a b h
    obtain ⟨-, hshare, hgroup⟩ := Policy.foldl_receive_kept b.grants.entries
      ({a with «public» := max a.public b.public}, decide (a.public < b.public))
    exact ⟨hshare.trans h.1, hgroup.trans h.2⟩
  have hkeeps : K item.identity (db.final item) :=
      Propagation.run_keeps hmerge (fun identity => ⟨rfl, rfl⟩) item.identity
  simp only [K] at hkeeps
  rw [policies_of_mem hmem hinherits] at hkeeps
  exact hkeeps

/-! ### What is written -/

theorem effective_right (policy : Policy) (key : Principal) {r : Nat} (hr : 1 ≤ r) :
    r ≤ (db.effective policy).right key ↔
      r ≤ (db.own policy.shareId).grants.right key ∨ r ≤ policy.inherited.right key := by
  have hfold := Grants.le_right_foldl (fun entry : Sigma fun _ : Principal => Bool => (entry.1, entry.2))
    policy.inherited.entries (db.own policy.shareId).grants key r
  exact hfold.trans (or_congr Iff.rfl (Grants.le_right_iff hr).symm)

theorem lookup_projectRows (current grants : Grants) (key : Principal) :
    (projectRows current grants).lookup key = grants.lookup key := by
  unfold projectRows
  by_cases hmem : key ∈ grants
  · exact AList.lookup_union_left hmem
  · rw [AList.lookup_union_right hmem, AList.lookup_eq_none.mpr hmem]
    have hkept := Grants.right_keep current (fun key => decide (key ∈ grants)) key
    rw [if_neg (by simpa using hmem)] at hkept
    exact rank_injective hkept

theorem projected_iff (policy : Policy) : db.projected policy = true ↔
    (db.config policy.shareId).globalAccess = policy.public ∧ (db.config policy.shareId).groupAccess = policy.ownGroup ∧
      ∀ key, (db.grants policy.shareId).lookup key = (db.effective policy).lookup key := by
  unfold projected
  rw [Bool.and_eq_true, Bool.and_eq_true, beq_iff_eq, beq_iff_eq, sameGrants_iff, and_assoc]

/-- The sharing tables say what the policy says. -/
theorem project_spec (policy : Policy) :
    (db.project policy).1.globalAccess = policy.public ∧ (db.project policy).1.groupAccess = policy.ownGroup ∧
      ∀ key, (db.project policy).2.lookup key = (db.effective policy).lookup key := by
  unfold project
  split
  case isTrue hsame => exact (projected_iff policy).mp hsame
  case isFalse => exact ⟨rfl, rfl, fun key => lookup_projectRows _ _ key⟩

theorem reconcile_config {item : Item} (hmem : item ∈ db.items) (hinherits : item.inherits = true) :
    db.reconcile.config item.shareId = (db.project (db.final item)).1 := by
  show ((db.shareItem? item.shareId).map _).getD _ = _
  rw [shareItem?_eq_some.mpr ⟨hmem, hinherits, rfl⟩]
  rfl

theorem reconcile_grants {item : Item} (hmem : item ∈ db.items) (hinherits : item.inherits = true) :
    db.reconcile.grants item.shareId = (db.project (db.final item)).2 := by
  show ((db.shareItem? item.shareId).map _).getD _ = _
  rw [shareItem?_eq_some.mpr ⟨hmem, hinherits, rfl⟩]
  rfl

/-- What an item offers to the items below it: its own grants, and those of the owner's live teams, where the
own sharing gives the owner's groups access. -/
def Offered (db : Database) (item : Item) (key : Principal) (write : Bool) : Prop :=
  (db.own item.shareId).grants.lookup key = some write ∨
    (db.own item.shareId).groupAccess ≠ 0 ∧ (∃ team ∈ db.memberships item, key = (.team, team)) ∧
      write = ((db.own item.shareId).groupAccess == 2)

theorem policy_right (db : Database) (item : Item) (key : Principal) {r : Nat} (hr : 1 ≤ r) :
    r ≤ (db.policy item).grants.right key ↔ ∃ write, db.Offered item key write ∧ r ≤ rank (some write) := by
  have hown : r ≤ (db.own item.shareId).grants.right key ↔
      ∃ write, (db.own item.shareId).grants.lookup key = some write ∧ r ≤ rank (some write) := by
    rw [Grants.le_right_iff hr]
    constructor
    · rintro ⟨⟨found, write⟩, hmem, rfl, hle⟩
      exact ⟨write, AList.mem_lookup_iff.mpr hmem, hle⟩
    · rintro ⟨write, hlookup, hle⟩
      exact ⟨⟨key, write⟩, AList.mem_lookup_iff.mp hlookup, rfl, hle⟩
  have hfold := Grants.le_right_foldl (fun team => ((PrincipalKind.team, team), (db.own item.shareId).groupAccess == 2))
    (db.memberships item) (db.own item.shareId).grants key r
  have hpolicy : (db.policy item).grants = if (db.own item.shareId).groupAccess = 0 then (db.own item.shareId).grants
      else (db.memberships item).foldl
        (fun grants team => Grants.allow grants (.team, team) ((db.own item.shareId).groupAccess == 2))
        (db.own item.shareId).grants := rfl
  rw [hpolicy]
  unfold Offered
  split
  case isTrue hzero =>
    rw [hown]
    refine exists_congr fun write => and_congr_left fun _ => ?_
    exact ⟨.inl, fun h => h.resolve_right fun hgroup => hgroup.1 hzero⟩
  case isFalse hgroup =>
    refine hfold.trans ?_
    rw [hown]
    constructor
    · rintro (⟨write, hlookup, hle⟩ | ⟨team, hteam, heq, hle⟩)
      · exact ⟨write, .inl hlookup, hle⟩
      · exact ⟨_, .inr ⟨hgroup, ⟨team, hteam, heq.symm⟩, rfl⟩, hle⟩
    · rintro ⟨write, hlookup | ⟨-, ⟨team, hteam, heq⟩, rfl⟩, hle⟩
      · exact .inl ⟨write, hlookup, hle⟩
      · exact .inr ⟨team, hteam, heq.symm, hle⟩

end Database

end Galaris.Documents
