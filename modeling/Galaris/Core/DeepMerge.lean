import Galaris.Base.Dict

/-! Configurations and their differences (`core/util/yaml.py`).

`deepMerge` writes a difference over a configuration, key by key (`lookup_deepMerge`): `None` deletes a key, a
dictionary is merged into the one that is there, and any other value replaces what is there. A dictionary that
meets none is copied as it is, with the `None`s that it holds, so a difference deletes what it names exactly where
each of its `None`s lies below dictionaries of the configuration (`merges_iff`). -/
namespace Galaris.Core.DeepMerge

open Dict

/-- A value of a configuration. Scalars and lists are leaves: a list is replaced as a whole. -/
inductive Node (α : Type)
  | none
  | leaf (a : α)
  | dict (entries : List (String × Node α))

abbrev Entries (α : Type) := List (String × Node α)

section Merge
variable {α : Type}

mutual

/-- `deep_merge`, with the result so far. -/
def deepMerge (result : Entries α) : Entries α → Entries α
  | [] => result
  | (key, value) :: rest => deepMerge (mergeKey result key value) rest

def mergeKey (result : Entries α) (key : String) : Node α → Entries α
  | .none => pop key result
  | .leaf a => put key (.leaf a) result
  | .dict diff =>
    match result.lookup key with
    | some (.dict base) => put key (.dict (deepMerge base diff)) result
    | _ => put key (.dict diff) result

end

mutual

/-- Every dictionary has each of its keys once. -/
def Node.Unique : Node α → Prop
  | .none | .leaf _ => True
  | .dict entries => Unique entries

def Unique : Entries α → Prop
  | [] => True
  | (key, value) :: rest => key ∉ rest.map (·.1) ∧ value.Unique ∧ Unique rest

end

/-! ### Lookups -/

theorem lookup_of_mem {entries : Entries α} (hunique : Unique entries) {entry : String × Node α} (h : entry ∈ entries) :
    entries.lookup entry.1 = some entry.2 := by
  induction entries with
  | nil => cases h
  | cons first rest ih =>
    obtain ⟨key, value⟩ := first
    obtain rfl | hrest := List.mem_cons.mp h
    · exact List.lookup_cons_self
    · have hne : entry.1 ≠ key := fun heq => hunique.1 (heq ▸ List.mem_map_of_mem hrest)
      rw [lookup_cons_ne hne]
      exact ih hunique.2.2 hrest

/-- What a key holds after the merge, by what it held. -/
def merged (held : Option (Node α)) : Node α → Option (Node α)
  | .none => none
  | .leaf a => some (.leaf a)
  | .dict diff =>
    match held with
    | some (.dict base) => some (.dict (deepMerge base diff))
    | _ => some (.dict diff)

theorem lookup_mergeKey (result : Entries α) (key : String) (value : Node α) (k : String) :
    (mergeKey result key value).lookup k = if k = key then merged (result.lookup key) value else result.lookup k := by
  cases value with
  | none => exact lookup_pop key result k
  | leaf a => exact lookup_put key _ result k
  | dict diff =>
    unfold mergeKey merged
    cases hheld : result.lookup key with
    | none => exact lookup_put key _ result k
    | some held => cases held <;> exact lookup_put key _ result k

/-- The merge goes key by key. -/
theorem lookup_deepMerge {base diff : Entries α} (hunique : Unique diff) (k : String) :
    (deepMerge base diff).lookup k = match diff.lookup k with
      | none => base.lookup k
      | some value => merged (base.lookup k) value := by
  induction diff generalizing base with
  | nil => rfl
  | cons entry rest ih =>
    obtain ⟨key, value⟩ := entry
    rw [deepMerge, ih hunique.2.2, lookup_mergeKey]
    by_cases hk : k = key
    · subst hk
      have hrest : rest.lookup k = none := by
        cases hvalue : rest.lookup k with
        | none => rfl
        | some v => exact absurd (List.mem_map_of_mem (f := (·.1)) (mem_of_lookup hvalue)) hunique.1
      rw [hrest, List.lookup_cons_self, if_pos rfl]
    · rw [if_neg hk, lookup_cons_ne hk]

/-! ### Keys stay unique -/

theorem unique_iff {entries : Entries α} :
    Unique entries ↔ (entries.map (·.1)).Nodup ∧ ∀ entry ∈ entries, entry.2.Unique := by
  induction entries with
  | nil => simp [Unique]
  | cons entry rest ih =>
    rw [Unique, ih, List.map_cons, List.nodup_cons, List.forall_mem_cons]
    constructor
    · rintro ⟨hnew, hvalue, hkeys, hvalues⟩
      exact ⟨⟨hnew, hkeys⟩, hvalue, hvalues⟩
    · rintro ⟨⟨hnew, hkeys⟩, hvalue, hvalues⟩
      exact ⟨hnew, hvalue, hkeys, hvalues⟩

theorem Unique.put {key : String} {value : Node α} {entries : Entries α} (h : Unique entries)
    (hvalue : value.Unique) : Unique (put key value entries) := by
  obtain ⟨hkeys, hvalues⟩ := unique_iff.mp h
  refine unique_iff.mpr ⟨nodup_put hkeys key value, fun entry hentry => ?_⟩
  obtain heq | hold := mem_put hentry
  · exact heq ▸ hvalue
  · exact hvalues entry hold

theorem Unique.pop {entries : Entries α} (h : Unique entries) (key : String) : Unique (pop key entries) := by
  obtain ⟨hkeys, hvalues⟩ := unique_iff.mp h
  exact unique_iff.mpr ⟨nodup_pop hkeys key, fun entry hentry => hvalues entry (List.mem_filter.mp hentry).1⟩

theorem Unique.of_lookup {entries : Entries α} (h : Unique entries) {key : String} {value : Node α}
    (hvalue : entries.lookup key = some value) : value.Unique :=
  (unique_iff.mp h).2 _ (mem_of_lookup hvalue)

mutual

theorem Unique.deepMerge : ∀ {base diff : Entries α}, Unique base → Unique diff → Unique (deepMerge base diff)
  | _, [], hbase, _ => hbase
  | _, (key, _) :: _, hbase, hdiff => by
    unfold DeepMerge.deepMerge
    exact Unique.deepMerge (hbase.mergeKey key hdiff.2.1) hdiff.2.2

theorem Unique.mergeKey : ∀ {result : Entries α} {value : Node α}, Unique result → ∀ key,
    value.Unique → Unique (mergeKey result key value)
  | _, .none, hresult, key, _ => hresult.pop key
  | _, .leaf _, hresult, _, hvalue => hresult.put hvalue
  | result, .dict _, hresult, key, hvalue => by
    unfold DeepMerge.mergeKey
    cases hheld : result.lookup key with
    | none => exact hresult.put hvalue
    | some held =>
      cases held with
      | dict base => exact hresult.put (Unique.deepMerge (hresult.of_lookup hheld) hvalue)
      | none => exact hresult.put hvalue
      | leaf a => exact hresult.put hvalue

end

/-! ### What a difference says -/

/-- What lies at a path of keys. -/
def at? : List String → Node α → Option (Node α)
  | [], node => some node
  | key :: path, .dict entries => (entries.lookup key).bind (at? path)
  | _ :: _, _ => none

/-- The path leaves the dictionaries of the difference at a key that it does not mention. -/
def Unmentioned : List String → Entries α → Prop
  | [], _ => False
  | key :: path, diff =>
    match diff.lookup key with
    | none => True
    | some (.dict inner) => Unmentioned path inner
    | some _ => False

mutual

/-- There is no `None`, at any depth. -/
def noneFree : Node α → Bool
  | .none => false
  | .leaf _ => true
  | .dict entries => noneFreeAll entries

def noneFreeAll : Entries α → Bool
  | [] => true
  | (_, value) :: rest => noneFree value && noneFreeAll rest

end

mutual

/-- Every `None` of the difference lies below dictionaries of the configuration. -/
def grounded (base : Entries α) : Entries α → Bool
  | [] => true
  | (key, value) :: rest => groundedAt (base.lookup key) value && grounded base rest

def groundedAt (held : Option (Node α)) : Node α → Bool
  | .none | .leaf _ => true
  | .dict diff =>
    match held with
    | some (.dict base) => grounded base diff
    | _ => noneFreeAll diff

end

theorem grounded_iff {base diff : Entries α} : grounded base diff = true ↔ ∀ entry ∈ diff,
    groundedAt (base.lookup entry.1) entry.2 = true := by
  induction diff with
  | nil => simp [grounded]
  | cons entry rest ih => rw [grounded, Bool.and_eq_true, ih, List.forall_mem_cons]

theorem noneFreeAll_iff {entries : Entries α} :
    noneFreeAll entries = true ↔ ∀ entry ∈ entries, noneFree entry.2 = true := by
  induction entries with
  | nil => simp [noneFreeAll]
  | cons entry rest ih => rw [noneFreeAll, Bool.and_eq_true, ih, List.forall_mem_cons]

theorem at?_cons {key : String} {path : List String} {entries : Entries α} :
    at? (key :: path) (.dict entries) = (entries.lookup key).bind (at? path) := rfl

/-! ### Deletion -/

theorem noneFree_at? {path : List String} {node found : Node α} (h : noneFree node = true)
    (hfound : at? path node = some found) : noneFree found = true := by
  induction path generalizing node with
  | nil =>
    cases hfound
    exact h
  | cons key path ih =>
    cases node with
    | none => cases h
    | leaf a => cases hfound
    | dict entries =>
      rw [at?_cons, Option.bind_eq_some_iff] at hfound
      obtain ⟨value, hvalue, hfound⟩ := hfound
      exact ih (noneFreeAll_iff.mp h _ (mem_of_lookup hvalue)) hfound

mutual

theorem exists_none : ∀ {node : Node α}, node.Unique → noneFree node = false → ∃ path, at? path node = some .none
  | .none, _, _ => ⟨[], rfl⟩
  | .leaf _, _, h => by cases h
  | .dict entries, hunique, h => by
    obtain ⟨entry, hentry, path, hpath⟩ := exists_none_entry hunique h
    refine ⟨entry.1 :: path, ?_⟩
    rw [at?_cons, lookup_of_mem hunique hentry]
    exact hpath

theorem exists_none_entry : ∀ {entries : Entries α}, Unique entries → noneFreeAll entries = false →
    ∃ entry ∈ entries, ∃ path, at? path entry.2 = some .none
  | [], _, h => by cases h
  | (key, value) :: rest, hunique, h => by
    rw [noneFreeAll, Bool.and_eq_false_iff] at h
    obtain h | h := h
    · exact ⟨(key, value), List.mem_cons_self, exists_none hunique.2.1 h⟩
    · obtain ⟨entry, hentry, hpath⟩ := exists_none_entry hunique.2.2 h
      exact ⟨entry, List.mem_cons_of_mem _ hentry, hpath⟩

end

/-- A `None` of the merge is one of the configuration, which a grounded difference does not mention. -/
theorem none_of_deepMerge {path : List String} {base diff : Entries α} (hunique : Unique diff)
    (hgrounded : grounded base diff = true)
    (h : at? path (.dict (deepMerge base diff)) = some .none) :
    at? path (.dict base) = some .none ∧ Unmentioned path diff := by
  induction path generalizing base diff with
  | nil => cases h
  | cons key path ih =>
    rw [at?_cons, lookup_deepMerge hunique, Option.bind_eq_some_iff] at h
    obtain ⟨value, hvalue, h⟩ := h
    rw [at?_cons, Unmentioned]
    cases hmentioned : diff.lookup key with
    | none =>
      rw [hmentioned] at hvalue
      dsimp only at hvalue
      rw [hvalue]
      exact ⟨h, trivial⟩
    | some said =>
      have hat := grounded_iff.mp hgrounded _ (mem_of_lookup hmentioned)
      rw [hmentioned] at hvalue
      cases said with
      | none => cases hvalue
      | leaf a =>
        cases hvalue
        cases path <;> cases h
      | dict inner =>
        have hinner : Unique inner := hunique.of_lookup hmentioned
        unfold merged at hvalue
        unfold groundedAt at hat
        cases hheld : base.lookup key with
        | some held =>
          rw [hheld] at hvalue hat
          cases held with
          | dict below =>
            cases hvalue
            exact ih hinner hat h
          | none =>
            cases hvalue
            have hfree : noneFree (.dict inner) = true := hat
            cases noneFree_at? hfree h
          | leaf a =>
            cases hvalue
            have hfree : noneFree (.dict inner) = true := hat
            cases noneFree_at? hfree h
        | none =>
          rw [hheld] at hvalue hat
          cases hvalue
          have hfree : noneFree (.dict inner) = true := hat
          cases noneFree_at? hfree h

theorem at?_self_of_unmentioned {path : List String} {diff : Entries α}
    (h : Unmentioned path diff) : at? path (.dict diff) = none := by
  induction path generalizing diff with
  | nil => exact h.elim
  | cons key path ih =>
    unfold Unmentioned at h
    rw [at?_cons]
    cases hmentioned : diff.lookup key with
    | none => rfl
    | some said =>
      rw [hmentioned] at h
      cases said with
      | none => exact h.elim
      | leaf a => exact h.elim
      | dict inner => exact ih h

theorem Unmentioned.ne_nil {path : List String} {diff : Entries α} (h : Unmentioned path diff) :
    path ≠ [] := fun hnil => by
  rw [hnil] at h
  exact h

theorem at?_none {path : List String} (h : path ≠ []) : at? path (.none : Node α) = none := by
  cases path with
  | nil => exact absurd rfl h
  | cons key path => rfl

theorem at?_leaf {path : List String} (h : path ≠ []) (a : α) : at? path (.leaf a) = none := by
  cases path with
  | nil => exact absurd rfl h
  | cons key path => rfl

/-- What a difference does not mention stays. -/
theorem at?_of_unmentioned {path : List String} {base diff : Entries α} (hunique : Unique diff)
    (h : Unmentioned path diff) :
    at? path (.dict (deepMerge base diff)) = at? path (.dict base) := by
  induction path generalizing base diff with
  | nil => exact h.elim
  | cons key path ih =>
    rw [at?_cons, at?_cons, lookup_deepMerge hunique]
    unfold Unmentioned at h
    cases hmentioned : diff.lookup key with
    | none => rfl
    | some said =>
      rw [hmentioned] at h
      cases said with
      | none => exact h.elim
      | leaf a => exact h.elim
      | dict inner =>
        -- Where there is no dictionary to merge into, the rest of the path leads nowhere, before and after.
        have hself : at? path (.dict inner) = none := at?_self_of_unmentioned h
        dsimp only
        unfold merged
        cases hheld : base.lookup key with
        | none => exact hself
        | some held =>
          cases held with
          | none => exact hself.trans (at?_none h.ne_nil).symm
          | leaf a => exact hself.trans (at?_leaf h.ne_nil a).symm
          | dict below =>
            have hinner : Unique inner := hunique.of_lookup hmentioned
            exact ih hinner h

/-! ### Repetition -/

theorem merged_of_noneFree {value : Node α} (h : noneFree value = true) : merged none value = some value := by
  cases value with
  | none => cases h
  | leaf a => rfl
  | dict entries => rfl

/-- A difference without `None` is grounded on nothing. -/
theorem grounded_nil {diff : Entries α} (h : noneFreeAll diff = true) : grounded [] diff = true := by
  refine grounded_iff.mpr fun entry hentry => ?_
  have hvalue := noneFreeAll_iff.mp h entry hentry
  cases hnode : entry.2 with
  | none => rfl
  | leaf a => rfl
  | dict inner =>
    rw [hnode] at hvalue
    exact hvalue

mutual

/-- A key that has been merged is merged again to what it holds. -/
theorem mergeKey_again : ∀ {value : Node α} {held : Option (Node α)} {result : Entries α}
    {key : String}, value.Unique → groundedAt held value = true →
    result.lookup key = merged held value → mergeKey result key value = result
  | .none, _, _, _, _, _, h => pop_of_lookup h
  | .leaf _, _, _, _, _, _, h => put_of_lookup h
  | .dict diff, some (.dict base), result, key, hunique, hgrounded, h => by
    have hagain : deepMerge (deepMerge base diff) diff = deepMerge base diff :=
      deepMerge_again hunique hgrounded fun entry hentry => by
        rw [lookup_deepMerge hunique, lookup_of_mem hunique hentry]
    unfold merged at h
    unfold mergeKey
    rw [h]
    dsimp only
    rw [hagain]
    exact put_of_lookup h
  | .dict diff, none, result, key, hunique, hgrounded, h => copied_again hunique hgrounded h
  | .dict diff, some .none, result, key, hunique, hgrounded, h => copied_again hunique hgrounded h
  | .dict diff, some (.leaf _), result, key, hunique, hgrounded, h => copied_again hunique hgrounded h

/-- A dictionary that was copied is then merged into itself. -/
theorem copied_again : ∀ {diff result : Entries α} {key : String}, Unique diff → noneFreeAll diff = true →
    result.lookup key = some (.dict diff) → mergeKey result key (.dict diff) = result
  | diff, result, key, hunique, hfree, h => by
    have hself : deepMerge diff diff = diff := deepMerge_again hunique (grounded_nil hfree) fun entry hentry =>
      (lookup_of_mem hunique hentry).trans (merged_of_noneFree (noneFreeAll_iff.mp hfree entry hentry)).symm
    unfold mergeKey
    rw [h]
    dsimp only
    rw [hself]
    exact put_of_lookup h

theorem deepMerge_again : ∀ {diff base result : Entries α}, Unique diff → grounded base diff = true →
    (∀ entry ∈ diff, result.lookup entry.1 = merged (base.lookup entry.1) entry.2) → deepMerge result diff = result
  | [], _, _, _, _, _ => rfl
  | (key, value) :: rest, base, result, hunique, hgrounded, h => by
    rw [List.forall_mem_cons] at h
    rw [grounded, Bool.and_eq_true] at hgrounded
    unfold deepMerge
    rw [mergeKey_again hunique.2.1 hgrounded.1 h.1]
    exact deepMerge_again hunique.2.2 hgrounded.2 h.2

end

/-! ### The merge of configurations -/

/-- A configuration, or a difference. -/
structure Config (α : Type) where
  entries : Entries α
  unique : Unique entries

def Config.node (config : Config α) : Node α := .dict config.entries

def Config.merge (base diff : Config α) : Config α :=
    ⟨deepMerge base.entries diff.entries, base.unique.deepMerge diff.unique⟩

/-- The merge deletes what the difference deletes, leaves alone what it does not mention, and is done at once. -/
structure Merges (base diff : Config α) : Prop where
  deletes : ∀ path, at? path (base.merge diff).node = some .none → at? path base.node = some .none ∧
    Unmentioned path diff.entries
  keeps : ∀ path, Unmentioned path diff.entries → at? path (base.merge diff).node = at? path base.node
  again : (base.merge diff).merge diff = base.merge diff

mutual

/-- Where the merge leaves no `None` of the difference, the difference is grounded. -/
theorem groundedAt_of_deletes : ∀ {value : Node α} {held : Option (Node α)}, value.Unique →
    (∀ path result, merged held value = some result → at? path result = some .none → ∃ node,
      held = some node ∧ at? path node = some .none) →
    groundedAt held value = true
  | .none, _, _, _ => rfl
  | .leaf _, _, _, _ => rfl
  | .dict diff, some (.dict base), hunique, h => by
    refine grounded_of_deletes hunique fun entry hentry path result hresult hnone => ?_
    have hlookup : (deepMerge base diff).lookup entry.1 = some result := by
      rw [lookup_deepMerge hunique, lookup_of_mem hunique hentry]
      exact hresult
    obtain ⟨node, hheld, hbase⟩ :=
      h (entry.1 :: path) (.dict (deepMerge base diff)) rfl (by rw [at?_cons, hlookup]; exact hnone)
    cases hheld
    exact Option.bind_eq_some_iff.mp hbase
  | .dict diff, none, hunique, h => by
    by_contra hfree
    have hnode : (Node.dict diff).Unique := hunique
    obtain ⟨path, hpath⟩ := exists_none hnode (Bool.not_eq_true _ ▸ hfree)
    obtain ⟨node, hheld, -⟩ := h path _ rfl hpath
    cases hheld
  | .dict diff, some .none, hunique, h => by
    by_contra hfree
    have hnode : (Node.dict diff).Unique := hunique
    obtain ⟨path, hpath⟩ := exists_none hnode (Bool.not_eq_true _ ▸ hfree)
    obtain ⟨node, hheld, hbase⟩ := h path _ rfl hpath
    cases hheld
    cases path with
    | nil => cases hpath
    | cons key path => cases hbase
  | .dict diff, some (.leaf _), hunique, h => by
    by_contra hfree
    have hnode : (Node.dict diff).Unique := hunique
    obtain ⟨path, hpath⟩ := exists_none hnode (Bool.not_eq_true _ ▸ hfree)
    obtain ⟨node, hheld, hbase⟩ := h path _ rfl hpath
    cases hheld
    cases path <;> cases hbase

theorem grounded_of_deletes : ∀ {diff base : Entries α}, Unique diff →
    (∀ entry ∈ diff, ∀ path result, merged (base.lookup entry.1) entry.2 = some result → at? path result = some .none →
      ∃ node, base.lookup entry.1 = some node ∧ at? path node = some .none) →
    grounded base diff = true
  | [], _, _, _ => rfl
  | (key, value) :: rest, base, hunique, h => by
    rw [List.forall_mem_cons] at h
    rw [grounded, Bool.and_eq_true]
    exact ⟨groundedAt_of_deletes hunique.2.1 h.1, grounded_of_deletes hunique.2.2 h.2⟩

end

/-- A merge deletes, keeps and settles exactly where every `None` of the difference lies below dictionaries
of the configuration. -/
theorem merges_iff (base diff : Config α) : Merges base diff ↔ grounded base.entries diff.entries = true := by
  constructor
  · intro h
    refine grounded_of_deletes diff.unique fun entry hentry path result hresult hnone => ?_
    have hlookup : (deepMerge base.entries diff.entries).lookup entry.1 = some result := by
      rw [lookup_deepMerge diff.unique, lookup_of_mem diff.unique hentry]
      exact hresult
    have hmerged : at? (entry.1 :: path) (base.merge diff).node = some .none := by
      rw [Config.node, at?_cons]
      exact Option.bind_eq_some_iff.mpr ⟨result, hlookup, hnone⟩
    exact Option.bind_eq_some_iff.mp (h.deletes _ hmerged).1
  · intro h
    refine ⟨fun path => none_of_deepMerge diff.unique h, fun path => at?_of_unmentioned diff.unique, ?_⟩
    have hagain : deepMerge (deepMerge base.entries diff.entries) diff.entries = deepMerge base.entries diff.entries :=
      deepMerge_again diff.unique h fun entry hentry => by
        rw [lookup_deepMerge diff.unique, lookup_of_mem diff.unique hentry]
    simp only [Config.merge, hagain]

/-- A `None` below a key that the configuration does not have stays in the merge. -/
theorem none_copied : ¬∀ base diff : Config Nat, Merges base diff := by
  intro h
  have hmerges := h ⟨[], trivial⟩ ⟨[("a", .dict [("b", .none)])], by simp [Unique, Node.Unique]⟩
  obtain ⟨hbase, -⟩ := hmerges.deletes ["a", "b"] rfl
  cases hbase

end Merge

end Galaris.Core.DeepMerge
