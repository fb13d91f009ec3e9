import Mathlib.Data.List.AList

/-! Three-way merge of dictionaries.

A session loads `before`, makes `mine` of it, and writes when the store holds `current`.
The keys that it removed and the entries that it changed are written over the current
dictionary. So every key is merged by itself (`lookup_merge`): a key that the session left
alone is as the store has it, and any other is as the session left it. -/
namespace ThreeWay

universe u v
variable {κ : Type u} {V : Type v}

/-- The merge of one key. -/
def key [DecidableEq V] (before mine current : Option V) : Option V := if mine = before then current else mine

theorem key_kept [DecidableEq V] {before mine : Option V} (current : Option V) (h : mine = before) :
    key before mine current = current := if_pos h

section Merge
variable [DecidableEq κ]

/-- The keys of `before` that the session removed. -/
def removed (before mine : AList fun _ : κ => V) : List κ := before.keys.filter fun k => decide (k ∉ mine)

theorem mem_removed {before mine : AList fun _ : κ => V} {k : κ} :
    k ∈ removed before mine ↔ k ∈ before ∧ k ∉ mine := by
  simp [removed, AList.mem_keys]

theorem lookup_eraseAll (ks : List κ) (data : AList fun _ : κ => V) (k : κ) :
    (ks.foldl (fun data k => data.erase k) data).lookup k = if k ∈ ks then none else data.lookup k := by
  induction ks generalizing data with
  | nil => simp
  | cons first rest ih =>
    rw [List.foldl_cons, ih]
    by_cases hk : k = first
    · subst hk
      simp
    · simp [hk, AList.lookup_erase_ne hk]

variable [DecidableEq V]

/-- The entries that the session added or changed. -/
def patch (before mine : AList fun _ : κ => V) : AList fun _ : κ => V :=
  ⟨mine.entries.filter fun e => decide (before.lookup e.1 ≠ some e.2),
    mine.nodupKeys.sublist List.filter_sublist⟩

/-- The current dictionary with the changes of the session. -/
def merge (before mine current : AList fun _ : κ => V) : AList fun _ : κ => V :=
  patch before mine ∪ (removed before mine).foldl (fun data k => data.erase k) current

theorem lookup_patch (before mine : AList fun _ : κ => V) (k : κ) :
    (patch before mine).lookup k = if mine.lookup k = before.lookup k then none else mine.lookup k := by
  have hmem : ∀ v, (patch before mine).lookup k = some v ↔ mine.lookup k = some v ∧ before.lookup k ≠ some v := by
    intro v
    have hentries : ∀ d : AList fun _ : κ => V, d.lookup k = some v ↔ (⟨k, v⟩ : Sigma fun _ : κ => V) ∈ d.entries :=
      fun _ => AList.mem_lookup_iff
    rw [hentries, hentries]
    simp [patch]
  cases hmine : mine.lookup k with
  | none =>
    have hnone : (patch before mine).lookup k = none := by
      refine Option.eq_none_iff_forall_ne_some.mpr fun v hv => ?_
      rw [((hmem v).mp hv).1] at hmine
      cases hmine
    rw [hnone, ite_self]
  | some v =>
    by_cases hsame : some v = before.lookup k
    · rw [if_pos hsame]
      refine Option.eq_none_iff_forall_ne_some.mpr fun w hw => ?_
      obtain ⟨hw, hne⟩ := (hmem w).mp hw
      exact hne (hsame.symm.trans (hmine.symm.trans hw))
    · rw [if_neg hsame]
      exact (hmem v).mpr ⟨hmine, fun h => hsame h.symm⟩

/-- Every key is merged by itself. -/
theorem lookup_merge (before mine current : AList fun _ : κ => V) (k : κ) :
    (merge before mine current).lookup k = key (before.lookup k) (mine.lookup k) (current.lookup k) := by
  unfold merge key
  by_cases hpatched : k ∈ patch before mine
  · rw [AList.lookup_union_left hpatched, lookup_patch]
    have hsome := AList.lookup_isSome.mpr hpatched
    rw [lookup_patch] at hsome
    split at hsome
    · cases hsome
    · next hne => rw [if_neg hne, if_neg hne]
  · rw [AList.lookup_union_right hpatched, lookup_eraseAll]
    have hnone := AList.lookup_eq_none.mpr hpatched
    rw [lookup_patch] at hnone
    by_cases hsame : mine.lookup k = before.lookup k
    · have hkept : k ∉ removed before mine := by
        rw [mem_removed]
        rintro ⟨hbefore, hmine⟩
        rw [AList.lookup_eq_none.mpr hmine] at hsame
        exact absurd hsame.symm (Option.isSome_iff_ne_none.mp (AList.lookup_isSome.mpr hbefore))
      rw [if_neg hkept, if_pos hsame]
    · rw [if_neg hsame] at hnone
      have hremoved : k ∈ removed before mine := by
        refine mem_removed.mpr ⟨?_, AList.lookup_eq_none.mp hnone⟩
        refine AList.lookup_isSome.mp (Option.isSome_iff_ne_none.mpr fun hbefore => hsame ?_)
        rw [hnone, hbefore]
      rw [if_pos hremoved, if_neg hsame, hnone]

end Merge

end ThreeWay
