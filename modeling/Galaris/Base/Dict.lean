import Mathlib.Data.List.Nodup

/-! Dictionaries in the order of insertion, as lists of entries.

`put` writes a key in its place, or behind the others where it is new; `pop` removes it. What a dictionary
says is read with `List.lookup` (`lookup_put`, `lookup_pop`). -/
namespace Dict
variable {κ V : Type} [DecidableEq κ]

/-- `d[key] = value`. -/
def put (key : κ) (value : V) : List (κ × V) → List (κ × V)
  | [] => [(key, value)]
  | entry :: rest => if entry.1 = key then (key, value) :: rest else entry :: put key value rest

/-- `d.pop(key, None)`. -/
def pop (key : κ) (entries : List (κ × V)) : List (κ × V) := entries.filter fun entry => decide (entry.1 ≠ key)

theorem lookup_cons_ne {key k : κ} {value : V} {rest : List (κ × V)} (h : k ≠ key) :
    List.lookup k ((key, value) :: rest) = rest.lookup k := by
  rw [List.lookup_cons, beq_false_of_ne h]

theorem lookup_put (key : κ) (value : V) (entries : List (κ × V)) (k : κ) :
    (put key value entries).lookup k = if k = key then some value else entries.lookup k := by
  induction entries with
  | nil =>
    by_cases hk : k = key
    · subst hk
      rw [put, List.lookup_cons_self, if_pos rfl]
    · rw [put, lookup_cons_ne hk, if_neg hk]
  | cons entry rest ih =>
    obtain ⟨first, held⟩ := entry
    by_cases hfirst : first = key
    · subst hfirst
      rw [put, if_pos rfl]
      by_cases hk : k = first
      · subst hk
        rw [List.lookup_cons_self, if_pos rfl]
      · rw [lookup_cons_ne hk, lookup_cons_ne hk, if_neg hk]
    · rw [put, if_neg hfirst]
      by_cases hk : k = first
      · subst hk
        rw [List.lookup_cons_self, List.lookup_cons_self, if_neg hfirst]
      · rw [lookup_cons_ne hk, lookup_cons_ne hk, ih]

theorem lookup_put_self (key : κ) (value : V) (entries : List (κ × V)) :
    (put key value entries).lookup key = some value := by
  rw [lookup_put, if_pos rfl]

theorem lookup_put_ne {key k : κ} (h : k ≠ key) (value : V) (entries : List (κ × V)) :
    (put key value entries).lookup k = entries.lookup k := by
  rw [lookup_put, if_neg h]

theorem lookup_pop (key : κ) (entries : List (κ × V)) (k : κ) :
    (pop key entries).lookup k = if k = key then none else entries.lookup k := by
  unfold pop
  induction entries with
  | nil => rw [List.filter_nil, List.lookup_nil, ite_self]
  | cons entry rest ih =>
    obtain ⟨first, held⟩ := entry
    by_cases hfirst : first = key
    · subst hfirst
      rw [List.filter_cons_of_neg (by simp), ih]
      by_cases hk : k = first
      · rw [if_pos hk, if_pos hk]
      · rw [if_neg hk, if_neg hk, lookup_cons_ne hk]
    · rw [List.filter_cons_of_pos (by simp [hfirst])]
      by_cases hk : k = first
      · subst hk
        rw [List.lookup_cons_self, List.lookup_cons_self, if_neg hfirst]
      · rw [lookup_cons_ne hk, lookup_cons_ne hk, ih]

/-- A value that is there is put where it was. -/
theorem put_of_lookup {key : κ} {value : V} {entries : List (κ × V)}
    (h : entries.lookup key = some value) : put key value entries = entries := by
  induction entries with
  | nil => cases h
  | cons entry rest ih =>
    obtain ⟨first, held⟩ := entry
    by_cases hfirst : first = key
    · subst hfirst
      rw [List.lookup_cons_self] at h
      cases h
      exact if_pos rfl
    · rw [lookup_cons_ne (Ne.symm hfirst)] at h
      rw [put, if_neg hfirst, ih h]

theorem pop_of_lookup {key : κ} {entries : List (κ × V)} (h : entries.lookup key = none) :
    pop key entries = entries := by
  refine List.filter_eq_self.mpr fun entry hentry => decide_eq_true fun heq => ?_
  have hne := List.lookup_eq_none_iff.mp h entry hentry
  rw [heq, bne_self_eq_false] at hne
  cases hne

theorem mem_of_lookup {entries : List (κ × V)} {key : κ} {value : V}
    (h : entries.lookup key = some value) : (key, value) ∈ entries := by
  induction entries with
  | nil => cases h
  | cons first rest ih =>
    obtain ⟨first, held⟩ := first
    by_cases hkey : key = first
    · subst hkey
      rw [List.lookup_cons_self] at h
      cases h
      exact List.mem_cons_self
    · rw [lookup_cons_ne hkey] at h
      exact List.mem_cons_of_mem _ (ih h)

theorem mem_put {key : κ} {value : V} {entries : List (κ × V)} {entry : κ × V}
    (h : entry ∈ put key value entries) : entry.2 = value ∨ entry ∈ entries := by
  induction entries with
  | nil => exact .inl (congrArg Prod.snd (List.mem_singleton.mp h))
  | cons first rest ih =>
    rw [put] at h
    split at h
    · obtain rfl | hrest := List.mem_cons.mp h
      · exact .inl rfl
      · exact .inr (List.mem_cons_of_mem _ hrest)
    · obtain rfl | hrest := List.mem_cons.mp h
      · exact .inr List.mem_cons_self
      · exact (ih hrest).imp_right (List.mem_cons_of_mem _)

theorem keys_put (key : κ) (value : V) (entries : List (κ × V)) :
    (put key value entries).map (·.1) = if key ∈ entries.map (·.1) then entries.map (·.1)
    else entries.map (·.1) ++ [key] := by
  induction entries with
  | nil => rfl
  | cons entry rest ih =>
    by_cases hfirst : entry.1 = key
    · rw [put, if_pos hfirst, if_pos (List.mem_map.mpr ⟨entry, List.mem_cons_self, hfirst⟩),
        List.map_cons, List.map_cons, hfirst]
    · rw [put, if_neg hfirst, List.map_cons, List.map_cons, ih]
      by_cases hmem : key ∈ rest.map (·.1)
      · rw [if_pos hmem, if_pos (List.mem_cons_of_mem _ hmem)]
      · rw [if_neg hmem, if_neg fun h => hmem ((List.mem_cons.mp h).resolve_left (Ne.symm hfirst))]
        rfl

theorem nodup_put {entries : List (κ × V)} (h : (entries.map (·.1)).Nodup) (key : κ) (value : V) :
    ((put key value entries).map (·.1)).Nodup := by
  rw [keys_put]
  split
  case isTrue => exact h
  case isFalse hnew => exact h.append (List.nodup_singleton key) (List.disjoint_singleton.mpr hnew)

theorem nodup_pop {entries : List (κ × V)} (h : (entries.map (·.1)).Nodup) (key : κ) :
    ((pop key entries).map (·.1)).Nodup :=
  h.sublist (List.filter_sublist.map _)

end Dict
