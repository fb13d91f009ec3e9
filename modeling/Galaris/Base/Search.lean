import Mathlib.Data.List.Basic
import Mathlib.Logic.Relation

/-! Search over a finite list of edges with a stack and the places seen.

A place is taken from the stack, and its targets are put on it the first time it is
seen. The search finds its target exactly where a way leads to it (`search_iff`).

A search that stops at some places and goes on through the others gathers exactly the
stops that a way through other places leads to (`mem_gather`). -/
namespace Search

variable {P : Type} [DecidableEq P]

/-- The targets of the edges from a place. -/
def targets (edges : List (P × P)) (p : P) : List P := (edges.filter fun edge => edge.1 = p).map (·.2)

/-- Whether the target is found from the stack `pending`; each turn takes one place from it. -/
def search (edges : List (P × P)) (target : P) : Nat → List P → List P → Bool
  | 0, _, _ => false
  | _ + 1, [], _ => false
  | fuel + 1, p :: pending, seen =>
    if p = target then true
    else if p ∈ seen then search edges target fuel pending seen
    else search edges target fuel ((targets edges p).reverse ++ pending) (p :: seen)

/-- There is a way, possibly empty, along the edges. -/
def Way (edges : List (P × P)) : P → P → Prop := Relation.ReflTransGen fun a b => (a, b) ∈ edges

variable {edges : List (P × P)} {target : P}

theorem mem_targets {p q : P} : q ∈ targets edges p ↔ (p, q) ∈ edges := by
  simp [targets]

theorem way_of_search {fuel : Nat} {pending seen : List P} (h : search edges target fuel pending seen = true) :
    ∃ p ∈ pending, Way edges p target := by
  induction fuel generalizing pending seen with
  | zero => cases h
  | succ fuel ih =>
    cases pending with
    | nil => cases h
    | cons p pending =>
      rw [search] at h
      split at h
      · next heq => exact ⟨p, List.mem_cons_self, heq ▸ .refl⟩
      split at h
      · obtain ⟨q, hq, hway⟩ := ih h
        exact ⟨q, List.mem_cons_of_mem _ hq, hway⟩
      · obtain ⟨q, hq, hway⟩ := ih h
        rcases List.mem_append.mp hq with hq | hq
        · exact ⟨p, List.mem_cons_self, .head (mem_targets.mp (List.mem_reverse.mp hq)) hway⟩
        · exact ⟨q, List.mem_cons_of_mem _ hq, hway⟩

/-- A way out of the places seen leaves them for a place on the stack. -/
theorem exists_pending {pending seen : List P} (hseen : ∀ p ∈ seen, ∀ q, (p, q) ∈ edges → q ∈ seen ∨ q ∈ pending)
    (htarget : target ∉ seen) {p : P} (hp : p ∈ seen) (hway : Way edges p target) :
    ∃ q ∈ pending, q ∉ seen ∧ Way edges q target := by
  induction hway using Relation.ReflTransGen.head_induction_on with
  | refl => exact absurd hp htarget
  | @head a b hab hbt ih =>
    by_cases hb : b ∈ seen
    · exact ih hb
    · exact ⟨b, (hseen a hp b hab).resolve_left hb, hb, hbt⟩

/-- The edges from places that were not seen yet. -/
def unseen (edges : List (P × P)) (seen : List P) : List (P × P) := edges.filter fun edge => edge.1 ∉ seen

theorem unseen_cons {p : P} {seen : List P} (hp : p ∉ seen) :
    (unseen edges (p :: seen)).length + (targets edges p).length = (unseen edges seen).length := by
  induction edges with
  | nil => rfl
  | cons edge rest ih =>
    simp only [unseen, targets, List.length_map, List.mem_cons, not_or] at ih ⊢
    by_cases hedge : edge.1 = p
    · subst hedge
      simp only [List.filter_cons, not_true_eq_false, false_and, decide_false, Bool.false_eq_true, if_false,
        decide_true, if_true, List.length_cons, hp, not_false_eq_true]
      omega
    · by_cases hmem : edge.1 ∈ seen
      · simp only [List.filter_cons, hedge, hmem, not_true_eq_false, and_false, decide_false,
          Bool.false_eq_true, if_false]
        exact ih
      · simp only [List.filter_cons, hedge, hmem, not_false_eq_true, and_self, decide_true, if_true, decide_false,
          Bool.false_eq_true, if_false, List.length_cons]
        omega

theorem search_of_way {fuel : Nat} {pending seen : List P} (hfuel : pending.length + (unseen edges seen).length < fuel)
    (hseen : ∀ p ∈ seen, ∀ q, (p, q) ∈ edges → q ∈ seen ∨ q ∈ pending) (htarget : target ∉ seen)
    (hway : ∃ p ∈ pending, Way edges p target) : search edges target fuel pending seen = true := by
  induction fuel generalizing pending seen with
  | zero => omega
  | succ fuel ih =>
    obtain ⟨w, hw, hway⟩ := hway
    cases pending with
    | nil => cases hw
    | cons p pending =>
      rw [List.length_cons] at hfuel
      rw [search]
      split
      · rfl
      · next hne =>
        split
        · next hmem =>
          have hpending : ∃ q ∈ pending, Way edges q target := by
            have hout {s : P} (hs : s ∈ seen) (hway : Way edges s target) : ∃ q ∈ pending, Way edges q target := by
              obtain ⟨q, hq, hnew, hway⟩ := exists_pending hseen htarget hs hway
              rcases List.mem_cons.mp hq with rfl | hq
              · exact absurd hmem hnew
              · exact ⟨q, hq, hway⟩
            rcases List.mem_cons.mp hw with rfl | hw
            · exact hout hmem hway
            · exact ⟨w, hw, hway⟩
          refine ih (by omega) (fun q hq r hqr => ?_) htarget hpending
          rcases hseen q hq r hqr with hr | hr
          · exact .inl hr
          · rcases List.mem_cons.mp hr with rfl | hr
            · exact .inl hmem
            · exact .inr hr
        · next hnew =>
          refine ih ?_ (fun q hq r hqr => ?_) ?_ ?_
          · have hcount : (unseen edges _).length + _ = _ := unseen_cons hnew
            rw [List.length_append, List.length_reverse]
            omega
          · rcases List.mem_cons.mp hq with rfl | hq
            · exact .inr (List.mem_append_left _ (List.mem_reverse.mpr (mem_targets.mpr hqr)))
            · rcases hseen q hq r hqr with hr | hr
              · exact .inl (List.mem_cons_of_mem _ hr)
              · rcases List.mem_cons.mp hr with rfl | hr
                · exact .inl List.mem_cons_self
                · exact .inr (List.mem_append_right _ hr)
          · exact List.not_mem_cons_of_ne_of_not_mem (Ne.symm hne) htarget
          · rcases List.mem_cons.mp hw with rfl | hw
            · rcases Relation.ReflTransGen.cases_head hway with heq | ⟨q, hq, hrest⟩
              · exact absurd heq hne
              · exact ⟨q, List.mem_append_left _ (List.mem_reverse.mpr (mem_targets.mpr hq)), hrest⟩
            · exact ⟨w, List.mem_append_right _ hw, hway⟩

/-- The search from one place, with a turn for every edge, the place itself and the end. -/
theorem search_iff {p : P} : search edges target (edges.length + 2) [p] [] = true ↔ Way edges p target := by
  constructor
  · intro h
    obtain ⟨q, hq, hway⟩ := way_of_search h
    rw [← List.mem_singleton.mp hq]
    exact hway
  · intro hway
    refine search_of_way ?_ (fun _ h => absurd h List.not_mem_nil) List.not_mem_nil ⟨p, List.mem_cons_self, hway⟩
    have hle : (unseen edges []).length ≤ edges.length := List.length_filter_le _ _
    rw [List.length_singleton]
    omega

/-! ### Gathering the stops -/

/-- The places to stop at that are found from the stack `pending`, through places where the search goes on. -/
def gather (edges : List (P × P)) (stops : P → Bool) : Nat → List P → List P → List P
  | 0, _, _ => []
  | _ + 1, [], _ => []
  | fuel + 1, p :: pending, seen =>
    if p ∈ seen then gather edges stops fuel pending seen
    else if stops p then p :: gather edges stops fuel pending (p :: seen)
    else gather edges stops fuel ((targets edges p).reverse ++ pending) (p :: seen)

/-- There is a way, possibly empty, all of whose places but the last are not stops. -/
def Through (edges : List (P × P)) (stops : P → Bool) : P → P → Prop :=
  Relation.ReflTransGen fun a b => stops a = false ∧ (a, b) ∈ edges

variable {stops : P → Bool}

omit [DecidableEq P] in
/-- A way leaves a stop only where it ends. -/
theorem Through.of_stop {p q : P} (hway : Through edges stops p q) (hp : stops p = true) : q = p := by
  obtain heq | ⟨r, hr, -⟩ := Relation.ReflTransGen.cases_head hway
  · exact heq.symm
  · rw [hp] at hr
    cases hr.1

theorem of_mem_gather {fuel : Nat} {pending seen : List P} {q : P} (h : q ∈ gather edges stops fuel pending seen) :
    stops q = true ∧ q ∉ seen ∧ ∃ p ∈ pending, Through edges stops p q := by
  induction fuel generalizing pending seen with
  | zero => cases h
  | succ fuel ih =>
    cases pending with
    | nil => cases h
    | cons p pending =>
      rw [gather] at h
      split at h
      · obtain ⟨hstop, hnew, r, hr, hway⟩ := ih h
        exact ⟨hstop, hnew, r, List.mem_cons_of_mem _ hr, hway⟩
      · next hp =>
        split at h
        · next hstop =>
          obtain rfl | h := List.mem_cons.mp h
          · exact ⟨hstop, hp, q, List.mem_cons_self, .refl⟩
          · obtain ⟨hstop, hnew, r, hr, hway⟩ := ih h
            exact ⟨hstop, fun hmem => hnew (List.mem_cons_of_mem _ hmem), r, List.mem_cons_of_mem _ hr, hway⟩
        · next hgo =>
          obtain ⟨hstop, hnew, r, hr, hway⟩ := ih h
          refine ⟨hstop, fun hmem => hnew (List.mem_cons_of_mem _ hmem), ?_⟩
          obtain hr | hr := List.mem_append.mp hr
          · exact ⟨p, List.mem_cons_self,
              .head ⟨Bool.eq_false_iff.mpr hgo, mem_targets.mp (List.mem_reverse.mp hr)⟩ hway⟩
          · exact ⟨r, List.mem_cons_of_mem _ hr, hway⟩

/-- A way from a place that was passed leaves the places seen for a place on the stack. -/
theorem exists_pending_through {pending seen : List P} {target : P}
    (hseen : ∀ p ∈ seen, stops p = false → ∀ q, (p, q) ∈ edges → q ∈ seen ∨ q ∈ pending)
    (htarget : target ∉ seen) {p : P} (hp : p ∈ seen) (hway : Through edges stops p target) :
    ∃ q ∈ pending, q ∉ seen ∧ Through edges stops q target := by
  induction hway using Relation.ReflTransGen.head_induction_on with
  | refl => exact absurd hp htarget
  | @head a b hab hbt ih =>
    by_cases hb : b ∈ seen
    · exact ih hb
    · exact ⟨b, (hseen a hp hab.1 b hab.2).resolve_left hb, hb, hbt⟩

theorem mem_gather_of_through {fuel : Nat} {pending seen : List P} {q : P}
    (hfuel : pending.length + (unseen edges seen).length < fuel)
    (hseen : ∀ p ∈ seen, stops p = false → ∀ r, (p, r) ∈ edges → r ∈ seen ∨ r ∈ pending) (hstop : stops q = true)
    (hnew : q ∉ seen) (hway : ∃ p ∈ pending, Through edges stops p q) : q ∈ gather edges stops fuel pending seen := by
  induction fuel generalizing pending seen with
  | zero => omega
  | succ fuel ih =>
    obtain ⟨w, hw, hway⟩ := hway
    cases pending with
    | nil => cases hw
    | cons p pending =>
      rw [List.length_cons] at hfuel
      rw [gather]
      split
      · next hmem =>
        -- The place was seen: the way leaves what was seen for another place on the stack.
        have hpending : ∃ r ∈ pending, Through edges stops r q := by
          have hout {s : P} (hs : s ∈ seen) (hway : Through edges stops s q) :
              ∃ r ∈ pending, Through edges stops r q := by
            obtain ⟨r, hr, hfresh, hway⟩ := exists_pending_through hseen hnew hs hway
            obtain rfl | hr := List.mem_cons.mp hr
            · exact absurd hmem hfresh
            · exact ⟨r, hr, hway⟩
          obtain rfl | hw := List.mem_cons.mp hw
          · exact hout hmem hway
          · exact ⟨w, hw, hway⟩
        refine ih (by omega) (fun r hr hgo t hrt => ?_) hnew hpending
        obtain ht | ht := hseen r hr hgo t hrt
        · exact .inl ht
        · obtain rfl | ht := List.mem_cons.mp ht
          · exact .inl hmem
          · exact .inr ht
      · next hp =>
        have hcount : (unseen edges (p :: seen)).length + (targets edges p).length = (unseen edges seen).length :=
          unseen_cons hp
        have hrest : ∀ r ∈ seen, stops r = false → ∀ t, (r, t) ∈ edges → t ∈ p :: seen ∨ t ∈ pending := by
          intro r hr hgo t hrt
          obtain ht | ht := hseen r hr hgo t hrt
          · exact .inl (List.mem_cons_of_mem _ ht)
          · obtain rfl | ht := List.mem_cons.mp ht
            · exact .inl List.mem_cons_self
            · exact .inr ht
        split
        · next hstops =>
          by_cases hq : q = p
          · exact hq ▸ List.mem_cons_self
          · refine List.mem_cons_of_mem _ (ih (by omega) (fun r hr hgo t hrt => ?_) ?_ ⟨w, ?_, hway⟩)
            · obtain rfl | hr := List.mem_cons.mp hr
              · rw [hstops] at hgo
                cases hgo
              · exact hrest r hr hgo t hrt
            · exact List.not_mem_cons_of_ne_of_not_mem hq hnew
            · obtain rfl | hw := List.mem_cons.mp hw
              · exact absurd (hway.of_stop hstops) hq
              · exact hw
        · next hgo =>
          refine ih ?_ (fun r hr hgo' t hrt => ?_) ?_ ?_
          · rw [List.length_append, List.length_reverse]
            omega
          · obtain rfl | hr := List.mem_cons.mp hr
            · exact .inr (List.mem_append_left _ (List.mem_reverse.mpr (mem_targets.mpr hrt)))
            · obtain ht | ht := hrest r hr hgo' t hrt
              · exact .inl ht
              · exact .inr (List.mem_append_right _ ht)
          · refine List.not_mem_cons_of_ne_of_not_mem (fun hq => hgo ?_) hnew
            rw [← hq]
            exact hstop
          · obtain rfl | hw := List.mem_cons.mp hw
            · obtain heq | ⟨t, ht, hrest'⟩ := Relation.ReflTransGen.cases_head hway
              · exact absurd (heq ▸ hstop) hgo
              · exact ⟨t, List.mem_append_left _ (List.mem_reverse.mpr (mem_targets.mpr ht.2)), hrest'⟩
            · exact ⟨w, List.mem_append_right _ hw, hway⟩

/-- From the targets of a stop, with a turn for every edge, the targets and the end. -/
theorem mem_gather {start q : P} {pending : List P} {fuel : Nat} (hfuel : pending.length + edges.length < fuel)
    (hstart : stops start = true) :
    q ∈ gather edges stops fuel pending [start] ↔
      stops q = true ∧ q ≠ start ∧ ∃ p ∈ pending, Through edges stops p q := by
  constructor
  · intro h
    obtain ⟨hstop, hnew, hway⟩ := of_mem_gather h
    exact ⟨hstop, fun heq => hnew (heq ▸ List.mem_cons_self), hway⟩
  · rintro ⟨hstop, hne, hway⟩
    have hle : (unseen edges [start]).length ≤ edges.length := List.length_filter_le _ _
    refine mem_gather_of_through (by omega) (fun p hp hgo => ?_) hstop
      (fun hmem => hne (List.mem_singleton.mp hmem)) hway
    rw [List.mem_singleton.mp hp, hstart] at hgo
    cases hgo

end Search
