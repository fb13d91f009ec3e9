import Mathlib.Data.List.Nodup
import Mathlib.Data.List.Perm.Subperm
import Mathlib.Logic.Function.Basic
import Mathlib.Logic.Relation

/-! Places that hang under one another.

`up p` is the place above `p`. A climb follows it until nothing is above, or until a place is met (`climb`), or one that
it has seen (`climbSeen`). Where no place is above itself (`Acyclic`) both end within as many turns as there are
places, and tell what is above (`climb_spec`, `climbSeen_spec`); moving a place under one that is not below it keeps
this (`Acyclic.move`). Level by level, all that is below a place is found (`below_spec`). -/
namespace Ancestry

universe u
variable {P : Type u}

/-- `q` is above `p`, at any distance. -/
def Above (up : P → Option P) : P → P → Prop := Relation.TransGen fun p q => up p = some q

/-- `q` is `p` or above it. -/
def AtOrAbove (up : P → Option P) : P → P → Prop := Relation.ReflTransGen fun p q => up p = some q

def Acyclic (up : P → Option P) : Prop := ∀ p, ¬Above up p p

section Climb

/-- Whether the way up from a place ends without a place that is met; `none` where the turns do not suffice. -/
def climb (up : P → Option P) (met : P → Bool) : Nat → P → Option Bool
  | 0, _ => none
  | fuel + 1, p =>
    if met p then some false
    else match up p with
    | none => some true
    | some q => climb up met fuel q

/-- Whether the way up from a place ends without meeting one that has been seen. -/
def climbSeen [DecidableEq P] (up : P → Option P) : Nat → List P → P → Option Bool
  | 0, _, _ => none
  | fuel + 1, seen, p =>
    if p ∈ seen then some false
    else match up p with
    | none => some true
    | some q => climbSeen up fuel (p :: seen) q

/-- The places at or below those that are found, level by level; `none` where the turns do not suffice. -/
def below [DecidableEq P] (up : P → Option P) (places : List P) : Nat → List P → Option (List P)
  | 0, _ => none
  | fuel + 1, found =>
    let next := places.filter fun p => (up p).any (· ∈ found) && p ∉ found
    if next = [] then some found else below up places fuel (found ++ next)

end Climb

variable {up up' : P → Option P}

/-- Taking places away. -/
theorem Acyclic.mono (h : Acyclic up) (hsub : ∀ p q, up' p = some q → up p = some q) : Acyclic up' :=
  fun p hp => h p (Relation.TransGen.mono hsub p p hp)

theorem acyclic_empty : Acyclic fun _ : P => none := by
  intro p hp
  obtain ⟨q, hq, -⟩ := Relation.TransGen.head'_iff.mp hp
  cases hq

section Hang
variable [DecidableEq P] {p q : P}

/-- A way after `p` is hung under `q` is an old one, or reaches `p` and goes on from `q`. -/
theorem above_update (hq : ¬AtOrAbove up q p) {a b : P} (h : Above (Function.update up p (some q)) a b) :
    Above up a b ∨ AtOrAbove up a p ∧ AtOrAbove up q b := by
  have hedge : ∀ {c d}, Function.update up p (some q) c = some d → c = p ∧ d = q ∨ c ≠ p ∧
      up c = some d := fun {c d} hcd => by
    by_cases hc : c = p
    · subst hc
      rw [Function.update_self] at hcd
      exact .inl ⟨rfl, (Option.some.inj hcd).symm⟩
    · rw [Function.update_of_ne hc] at hcd
      exact .inr ⟨hc, hcd⟩
  induction h with
  | single hab =>
    obtain ⟨rfl, rfl⟩ | ⟨-, hab⟩ := hedge hab
    · exact .inr ⟨.refl, .refl⟩
    · exact .inl (.single hab)
  | tail _ hcd ih =>
    obtain ⟨rfl, rfl⟩ | ⟨-, hcd⟩ := hedge hcd
    · obtain hold | ⟨-, hback⟩ := ih
      · exact .inr ⟨hold.to_reflTransGen, .refl⟩
      · exact absurd hback hq
    · exact ih.imp (.tail · hcd) fun hboth => ⟨hboth.1, hboth.2.tail hcd⟩

/-- A place may hang under any place that is not below it. -/
theorem Acyclic.hang (h : Acyclic up) (hq : ¬AtOrAbove up q p) : Acyclic (Function.update up p (some q)) := by
  intro a ha
  obtain hold | ⟨hap, hqa⟩ := above_update hq ha
  · exact h a hold
  · exact hq (hqa.trans hap)

/-- A place moves under `under`, or away; no other way is new. -/
theorem Acyclic.move (h : Acyclic up) (p : P) (under : Option P) (hunder : ∀ r, under = some r → ¬AtOrAbove up r p)
    (hedge : ∀ a b, up' a = some b → up a = some b ∧ a ≠ p ∨ a = p ∧ under = some b) : Acyclic up' := by
  cases under with
  | none =>
    exact h.mono fun a b hab => (hedge a b hab).elim (·.1) fun hnone =>
      absurd hnone.2.symm (Option.some_ne_none b)
  | some r =>
    refine (h.hang (hunder r rfl)).mono fun a b hab => ?_
    obtain ⟨hold, hne⟩ | ⟨rfl, hnew⟩ := hedge a b hab
    · rw [Function.update_of_ne hne, hold]
    · rw [Function.update_self, hnew]

end Hang

section Ends
variable {places : List P}

/-- The way up ends before the turns do, and says whether one of its places is met. -/
theorem climb_spec (met : P → Bool) (h : Acyclic up) (hplaces : ∀ p q, up p = some q → q ∈ places)
    {fuel : Nat} (hfuel : places.length < fuel) (p : P) :
    climb up met fuel p = some true ∧ (∀ q, AtOrAbove up p q → met q = false) ∨
        climb up met fuel p = some false ∧ ∃ q, AtOrAbove up p q ∧ met q = true := by
  -- What the climb has behind it is below the place, without repetition.
  suffices hgen : ∀ (fuel : Nat) (behind : List P) (start p : P), behind.Nodup →
      (∀ b ∈ behind, Above up b p) → behind ⊆ start :: places →
      p ∈ start :: places → places.length < fuel + behind.length →
      climb up met fuel p = some true ∧ (∀ q, AtOrAbove up p q → met q = false) ∨
        climb up met fuel p = some false ∧ ∃ q, AtOrAbove up p q ∧ met q = true from
    hgen fuel [] p p List.nodup_nil (fun _ hmem => absurd hmem List.not_mem_nil)
      (List.nil_subset _) List.mem_cons_self hfuel
  intro fuel
  induction fuel with
  | zero =>
    intro behind start p hnodup hbelow hsub hp hlong
    have hfresh : p ∉ behind := fun hmem => h p (hbelow p hmem)
    have hlength := (List.subperm_of_subset (List.nodup_cons.mpr ⟨hfresh, hnodup⟩)
        (List.cons_subset.mpr ⟨hp, hsub⟩)).length_le
    rw [List.length_cons, List.length_cons] at hlength
    omega
  | succ fuel ih =>
    intro behind start p hnodup hbelow hsub hp hlong
    rw [climb]
    split
    case isTrue hmet => exact .inr ⟨rfl, p, .refl, hmet⟩
    case isFalse hother =>
      have hother : met p = false := by simpa using hother
      cases hup : up p with
      | none =>
        refine .inl ⟨rfl, fun q hway => ?_⟩
        obtain rfl | ⟨r, hr, -⟩ := Relation.ReflTransGen.cases_head hway
        · exact hother
        · rw [hup] at hr
          cases hr
      | some q =>
        have hfresh : p ∉ behind := fun hmem => h p (hbelow p hmem)
        have hnext := ih (p :: behind) start q (List.nodup_cons.mpr ⟨hfresh, hnodup⟩) (fun b hb => by
          obtain rfl | hb := List.mem_cons.mp hb
          · exact .single hup
          · exact (hbelow b hb).tail hup)
          (List.cons_subset.mpr ⟨hp, hsub⟩) (List.mem_cons_of_mem _ (hplaces p q hup)) (by rw [List.length_cons]; omega)
        obtain ⟨hends, hall⟩ | ⟨hends, r, hway, hmet⟩ := hnext
        · refine .inl ⟨hends, fun r hway => ?_⟩
          obtain rfl | ⟨q', hq', hrest⟩ := Relation.ReflTransGen.cases_head hway
          · exact hother
          · rw [hup, Option.some.injEq] at hq'
            exact hall r (hq' ▸ hrest)
        · exact .inr ⟨hends, r, .head hup hway, hmet⟩

/-- A climb that also stops at what it has seen is the same: it never comes back. -/
theorem climbSeen_eq_climb [DecidableEq P] (h : Acyclic up) (fuel : Nat) (target p : P) :
    climbSeen up fuel [target] p = climb up (· = target) fuel p := by
  suffices hgen : ∀ (fuel : Nat) (behind : List P) (p : P), (∀ b ∈ behind, Above up b p) →
      climbSeen up fuel (behind ++ [target]) p = climb up (· = target) fuel p from hgen fuel
      [] p fun _ hmem => absurd hmem List.not_mem_nil
  intro fuel
  induction fuel with
  | zero => exact fun _ _ _ => rfl
  | succ fuel ih =>
    intro behind p hbelow
    have hmet : p ∈ behind ++ [target] ↔ p = target := by
      rw [List.mem_append, List.mem_singleton]
      exact or_iff_right fun hmem => h p (hbelow p hmem)
    rw [climbSeen, climb]
    simp only [hmet, decide_eq_true_eq]
    split
    · rfl
    · cases hup : up p with
      | none => rfl
      | some q =>
        refine ih (p :: behind) q fun b hb => ?_
        obtain rfl | hb := List.mem_cons.mp hb
        · exact .single hup
        · exact (hbelow b hb).tail hup

/-- The way up from a place, as far as one: whether it is met is whether it is at or above. -/
theorem climbSeen_spec [DecidableEq P] (h : Acyclic up) (hplaces : ∀ p q, up p = some q →
    q ∈ places) {fuel : Nat} (hfuel : places.length < fuel) (target p : P) :
    climbSeen up fuel [target] p = some true ∧ ¬AtOrAbove up p target ∨
        climbSeen up fuel [target] p = some false ∧ AtOrAbove up p target := by
  rw [climbSeen_eq_climb h]
  obtain ⟨hends, hall⟩ | ⟨hends, q, hway, hmet⟩ := climb_spec (fun q => q = target) h hplaces hfuel p
  · exact .inl ⟨hends, fun hway => by simpa using hall target hway⟩
  · exact .inr ⟨hends, of_decide_eq_true hmet ▸ hway⟩

/-- All places at or below one are found, each once. -/
theorem below_spec [DecidableEq P] (hplaces : ∀ p q, up p = some q → p ∈ places)
    (hnodup : places.Nodup) {fuel : Nat} (hfuel : places.length < fuel) {root : P}
    (hroot : root ∈ places) :
    ∃ found, below up places fuel [root] = some found ∧ found.Nodup ∧ ∀ p, p ∈ found ↔ AtOrAbove up p root := by
  suffices hgen : ∀ (fuel : Nat) (found : List P), found.Nodup → found ⊆ places → root ∈ found →
      (∀ p ∈ found, AtOrAbove up p root) →
      places.length < fuel + found.length → ∃ all, below up places fuel found = some all ∧
        all.Nodup ∧ ∀ p, p ∈ all ↔ AtOrAbove up p root from
    hgen fuel [root] (List.nodup_singleton _) (List.cons_subset.mpr ⟨hroot, List.nil_subset _⟩)
      List.mem_cons_self (fun p hp => List.mem_singleton.mp hp ▸ .refl)
      (by rw [List.length_singleton]; omega)
  intro fuel
  induction fuel with
  | zero =>
    intro found hfound hsub _ _ hlong
    have hlength := (List.subperm_of_subset hfound hsub).length_le
    omega
  | succ fuel ih =>
    intro found hfound hsub hmem hbelow hlong
    have hnext : ∀ p, p ∈ places.filter (fun p => (up p).any (· ∈ found) && p ∉ found) ↔
        p ∈ places ∧ (∃ q, up p = some q ∧ q ∈ found) ∧ p ∉ found := by
      simp [List.mem_filter, Option.any_eq_true]
    rw [below]
    split
    case isTrue hnone =>
      refine ⟨found, rfl, hfound, fun p => ⟨hbelow p, fun hway => ?_⟩⟩
      induction hway using Relation.ReflTransGen.head_induction_on with
      | refl => exact hmem
      | head hpq _ hq =>
        by_contra hp
        have hin := (hnext _).mpr ⟨hplaces _ _ hpq, ⟨_, hpq, hq⟩, hp⟩
        rw [hnone] at hin
        exact absurd hin List.not_mem_nil
    case isFalse hsome =>
      refine ih _ (List.nodup_append.mpr ⟨hfound, hnodup.filter _, ?_⟩) (List.append_subset.mpr
        ⟨hsub, List.filter_subset_self _⟩) (List.mem_append_left _ hmem) ?_ ?_
      · rintro p hp _ hp' rfl
        exact ((hnext p).mp hp').2.2 hp
      · intro p hp
        obtain hp | hp := List.mem_append.mp hp
        · exact hbelow p hp
        · obtain ⟨-, ⟨q, hpq, hq⟩, -⟩ := (hnext p).mp hp
          exact .head hpq (hbelow q hq)
      · have hpos := List.length_pos_of_ne_nil hsome
        rw [List.length_append]
        omega

end Ends

end Ancestry
