import Mathlib.Logic.Relation

/-! Labelled transition systems.

A system is a relation `step : σ → ι → σ → Prop` between states, labelled by what
happened. `Steps` is a finite run with its labels. The rules here are the ones
every development over a step relation repeats: what one step preserves a run
preserves (`Steps.invariant`), a reflexive and transitive relation between
consecutive states relates the ends of a run (`Steps.related`), and both again for
runs whose every step meets a condition (`Guarded`). -/
namespace Transition

universe u v
variable {σ : Type u} {ι : Type v} {step : σ → ι → σ → Prop}

/-- A finite run, with the labels of its steps in order. -/
inductive Steps (step : σ → ι → σ → Prop) : σ → List ι → σ → Prop
  | nil (s : σ) : Steps step s [] s
  | cons {s t u : σ} {a : ι} {as : List ι} : step s a t → Steps step t as u → Steps step s (a :: as) u

theorem Steps.single {s t : σ} {a : ι} (h : step s a t) : Steps step s [a] t := .cons h (.nil t)

theorem Steps.append {s t u : σ} {as bs : List ι} (h : Steps step s as t) (k : Steps step t bs u) :
    Steps step s (as ++ bs) u := by
  induction h with
  | nil => exact k
  | cons hs _ ih => exact .cons hs (ih k)

/-- A run of a concatenation stops in the middle. -/
theorem Steps.split {s u : σ} {as bs : List ι} (h : Steps step s (as ++ bs) u) :
    ∃ t, Steps step s as t ∧ Steps step t bs u := by
  induction as generalizing s with
  | nil => exact ⟨s, .nil s, h⟩
  | cons a rest ih =>
    cases h with
    | cons hs hrest =>
      obtain ⟨t, ht, hu⟩ := ih hrest
      exact ⟨t, .cons hs ht, hu⟩

/-- What one step preserves, a run preserves. -/
theorem Steps.invariant {P : σ → Prop} (preserved : ∀ s a t, P s → step s a t → P t)
    {s t : σ} {as : List ι} (h : Steps step s as t) (hs : P s) : P t := by
  induction h with
  | nil => exact hs
  | cons hstep _ ih => exact ih (preserved _ _ _ hs hstep)

/-- What every step from an invariant does, every step of a run does. -/
theorem Steps.labels {P : σ → Prop} {Q : ι → Prop} (preserved : ∀ s a t, P s → step s a t → P t)
    (label : ∀ s a t, P s → step s a t → Q a) {s t : σ} {as : List ι} (h : Steps step s as t) (hs : P s) :
    ∀ a ∈ as, Q a := by
  induction h with
  | nil => exact fun _ hmem => absurd hmem List.not_mem_nil
  | cons hstep _ ih =>
    intro a hmem
    obtain rfl | hrest := List.mem_cons.mp hmem
    · exact label _ _ _ hs hstep
    · exact ih (preserved _ _ _ hs hstep) a hrest

/-- What one step preserves, of the state and of the labels so far, a run preserves. -/
theorem Steps.recorded {P : List ι → σ → Prop} (preserved : ∀ as s a t, P as s → step s a t → P (as ++ [a]) t)
    {s t : σ} {as bs : List ι} (h : Steps step s bs t) (hs : P as s) : P (as ++ bs) t := by
  induction h generalizing as with
  | nil => rwa [List.append_nil]
  | cons hstep _ ih =>
    rw [List.append_cons]
    exact ih (preserved _ _ _ _ hs hstep)

/-- A preorder that relates the two ends of every step relates the two ends of a run. -/
theorem Steps.related {R : σ → σ → Prop} (refl : ∀ s, R s s) (trans : ∀ s t u, R s t → R t u → R s u)
    (one : ∀ s a t, step s a t → R s t) {s t : σ} {as : List ι} (h : Steps step s as t) : R s t := by
  induction h with
  | nil => exact refl _
  | cons hstep _ ih => exact trans _ _ _ (one _ _ _ hstep) ih

/-- The relation of an executable system, whose guards refuse a label by `none`. -/
def Executes (apply : σ → ι → Option σ) (s : σ) (a : ι) (t : σ) : Prop := apply s a = some t

instance [DecidableEq σ] (apply : σ → ι → Option σ) (s : σ) (a : ι) (t : σ) : Decidable (Executes apply s a t) :=
  inferInstanceAs (Decidable (apply s a = some t))

/-- A run of an executable system, computed. -/
theorem Steps.of_foldlM {apply : σ → ι → Option σ} {s t : σ} {as : List ι} (h : as.foldlM apply s = some t) :
    Steps (Executes apply) s as t := by
  induction as generalizing s with
  | nil =>
    cases h
    exact .nil _
  | cons a rest ih =>
    rw [List.foldlM_cons] at h
    cases ha : apply s a with
    | none => rw [ha] at h; cases h
    | some u =>
      rw [ha] at h
      exact .cons ha (ih h)

/-- The steps of `step` taken in a state that meets the condition `C`. -/
def Guarded (step : σ → ι → σ → Prop) (C : σ → ι → Prop) (s : σ) (a : ι) (t : σ) : Prop :=
  C s a ∧ step s a t

theorem Steps.unguard {C : σ → ι → Prop} {s t : σ} {as : List ι} (h : Steps (Guarded step C) s as t) :
    Steps step s as t := by
  induction h with
  | nil => exact .nil _
  | cons hstep _ ih => exact .cons hstep.2 ih

/-- A condition that always holds guards nothing. -/
theorem Steps.guard {C : σ → ι → Prop} (hC : ∀ s a, C s a) {s t : σ} {as : List ι} (h : Steps step s as t) :
    Steps (Guarded step C) s as t := by
  induction h with
  | nil => exact .nil _
  | cons hstep _ ih => exact .cons ⟨hC _ _, hstep⟩ ih

/-- A run of an executable system that avoids the steps marked by `bad`, computed. -/
theorem Steps.avoiding_of_foldlM {apply : σ → ι → Option σ} {bad : σ → ι → Bool} {s t : σ} {as : List ι}
    (h : as.foldlM (fun s a => if bad s a then none else apply s a) s = some t) :
    Steps (Guarded (Executes apply) fun s a => bad s a = false) s as t := by
  induction as generalizing s with
  | nil =>
    cases h
    exact .nil _
  | cons a rest ih =>
    obtain ⟨u, hu, hrest⟩ := Option.bind_eq_some_iff.mp (List.foldlM_cons.symm.trans h)
    split at hu
    · cases hu
    case isFalse hbad => exact .cons ⟨by simpa using hbad, hu⟩ (ih hrest)

end Transition
