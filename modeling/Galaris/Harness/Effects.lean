import Galaris.Harness.Attempts

/-! What the journal keeps of the calls, in every run of the attempts.

A record whose dispatch was entered is never again one that a call can take up, unless its
call may be made again (`Kept`); a call that is about to be dispatched has its record saved
as started, and the record was not entered before (`Fits`). A resume goes on only where
every call that is not acknowledged is resolved, and the checkpoint policy calls no
checkpoint safe that a resume would refuse (`effects_kept`). -/
namespace Galaris.Harness

open Transition

/-! ### Records that are not taken up again -/

/-- No call takes the record up, unless it may be made again. -/
def Effect.Barred (effect : Effect) : Prop :=
  effect.policy = .nonIdempotent → effect.status ≠ .waitingForAuthorization ∧ effect.status ≠ .interrupted

/-- The records whose dispatch was entered are there, and barred. -/
def Kept (entered : List Nat) (effects : List Effect) : Prop :=
  ∀ i ∈ entered, ∃ effect, effects[i]? = some effect ∧ effect.Barred

/-- Every record that was barred is barred. -/
def Bars (effects effects' : List Effect) : Prop :=
  ∀ (i : Nat) (effect : Effect), effects[i]? = some effect → ∃ effect',
    effects'[i]? = some effect' ∧ (effect.Barred → effect'.Barred)

theorem Bars.refl (effects : List Effect) : Bars effects effects := fun _ effect h => ⟨effect, h, id⟩

theorem Bars.trans {effects effects' effects'' : List Effect} (h : Bars effects effects')
    (k : Bars effects' effects'') :
    Bars effects effects'' := by
  intro i effect heffect
  obtain ⟨effect', heffect', hbarred⟩ := h i effect heffect
  obtain ⟨effect'', heffect'', hbarred'⟩ := k i effect' heffect'
  exact ⟨effect'', heffect'', hbarred' ∘ hbarred⟩

theorem Bars.map {f : Effect → Effect} {effects : List Effect}
    (hf : ∀ effect ∈ effects, effect.Barred → (f effect).Barred) : Bars effects (effects.map f) := by
  intro i effect heffect
  exact ⟨f effect, by rw [List.getElem?_map, heffect]; rfl, hf effect (List.mem_of_getElem? heffect)⟩

theorem Bars.modify {f : Effect → Effect} (hf : ∀ effect, effect.Barred → (f effect).Barred) (effects : List Effect)
    (i : Nat) : Bars effects (effects.modify i f) := by
  intro j effect heffect
  rw [List.getElem?_modify, heffect]
  split
  · exact ⟨f effect, rfl, hf effect⟩
  · exact ⟨effect, rfl, id⟩

theorem Bars.set {effect' : Effect} (h : effect'.Barred) (effects : List Effect) (i : Nat) :
    Bars effects (effects.set i effect') := by
  intro j effect heffect
  have hlt : j < effects.length := (List.getElem?_eq_some_iff.mp heffect).1
  by_cases hij : i = j
  · subst hij
    exact ⟨effect', List.getElem?_set_self hlt, fun _ => h⟩
  · exact ⟨effect, by rw [List.getElem?_set_ne hij, heffect], id⟩

theorem Bars.append (effects added : List Effect) : Bars effects (effects ++ added) := by
  intro i effect heffect
  have hlt : i < effects.length := (List.getElem?_eq_some_iff.mp heffect).1
  exact ⟨effect, by rw [List.getElem?_append_left hlt, heffect], id⟩

theorem Kept.bars {entered : List Nat} {effects effects' : List Effect} (h : Kept entered effects)
    (hbars : Bars effects effects') : Kept entered effects' := by
  intro i hi
  obtain ⟨effect, heffect, hbarred⟩ := h i hi
  obtain ⟨effect', heffect', himp⟩ := hbars i effect heffect
  exact ⟨effect', heffect', himp hbarred⟩

theorem barred_of_status {effect : Effect}
    (h : effect.status ≠ .waitingForAuthorization ∧ effect.status ≠ .interrupted) : effect.Barred := fun _ => h

/-! ### Resume -/

theorem load_bars (saved : Option Checkpoint) (h : (load saved).compatible = true) :
    Bars ((saved.map Checkpoint.effects).getD []) (load saved).effects := by
  cases saved with
  | none => exact .refl []
  | some checkpoint =>
    unfold load at h ⊢
    dsimp only at h ⊢
    split at h
    · cases h
    · next hversion =>
      rw [if_neg hversion]
      refine Bars.map fun effect _ hbarred => ?_
      split
      · exact barred_of_status ⟨by simp, by simp⟩
      · exact hbarred

theorem recoverEffect_bars (recover : Effect → Recovery) (scope : Option String) (i : Nat) (journal : Journal) :
    Bars journal.effects (recoverEffect recover scope i journal).1.effects := by
  unfold recoverEffect
  split
  · exact .refl _
  · split
    · exact .refl _
    · split
      · exact .refl _
      · exact .refl _
      · exact Bars.set (barred_of_status ⟨by simp, by simp⟩) _ _

theorem recoverEffects_bars (recover : Effect → Recovery) (scope : Option String)
    (places : List Nat) (journal : Journal) :
    Bars journal.effects (recoverEffects recover scope places journal).1.effects := by
  induction places generalizing journal with
  | nil => exact .refl _
  | cons i rest ih =>
    have hturn := recoverEffect_bars recover scope i journal
    rw [recoverEffects]
    split
    · next heq =>
      rw [heq] at hturn
      exact hturn
    · next heq =>
      rw [heq] at hturn
      exact hturn.trans (ih _)

theorem repairRecordedFailures_bars (journal : Journal) :
    Bars journal.effects (repairRecordedFailures journal).effects := by
  refine Bars.map fun effect _ hbarred => ?_
  split
  · exact barred_of_status ⟨by simp, by simp⟩
  · exact hbarred

theorem repairConservative_bars (native : String → EffectPolicy) (journal : Journal) :
    Bars journal.effects (repairConservativeEffectPolicies native journal).effects := by
  refine Bars.map fun effect _ hbarred => ?_
  split
  · next hconservative =>
    simp only [conservative, Effect.ambiguous, Effect.unresolved, Bool.and_eq_true, Bool.or_eq_true,
      beq_iff_eq] at hconservative
    refine barred_of_status ?_
    obtain hstarted | hunknown := hconservative.1.2.1
    · simp [hstarted]
    · simp [hunknown]
  · exact hbarred

theorem ensureResumable_bars (native : String → EffectPolicy) (journal : Journal) :
    Bars journal.effects (ensureResumable native journal).1.effects := by
  unfold ensureResumable
  split
  · exact .refl _
  · have hrepaired := (repairRecordedFailures_bars journal).trans (repairConservative_bars native _)
    dsimp only
    split
    · refine hrepaired.trans (Bars.map fun effect _ hbarred => ?_)
      split
      · exact barred_of_status ⟨by simp, by simp⟩
      · exact hbarred
    · next hclear =>
      refine hrepaired.trans (Bars.map fun effect hmem hbarred => ?_)
      split
      · next hunresolved =>
        -- an unresolved record that is not ambiguous may be made again
        intro hpolicy
        have hambiguous : effect.ambiguous = true := by
          rw [Effect.ambiguous, hunresolved]
          simpa using hpolicy
        exact absurd (List.any_eq_true.mpr ⟨effect, hmem, hambiguous⟩) hclear
      · exact hbarred

theorem prepareResume_bars (recover : Effect → Recovery) (scope : Option String) (native : String → EffectPolicy)
    (journal : Journal) : Bars journal.effects (prepareResume recover scope native journal).1.effects := by
  unfold prepareResume
  dsimp only
  generalize hrecovered : (if journal.compatible = true then
    recoverEffects recover scope (List.range journal.effects.length) journal else (journal, false)) = recovered
  have hbars : Bars journal.effects recovered.1.effects := by
    rw [← hrecovered]
    split
    · exact recoverEffects_bars recover scope _ journal
    · exact .refl _
  split
  · exact hbars
  · have hensured := ensureResumable_bars native recovered.1
    split
    · next heq =>
      rw [heq] at hensured
      exact hbars.trans hensured
    · next heq =>
      rw [heq] at hensured
      exact hbars.trans hensured

theorem deferAuthorizations_bars (status : Nat → AuthorizationStatus) (places : List Nat) (journal : Journal)
    (approvals : List String) :
    Bars journal.effects (deferAuthorizations status places journal approvals).1.effects := by
  induction places generalizing journal approvals with
  | nil => exact .refl _
  | cons i rest ih =>
    rw [deferAuthorizations]
    split
    · exact ih _ _
    · split
      · exact ih _ _
      · dsimp only
        split
        · exact .refl _
        · exact ih _ _
        · refine Bars.trans ?_ (ih _ _)
          exact Bars.set (barred_of_status ⟨EffectStatus.noConfusion, EffectStatus.noConfusion⟩) _ _

theorem deferredResults_bars (status : Nat → AuthorizationStatus) (journal : Journal) :
    Bars journal.effects (deferredResults status journal).1.effects :=
  deferAuthorizations_bars status _ {journal with
    history := deferredHistory (journal.effects.filterMap (deferredCall journal.history)) journal.history} _

/-! ### Calls -/

/-- What a call takes up: the pending record of the call, or a new one. -/
inductive Begun (call : Call) (journal : Journal) (begun : Journal × Nat × Bool) : Prop
  | again (effect : Effect) : journal.effects[begun.2.1]? = some effect →
    (effect.status = .waitingForAuthorization ∨ effect.status = .interrupted ∧ effect.policy ≠ .nonIdempotent) →
    begun.2.2 = true → begun.1.effects = journal.effects.modify begun.2.1
      (fun effect => {effect with status := .started}) →
    Begun call journal begun
  | refused (effect : Effect) : journal.effects[begun.2.1]? = some effect → effect.status = .interrupted →
    begun.2.2 = false →
    begun.1.effects = journal.effects.modify begun.2.1 (fun effect =>
      {effect with status := .outcomeUnknown, policy := call.policy}) → Begun call journal begun
  | new (effect : Effect) : begun.2.1 = journal.effects.length → begun.2.2 = true → effect.status = .started →
    begun.1.effects = journal.effects ++ [effect] → Begun call journal begun

theorem started_begun (call : Call) (scope : Option String) (fresh now : Nat) (journal : Journal) :
    Begun call journal (started call scope fresh now journal) := by
  unfold started
  split
  · next i hfound =>
    obtain ⟨hlt, hpending, _⟩ := List.findIdx?_eq_some_iff_getElem.mp hfound
    have heffect : journal.effects[i]? = some journal.effects[i] := List.getElem?_eq_getElem hlt
    generalize journal.effects[i] = effect at hpending heffect
    simp only [pendingFor, Bool.and_eq_true, Bool.or_eq_true, beq_iff_eq, EffectPolicy.retryable, bne_iff_ne, ne_eq]
      at hpending
    have hstatus := hpending.1.1.imp_right fun h => h.1
    dsimp only
    by_cases hrefused : (journal.effects[i]?.any (fun effect => effect.status == .interrupted) &&
        call.policy == .nonIdempotent) = true
    · simp only [hrefused, if_true, Bool.not_true]
      simp only [heffect, Option.any_some, Bool.and_eq_true, beq_iff_eq] at hrefused
      exact .refused effect heffect hrefused.1 rfl rfl
    · simp only [Bool.not_eq_true] at hrefused
      simp only [hrefused, Bool.false_eq_true, if_false, Bool.not_false]
      exact .again effect heffect hstatus rfl rfl
  · exact .new _ rfl rfl rfl rfl

/-- The record of a call that goes on to its dispatch. -/
def Stage.active : Stage → Option Nat
  | .saving i true | .ready i | .running i => some i
  | _ => none

/-- The record is started, and a call that may not be made again was not entered before. -/
def Fits (entered : List Nat) (effects saved : List Effect) : Stage → Prop
  | .saving i true => ∃ effect, effects[i]? = some effect ∧ effect.status = .started ∧
      (effect.policy = .nonIdempotent → entered.count i = 0)
  | .ready i => ∃ effect, effects[i]? = some effect ∧ effect.status = .started ∧
      (effect.policy = .nonIdempotent → entered.count i = 0) ∧ saved[i]? = some effect
  | .running i => ∃ effect, effects[i]? = some effect ∧ effect.status = .started ∧
      (effect.policy = .nonIdempotent → entered.count i ≤ 1) ∧ saved[i]? = some effect
  | _ => True

theorem Fits.of_inactive {entered : List Nat} {effects saved : List Effect} {stage : Stage} (h : stage.active = none) :
    Fits entered effects saved stage := by
  cases stage with
  | queued => trivial
  | saving i dispatches =>
    cases dispatches with
    | false => trivial
    | true => cases h
  | ready i => cases h
  | running i => cases h
  | done => trivial

/-- An active call has a started record. -/
theorem Fits.started {entered : List Nat} {effects saved : List Effect} {stage : Stage} {i : Nat}
    (h : Fits entered effects saved stage) (hactive : stage.active = some i) :
    ∃ effect, effects[i]? = some effect ∧ effect.status = .started := by
  cases stage with
  | queued => cases hactive
  | saving j dispatches =>
    cases dispatches with
    | false => cases hactive
    | true =>
      cases hactive
      exact ⟨h.choose, h.choose_spec.1, h.choose_spec.2.1⟩
  | ready j =>
    cases hactive
    exact ⟨h.choose, h.choose_spec.1, h.choose_spec.2.1⟩
  | running j =>
    cases hactive
    exact ⟨h.choose, h.choose_spec.1, h.choose_spec.2.1⟩
  | done => cases hactive

/-- A step on another record leaves the call as it is. -/
theorem Fits.frame {entered entered' : List Nat} {effects effects' saved saved' : List Effect} {stage : Stage}
    (h : Fits entered effects saved stage)
    (hframe : ∀ i, stage.active = some i → effects'[i]? = effects[i]? ∧ entered'.count i = entered.count i)
    (hsaved : saved' = saved ∨ saved' = effects') : Fits entered' effects' saved' stage := by
  have hstored : ∀ i effect, stage.active = some i → effects[i]? = some effect → saved[i]? = some effect →
      saved'[i]? = some effect := by
    intro i effect hactive heffect hbefore
    obtain rfl | rfl := hsaved
    · exact hbefore
    · exact (hframe i hactive).1.trans heffect
  cases stage with
  | queued => trivial
  | saving i dispatches =>
    cases dispatches with
    | false => trivial
    | true =>
      obtain ⟨effect, heffect, hstarted, hnew⟩ := h
      obtain ⟨hsame, hcount⟩ := hframe i rfl
      exact ⟨effect, hsame.trans heffect, hstarted, fun hpolicy => hcount.trans (hnew hpolicy)⟩
  | ready i =>
    obtain ⟨effect, heffect, hstarted, hnew, hbefore⟩ := h
    obtain ⟨hsame, hcount⟩ := hframe i rfl
    exact ⟨effect, hsame.trans heffect, hstarted, fun hpolicy => hcount.trans (hnew hpolicy),
      hstored i effect rfl heffect hbefore⟩
  | running i =>
    obtain ⟨effect, heffect, hstarted, honce, hbefore⟩ := h
    obtain ⟨hsame, hcount⟩ := hframe i rfl
    exact ⟨effect, hsame.trans heffect, hstarted, fun hpolicy => hcount ▸ honce hpolicy,
      hstored i effect rfl heffect hbefore⟩
  | done => trivial

/-! ### The invariant -/

structure Process.Inv (entered : List Nat) (saved : List Effect) (process : Process) : Prop where
  kept : Kept entered process.journal.effects
  fits : ∀ (k : Nat) (flight : Flight), process.flights[k]? = some flight →
    Fits entered process.journal.effects saved flight.stage
  distinct : ∀ (k k' : Nat) (flight flight' : Flight) (i : Nat), process.flights[k]? = some flight →
    process.flights[k']? = some flight' →
    flight.stage.active = some i → flight'.stage.active = some i → k = k'

def Run.savedEffects (run : Run) : List Effect := (run.saved.map Checkpoint.effects).getD []

structure Run.Inv (run : Run) : Prop where
  saved : Kept run.entered run.savedEffects
  process : ∀ process, run.process = some process → process.Inv run.entered run.savedEffects

theorem setStage_flights {process : Process} {k j : Nat} {stage : Stage} {flight : Flight}
    (h : (process.setStage k stage).flights[j]? = some flight) :
    (j = k ∧ flight.stage = stage) ∨ (j ≠ k ∧ process.flights[j]? = some flight) := by
  rw [Process.setStage, List.getElem?_modify] at h
  obtain ⟨before, hbefore, hflight⟩ := Option.map_eq_some_iff.mp h
  split at hflight
  · next hk => exact .inl ⟨hk.symm, hflight ▸ rfl⟩
  · next hk =>
    exact .inr ⟨fun h => hk h.symm, hbefore.trans (congrArg some hflight)⟩

/-- One call moves on; the others have other records. -/
theorem Process.Inv.update {entered entered' : List Nat} {saved saved' : List Effect} {process : Process} {k : Nat}
    {stage : Stage} (hinv : process.Inv entered saved) (journal : Journal) (hkept : Kept entered' journal.effects)
    (hothers : ∀ (j : Nat) (flight : Flight) (i : Nat), j ≠ k → process.flights[j]? = some flight →
      flight.stage.active = some i →
      journal.effects[i]? = process.journal.effects[i]? ∧ entered'.count i = entered.count i ∧ stage.active ≠ some i)
    (hsaved : saved' = saved ∨ saved' = journal.effects) (hfits : Fits entered' journal.effects saved' stage) :
    ({process with journal := journal}.setStage k stage).Inv entered' saved' := by
  refine ⟨hkept, fun j flight hflight => ?_, fun j j' flight flight' i hflight hflight' hactive hactive' => ?_⟩
  · obtain ⟨_, hstage⟩ | ⟨hne, hbefore⟩ := setStage_flights hflight
    · rw [hstage]
      exact hfits
    · refine (hinv.fits j flight hbefore).frame (fun i hactive => ?_) hsaved
      obtain ⟨hsame, hcount, _⟩ := hothers j flight i hne hbefore hactive
      exact ⟨hsame, hcount⟩
  · obtain ⟨rfl, hstage⟩ | ⟨hne, hbefore⟩ := setStage_flights hflight
    · obtain ⟨rfl, _⟩ | ⟨hne', hbefore'⟩ := setStage_flights hflight'
      · rfl
      · rw [hstage] at hactive
        exact absurd hactive (hothers j' flight' i hne' hbefore' hactive').2.2
    · obtain ⟨rfl, hstage⟩ | ⟨hne', hbefore'⟩ := setStage_flights hflight'
      · rw [hstage] at hactive'
        exact absurd hactive' (hothers j flight i hne hbefore hactive).2.2
      · exact hinv.distinct j j' flight flight' i hbefore hbefore' hactive hactive'

/-- The record of a call is not that of another one. -/
theorem Process.Inv.others {entered : List Nat} {saved : List Effect} {process : Process}
    (hinv : process.Inv entered saved)
    {k i : Nat} {flight : Flight} (hflight : process.flights[k]? = some flight)
    (hactive : flight.stage.active = some i) :
    ∀ (j : Nat) (other : Flight) (a : Nat), j ≠ k → process.flights[j]? = some other →
    other.stage.active = some a → a ≠ i := by
  rintro j other a hne hother hactive' rfl
  exact hne (hinv.distinct j k other flight a hother hflight hactive' hactive)

/-- A call that is over, or has not begun, has no record. -/
theorem Process.Inv.close {entered : List Nat} {saved saved' : List Effect} {process : Process}
    (k : Nat) {stage : Stage}
    (hinv : process.Inv entered saved) (hsaved : saved' = saved ∨ saved' = process.journal.effects)
    (hstage : stage.active = none) : (process.setStage k stage).Inv entered saved' :=
  hinv.update process.journal hinv.kept
    (fun _ _ _ _ _ _ => ⟨rfl, rfl, by rw [hstage]; simp⟩) hsaved (.of_inactive hstage)

/-! ### Every step -/

theorem Kept.mono {entered entered' : List Nat} {effects : List Effect} (h : Kept entered effects)
    (hsub : ∀ i ∈ entered', i ∈ entered) : Kept entered' effects := fun i hi => h i (hsub i hi)

/-- A call begins, and its record waits for its save. -/
theorem Process.Inv.start {entered : List Nat} {saved : List Effect} {process : Process} {k : Nat}
    (hinv : process.Inv entered saved) (call : Call) (fresh now : Nat) :
    let begun := started call process.scope fresh now process.journal
    ({process with journal := begun.1}.setStage k (.saving begun.2.1 begun.2.2)).Inv entered saved := by
  intro begun
  cases started_begun call process.scope fresh now process.journal with
  | again effect heffect hpending hgoes heffects =>
    have hsame : begun.1.effects[begun.2.1]? = some {effect with status := .started} := by
      rw [heffects, List.getElem?_modify_eq, heffect]
      rfl
    refine hinv.update begun.1 ?_ (fun j other a hne hother hactive => ?_) (.inl rfl) ?_
    · rw [heffects]
      exact hinv.kept.bars (Bars.modify (fun _ _ => barred_of_status ⟨by simp, by simp⟩) _ _)
    · -- a record that is active is started, and this one was not
      have hdiff : begun.2.1 ≠ a := by
        rintro rfl
        obtain ⟨active, hfound, hstarted⟩ := (hinv.fits j other hother).started hactive
        obtain rfl : effect = active := Option.some.inj (heffect.symm.trans hfound)
        rw [hstarted] at hpending
        simp at hpending
      refine ⟨by rw [heffects, List.getElem?_modify_ne _ _ hdiff], rfl, ?_⟩
      show (Stage.saving begun.2.1 begun.2.2).active ≠ some a
      rw [hgoes]
      simpa [Stage.active] using hdiff
    · rw [hgoes]
      refine ⟨_, hsame, rfl, fun hpolicy => List.count_eq_zero.mpr fun hmem => ?_⟩
      obtain ⟨before, hbefore, hbarred⟩ := hinv.kept _ hmem
      obtain rfl : effect = before := Option.some.inj (heffect.symm.trans hbefore)
      obtain hwaiting | ⟨_, hretryable⟩ := hpending
      · exact (hbarred hpolicy).1 hwaiting
      · exact hretryable hpolicy
  | refused effect heffect hinterrupted hstops heffects =>
    refine hinv.update begun.1 ?_ (fun j other a hne hother hactive => ?_) (.inl rfl) ?_
    · rw [heffects]
      exact hinv.kept.bars (Bars.modify (fun _ _ => barred_of_status ⟨by simp, by simp⟩) _ _)
    · have hdiff : begun.2.1 ≠ a := by
        rintro rfl
        obtain ⟨active, hfound, hstarted⟩ := (hinv.fits j other hother).started hactive
        obtain rfl : effect = active := Option.some.inj (heffect.symm.trans hfound)
        rw [hstarted] at hinterrupted
        cases hinterrupted
      refine ⟨by rw [heffects, List.getElem?_modify_ne _ _ hdiff], rfl, ?_⟩
      show (Stage.saving begun.2.1 begun.2.2).active ≠ some a
      rw [hstops]
      simp [Stage.active]
    · rw [hstops]
      exact .of_inactive rfl
  | new effect hplace hgoes hstarted heffects =>
    refine hinv.update begun.1 ?_ (fun j other a hne hother hactive => ?_) (.inl rfl) ?_
    · rw [heffects]
      exact hinv.kept.bars (Bars.append _ _)
    · obtain ⟨active, hfound, _⟩ := (hinv.fits j other hother).started hactive
      have hlt : a < process.journal.effects.length := (List.getElem?_eq_some_iff.mp hfound).1
      refine ⟨by rw [heffects, List.getElem?_append_left hlt], rfl, ?_⟩
      show (Stage.saving begun.2.1 begun.2.2).active ≠ some a
      rw [hgoes, hplace]
      simpa [Stage.active] using (Nat.ne_of_lt hlt).symm
    · rw [hgoes, hplace]
      refine ⟨effect, by rw [heffects, List.getElem?_concat_length], hstarted,
        fun _ => List.count_eq_zero.mpr fun hmem => ?_⟩
      obtain ⟨before, hbefore, _⟩ := hinv.kept _ hmem
      exact absurd (List.getElem?_eq_some_iff.mp hbefore).1 (Nat.lt_irrefl _)

/-- The answer of a call is recorded. -/
theorem Process.Inv.answer {entered : List Nat} {saved : List Effect} {process : Process} {k i : Nat} {flight : Flight}
    (hinv : process.Inv entered saved) (hflight : process.flights[k]? = some flight)
    (hrunning : flight.stage = .running i)
    (waits : Bool) (result : ToolResult) (toolError : Option Outcome) :
    let journal := {process.journal with waitingForChildren := waits}
    ({process with journal := completed i flight.call result toolError journal}.setStage k (.saving i false)).Inv
      entered saved := by
  refine hinv.update (completed i flight.call result toolError {process.journal with waitingForChildren := waits}) ?_
    (fun j other a hne hother hactive => ?_) (.inl rfl) (.of_inactive rfl)
  · refine hinv.kept.bars (Bars.modify (fun effect _ => barred_of_status ?_) _ _)
    dsimp only
    split <;> exact ⟨EffectStatus.noConfusion, EffectStatus.noConfusion⟩
  · have hdiff : i ≠ a := (hinv.others (i := i) hflight (by rw [hrunning]; rfl) j other a hne hother hactive).symm
    exact ⟨List.getElem?_modify_ne _ _ hdiff, rfl, by simp [Stage.active]⟩

/-- A call that has to be authorized is not entered any more. -/
theorem Process.Inv.authorize {entered : List Nat} {saved : List Effect} {process : Process}
    {k i : Nat} {flight : Flight}
    (hinv : process.Inv entered saved) (hflight : process.flights[k]? = some flight)
    (hrunning : flight.stage = .running i)
    (requestId : Nat) (continuation : Option String) :
    ({process with journal := waitingForAuthorization i requestId continuation process.journal}.setStage k
      (.saving i false)).Inv (entered.erase i) saved := by
  have hothers := hinv.others (i := i) hflight (by rw [hrunning]; rfl)
  have hfits := hinv.fits k flight hflight
  rw [hrunning] at hfits
  obtain ⟨effect, heffect, _, honce, _⟩ := hfits
  refine hinv.update (waitingForAuthorization i requestId continuation process.journal) (fun j hj => ?_)
    (fun j other a hne hother hactive => ?_) (.inl rfl) (.of_inactive rfl)
  · obtain ⟨before, hbefore, hbarred⟩ := hinv.kept j (List.mem_of_mem_erase hj)
    by_cases hij : i = j
    · subst hij
      obtain rfl : effect = before := Option.some.inj (heffect.symm.trans hbefore)
      refine ⟨_, by rw [waitingForAuthorization, List.getElem?_modify_eq, heffect]; rfl, fun hpolicy => ?_⟩
      have hcount := List.count_erase_self (a := i) (l := entered)
      have hpositive : 0 < (entered.erase i).count i := List.count_pos_iff.mpr hj
      have hle := honce hpolicy
      omega
    · exact ⟨before, by rw [waitingForAuthorization, List.getElem?_modify_ne _ _ hij, hbefore], hbarred⟩
  · have hdiff : a ≠ i := hothers j other a hne hother hactive
    refine ⟨?_, List.count_erase_of_ne hdiff, by simp [Stage.active]⟩
    rw [waitingForAuthorization]
    exact List.getElem?_modify_ne _ _ hdiff.symm

/-- The dispatch of a call is entered. -/
theorem Process.Inv.dispatch {entered : List Nat} {saved : List Effect} {process : Process}
    {k i : Nat} {flight : Flight}
    (hinv : process.Inv entered saved) (hflight : process.flights[k]? = some flight)
    (hready : flight.stage = .ready i) :
    (process.setStage k (.running i)).Inv (i :: entered) saved := by
  have hothers := hinv.others (i := i) hflight (by rw [hready]; rfl)
  have hfits := hinv.fits k flight hflight
  rw [hready] at hfits
  obtain ⟨effect, heffect, hstarted, hnew, hsaved⟩ := hfits
  refine hinv.update process.journal (fun j hj => ?_) (fun j other a hne hother hactive => ?_) (.inl rfl)
    ⟨effect, heffect, hstarted, fun hpolicy => ?_, hsaved⟩
  · obtain rfl | hj := List.mem_cons.mp hj
    · exact ⟨effect, heffect, barred_of_status (by simp [hstarted])⟩
    · exact hinv.kept j hj
  · have hdiff : i ≠ a := (hothers j other a hne hother hactive).symm
    exact ⟨rfl, List.count_cons_of_ne hdiff, by simpa [Stage.active] using hdiff⟩
  · have hcount : (i :: entered).count i = 1 := by rw [List.count_cons_self, hnew hpolicy]
    exact Nat.le_of_eq hcount

/-- The record of a call is saved. -/
theorem Process.Inv.save {entered : List Nat} {saved : List Effect} {process : Process} {k i : Nat} {dispatches : Bool}
    {flight : Flight} (hinv : process.Inv entered saved) (hflight : process.flights[k]? = some flight)
    (hsaving : flight.stage = .saving i dispatches) :
    (process.setStage k (if dispatches then .ready i else .done)).Inv entered process.journal.effects := by
  have hfits := hinv.fits k flight hflight
  cases dispatches with
  | false => exact hinv.close k (.inr rfl) rfl
  | true =>
    have hothers := hinv.others (i := i) hflight (by rw [hsaving]; rfl)
    rw [hsaving] at hfits
    obtain ⟨effect, heffect, hstarted, hnew⟩ := hfits
    refine hinv.update process.journal hinv.kept (fun j other a hne hother hactive => ?_) (.inr rfl)
      ⟨effect, heffect, hstarted, hnew, heffect⟩
    exact ⟨rfl, rfl, by simpa [Stage.active] using (hothers j other a hne hother hactive).symm⟩

/-- A format that is not supported is refused, and left as it is. -/
theorem prepareResume_incompatible (recover : Effect → Recovery) (scope : Option String)
    (native : String → EffectPolicy)
    {journal : Journal} (h : journal.compatible = false) :
    prepareResume recover scope native journal = (journal, some .format) := by
  simp [prepareResume, ensureResumable, h]

theorem load_incompatible {saved : Option Checkpoint} (h : (load saved).compatible = false) :
    (load saved).repaired = false := by
  cases saved with
  | none => rfl
  | some checkpoint =>
    unfold load at h ⊢
    dsimp only at h ⊢
    split
    · rfl
    · next hversion =>
      rw [if_neg hversion] at h
      cases h

theorem Run.inFlight_eq_some {run run' : Run} {k : Nat} {f : Process → Flight → Option Run}
    (h : run.inFlight k f = some run') : ∃ process flight, run.process = some process ∧
      process.flights[k]? = some flight ∧ f process flight = some run' := by
  obtain ⟨process, hprocess, h⟩ := Option.bind_eq_some_iff.mp h
  obtain ⟨flight, hflight, h⟩ := Option.bind_eq_some_iff.mp h
  exact ⟨process, flight, hprocess, hflight, h⟩

/-- The run of a process. -/
theorem Run.Inv.of_process {run : Run} {process : Process} (hprocess : run.process = some process)
    (hsaved : Kept run.entered run.savedEffects) (hinv : process.Inv run.entered run.savedEffects) : run.Inv := by
  refine ⟨hsaved, fun other hother => ?_⟩
  obtain rfl : process = other := Option.some.inj (hprocess.symm.trans hother)
  exact hinv

theorem Run.Inv.without {run : Run} (hprocess : run.process = none)
    (hsaved : Kept run.entered run.savedEffects) : run.Inv := by
  refine ⟨hsaved, fun process hsome => ?_⟩
  rw [hprocess] at hsome
  cases hsome

theorem rebase_effects {checkpoint checkpoint' : Checkpoint} (h : rebase checkpoint = some checkpoint') :
    checkpoint'.effects = checkpoint.effects := by
  unfold rebase at h
  split at h
  · cases h
  · cases h
    rfl

/-- A call that is queued has no record yet. -/
theorem Process.Inv.queue {entered : List Nat} {saved : List Effect} {process : Process}
    (hinv : process.Inv entered saved) (call : Call) :
    ({process with flights := process.flights ++ [⟨call, .queued⟩]} : Process).Inv entered saved := by
  have hqueued : ∀ (j : Nat) (flight : Flight), (process.flights ++ [⟨call, .queued⟩])[j]? = some flight →
      process.flights[j]? = some flight ∨ flight.stage.active = none := by
    intro j flight hflight
    rw [List.getElem?_append] at hflight
    split at hflight
    · exact .inl hflight
    · have hmem := List.mem_of_getElem? hflight
      rw [List.mem_singleton.mp hmem]
      exact .inr rfl
  refine ⟨hinv.kept, fun k flight hflight => ?_, fun k k' flight flight' i hflight hflight' hactive hactive' => ?_⟩
  · obtain hthere | hinactive := hqueued k flight hflight
    · exact hinv.fits k flight hthere
    · exact .of_inactive hinactive
  · obtain hthere | hinactive := hqueued k flight hflight
    · obtain hthere' | hinactive' := hqueued k' flight' hflight'
      · exact hinv.distinct k k' flight flight' i hthere hthere' hactive hactive'
      · rw [hinactive'] at hactive'
        cases hactive'
    · rw [hinactive] at hactive
      cases hactive

/-- A process that has no call in flight is in order with its journal. -/
theorem Process.Inv.idle {entered : List Nat} {saved : List Effect} {process : Process}
    (hkept : Kept entered process.journal.effects) (hidle : process.flights = []) : process.Inv entered saved := by
  refine ⟨hkept, fun k flight hflight => ?_, fun k _ flight _ _ hflight => ?_⟩
  · simp [hidle] at hflight
  · simp [hidle] at hflight

/-- What is loaded again still bars the calls that were entered. -/
theorem Run.Inv.resume {run run' : Run} (hinv : run.Inv) {recover : Effect → Recovery} {scope : Option String}
    {native : String → EffectPolicy}
    (h : run.apply (.resume recover scope native) = some run') : run'.Inv := by
  rw [Run.apply] at h
  split at h
  · cases h
  · have h := Option.some.inj h
    cases hcompatible : (load run.saved).compatible with
    | false =>
      rw [prepareResume_incompatible recover scope native hcompatible, load_incompatible hcompatible] at h
      rw [← h]
      exact .without rfl hinv.saved
    | true =>
      have hbars : Kept run.entered (prepareResume recover scope native (load run.saved)).1.effects :=
        hinv.saved.bars ((load_bars run.saved hcompatible).trans (prepareResume_bars recover scope native _))
      generalize prepareResume recover scope native (load run.saved) = prepared at h hbars
      have hsaved : Kept run'.entered run'.savedEffects := by
        rw [← h]
        show Kept run.entered (((if prepared.1.repaired = true
            then some (prepared.1.checkpoint scope) else run.saved).map
          Checkpoint.effects).getD [])
        split
        · exact hbars
        · exact hinv.saved
      refine ⟨hsaved, fun process hprocess => ?_⟩
      have hentered : run'.entered = run.entered := by rw [← h]
      rw [← h] at hprocess
      dsimp only at hprocess
      split at hprocess
      · cases hprocess
        rw [hentered]
        exact .idle hbars rfl
      · cases hprocess

theorem Run.Inv.step {run run' : Run} {event : RunEvent} (hinv : run.Inv)
    (h : run.apply event = some run') : run'.Inv := by
  cases event with
  | resume recover scope native => exact hinv.resume h
  | defer status =>
    obtain ⟨process, hprocess, h⟩ := Option.bind_eq_some_iff.mp h
    have hbefore := hinv.process process hprocess
    split at h
    · cases h
    next hidle =>
    have hempty : process.flights = [] := by simpa using hidle
    have hbars : Kept run.entered (deferredResults status process.journal).1.effects :=
      hbefore.kept.bars (deferredResults_bars status process.journal)
    split at h
    · next journal approvals heq =>
      rw [heq] at hbars
      cases h
      exact .of_process rfl hinv.saved (.idle hbars hempty)
    · cases h
      exact .without rfl hinv.saved
  | call call =>
    obtain ⟨process, hprocess, h⟩ := Option.bind_eq_some_iff.mp h
    have hbefore := hinv.process process hprocess
    split at h
    · cases h
    split at h
    · next i journal hreplay =>
      obtain ⟨_, _, hjournal⟩ := Option.map_eq_some_iff.mp hreplay
      cases hjournal
      cases h
      exact .of_process rfl hinv.saved ⟨hbefore.kept, hbefore.fits, hbefore.distinct⟩
    · cases h
      exact .of_process rfl hinv.saved (hbefore.queue call)
  | start k fresh now =>
    obtain ⟨process, flight, hprocess, hflight, h⟩ := Run.inFlight_eq_some h
    split at h
    · cases h
    · cases h
      exact .of_process rfl hinv.saved ((hinv.process process hprocess).start flight.call fresh now)
  | save k =>
    obtain ⟨process, flight, hprocess, hflight, h⟩ := Run.inFlight_eq_some h
    have hbefore := hinv.process process hprocess
    split at h
    · next i dispatches hsaving =>
      cases h
      exact .of_process rfl hbefore.kept (hbefore.save hflight hsaving)
    · cases h
  | saveFails k =>
    obtain ⟨process, flight, hprocess, hflight, h⟩ := Run.inFlight_eq_some h
    split at h
    · cases h
      exact .of_process rfl hinv.saved ((hinv.process process hprocess).close k (.inl rfl) rfl)
    · cases h
  | dispatch k =>
    obtain ⟨process, flight, hprocess, hflight, h⟩ := Run.inFlight_eq_some h
    have hbefore := hinv.process process hprocess
    split at h
    · next i hready =>
      cases h
      refine .of_process rfl (fun j hj => ?_) (hbefore.dispatch hflight hready)
      obtain rfl | hj := List.mem_cons.mp hj
      · have hfits := hbefore.fits k flight hflight
        rw [hready] at hfits
        obtain ⟨effect, _, hstarted, _, hsaved⟩ := hfits
        exact ⟨effect, hsaved, barred_of_status (by simp [hstarted])⟩
      · exact hinv.saved j hj
    · cases h
  | answer k answer rejected waits =>
    obtain ⟨process, flight, hprocess, hflight, h⟩ := Run.inFlight_eq_some h
    have hbefore := hinv.process process hprocess
    split at h
    · next i hrunning =>
      split at h
      · cases h
      · cases h
        exact .of_process rfl hinv.saved (hbefore.answer hflight hrunning _ _ _)
    · cases h
  | authorize k requestId continuation =>
    obtain ⟨process, flight, hprocess, hflight, h⟩ := Run.inFlight_eq_some h
    have hbefore := hinv.process process hprocess
    split at h
    · next i hrunning =>
      split at h
      · cases h
      · cases h
        exact .of_process rfl (hinv.saved.mono fun _ => List.mem_of_mem_erase)
          (hbefore.authorize hflight hrunning requestId continuation)
    · cases h
  | abandon k =>
    obtain ⟨process, flight, hprocess, hflight, h⟩ := Run.inFlight_eq_some h
    split at h
    · cases h
    · cases h
      exact .of_process rfl hinv.saved ((hinv.process process hprocess).close k (.inl rfl) rfl)
  | interrupt messages =>
    obtain ⟨process, hprocess, h⟩ := Option.bind_eq_some_iff.mp h
    have hbefore := hinv.process process hprocess
    split at h
    · cases h
    · cases h
      exact .of_process rfl hbefore.kept
        ⟨hbefore.kept, fun k flight hflight => (hbefore.fits k flight hflight).frame (fun _ _ => ⟨rfl, rfl⟩) (.inr rfl),
          hbefore.distinct⟩
  | rebase =>
    rw [Run.apply] at h
    split at h
    · cases h
    · next hnone =>
      obtain ⟨checkpoint, hsaved, h⟩ := Option.bind_eq_some_iff.mp h
      obtain ⟨rebased, hrebased, h⟩ := Option.map_eq_some_iff.mp h
      cases h
      have heffects : run.savedEffects = checkpoint.effects := by rw [Run.savedEffects, hsaved]; rfl
      refine .without (by simpa using hnone) ?_
      show Kept run.entered rebased.effects
      rw [rebase_effects hrebased, ← heffects]
      exact hinv.saved
  | crash =>
    cases h
    exact .without rfl hinv.saved

/-! ### What resumes -/

/-- A record as it is loaded. -/
def Effect.loaded (effect : Effect) : Effect :=
  if effect.unacknowledged then {effect with status := .outcomeUnknown} else effect

theorem load_effects {checkpoint : Checkpoint} (h : compatibleCheckpointVersions.contains checkpoint.version = true) :
    (load (some checkpoint)).compatible = true ∧
      (load (some checkpoint)).effects = checkpoint.effects.map Effect.loaded := by
  unfold load
  dsimp only
  rw [if_neg (by rw [h]; decide)]
  exact ⟨rfl, rfl⟩

/-- A receipt resolves the record, or it stays as it is. -/
theorem recoverEffect_keeps (recover : Effect → Recovery) (scope : Option String) (p : Nat)
    (journal : Journal) {i : Nat}
    {effect : Effect} (heffect : journal.effects[i]? = some effect) :
    (recoverEffect recover scope p journal).1.effects[i]? = some effect ∨
      (recoverable scope effect = true ∧ ∃ result, recover effect = .receipt result) := by
  unfold recoverEffect
  split
  · exact .inl heffect
  · next found hfound =>
    split
    · exact .inl heffect
    · next hrecoverable =>
      split
      · exact .inl heffect
      · exact .inl heffect
      · next result hreceipt =>
        by_cases hp : p = i
        · subst hp
          obtain rfl : found = effect := Option.some.inj (hfound.symm.trans heffect)
          exact .inr ⟨by simpa using hrecoverable, result, hreceipt⟩
        · exact .inl ((List.getElem?_set_ne hp).trans heffect)

theorem recoverEffects_keeps (recover : Effect → Recovery) (scope : Option String)
    (places : List Nat) (journal : Journal)
    {i : Nat} {effect : Effect} (heffect : journal.effects[i]? = some effect) :
    (recoverEffects recover scope places journal).1.effects[i]? = some effect ∨
      (recoverable scope effect = true ∧ ∃ result, recover effect = .receipt result) := by
  induction places generalizing journal with
  | nil => exact .inl heffect
  | cons p rest ih =>
    obtain hkept | hreceipt := recoverEffect_keeps recover scope p journal heffect
    · rw [recoverEffects]
      split
      · next heq =>
        rw [heq] at hkept
        exact .inl hkept
      · next heq =>
        rw [heq] at hkept
        exact ih _ hkept
    · exact .inr hreceipt

/-- Only an exception of the recovery stops it. -/
theorem recoverEffects_raises {recover : Effect → Recovery} (hraises : ∀ effect, recover effect ≠ .raises)
    (scope : Option String) (places : List Nat) (journal : Journal) :
    (recoverEffects recover scope places journal).2 = false := by
  induction places generalizing journal with
  | nil => rfl
  | cons p rest ih =>
    have hturn : (recoverEffect recover scope p journal).2 = false := by
      unfold recoverEffect
      split
      · rfl
      · split
        · rfl
        · split
          · next heq => exact absurd heq (hraises _)
          · rfl
          · rfl
    rw [recoverEffects]
    split
    · next heq =>
      rw [heq] at hturn
      cases hturn
    · exact ih _

/-- The journal of a resume after its recovery. -/
def recovered (recover : Effect → Recovery) (scope : Option String) (checkpoint : Checkpoint) : Journal :=
  (recoverEffects recover scope (List.range (load (some checkpoint)).effects.length) (load (some checkpoint))).1

/-- What tells how a call ended, or lets it be made again: a receipt, the rejection in the history,
or the contract of its tool where the record is of an older version. -/
def Resolved (recover : Effect → Recovery) (scope : Option String) (native : String → EffectPolicy)
    (checkpoint : Checkpoint)
    (effect : Effect) : Prop :=
  (recoverable scope effect = true ∧ ∃ result, recover effect = .receipt result) ∨
    (recordedFailure (recovered recover scope checkpoint).history effect).isSome = true ∨
    conservative native effect = true

/-- A call that nothing resolves blocks the resume. -/
theorem ensureResumable_refuses (native : String → EffectPolicy) {journal : Journal}
    (hcompatible : journal.compatible = true)
    {i : Nat} {effect : Effect} (heffect : journal.effects[i]? = some effect) (hambiguous : effect.ambiguous = true)
    (hfailure : recordedFailure journal.history effect = none) (hcontract : conservative native effect = false) :
    ∃ names, (ensureResumable native journal).2 = some (.toolOutcomeUnknown names) := by
  have hrepaired : (repairConservativeEffectPolicies native
      (repairRecordedFailures journal)).effects[i]? = some effect := by
    simp only [repairConservativeEffectPolicies, repairRecordedFailures, List.getElem?_map, heffect, Option.map_some,
      hfailure, hcontract, Bool.false_eq_true, if_false]
  have hany : (repairConservativeEffectPolicies native (repairRecordedFailures journal)).effects.any
      Effect.ambiguous = true :=
    List.any_eq_true.mpr ⟨effect, List.mem_of_getElem? hrepaired, hambiguous⟩
  unfold ensureResumable
  rw [if_neg (by simp [hcompatible])]
  dsimp only
  rw [if_pos hany]
  exact ⟨_, rfl⟩

theorem recoverEffects_compatible (recover : Effect → Recovery) (scope : Option String)
    (places : List Nat) (journal : Journal) :
    (recoverEffects recover scope places journal).1.compatible = journal.compatible := by
  induction places generalizing journal with
  | nil => rfl
  | cons p rest ih =>
    have hturn : (recoverEffect recover scope p journal).1.compatible = journal.compatible := by
      unfold recoverEffect
      split
      · rfl
      · split
        · rfl
        · split <;> rfl
    rw [recoverEffects]
    split
    · next heq =>
      rw [heq] at hturn
      exact hturn
    · next heq =>
      rw [heq] at hturn
      exact (ih _).trans hturn

theorem prepareResume_refuses {recover : Effect → Recovery} (hraises : ∀ effect, recover effect ≠ .raises)
    (scope : Option String) (native : String → EffectPolicy) {checkpoint : Checkpoint}
    (hversion : compatibleCheckpointVersions.contains checkpoint.version = true) {i : Nat} {effect : Effect}
    (heffect : checkpoint.effects[i]? = some effect) (hambiguous : effect.loaded.ambiguous = true)
    (hunresolved : ¬Resolved recover scope native checkpoint effect.loaded) :
    ∃ names, (prepareResume recover scope native (load (some checkpoint))).2 = some (.toolOutcomeUnknown names) := by
  obtain ⟨hcompatible, heffects⟩ := load_effects hversion
  have hloaded : (load (some checkpoint)).effects[i]? = some effect.loaded := by
    rw [heffects, List.getElem?_map, heffect]
    rfl
  obtain hkept | hreceipt := recoverEffects_keeps recover scope
    (List.range (load (some checkpoint)).effects.length) (load (some checkpoint)) hloaded
  · obtain ⟨names, hnames⟩ := ensureResumable_refuses native
      ((recoverEffects_compatible recover scope _ (load (some checkpoint))).trans hcompatible) hkept hambiguous
      (by
        have hnone : ¬(recordedFailure (recovered recover scope checkpoint).history effect.loaded).isSome = true :=
          fun h => hunresolved (.inr (.inl h))
        simpa [recovered] using hnone)
      (by
        have hfalse : ¬conservative native effect.loaded = true := fun h => hunresolved (.inr (.inr h))
        simpa using hfalse)
    refine ⟨names, ?_⟩
    unfold prepareResume
    dsimp only
    rw [if_pos hcompatible, recoverEffects_raises hraises, if_neg Bool.false_ne_true]
    split
    · next heq =>
      rw [heq] at hnames
      cases hnames
    · next heq =>
      rw [heq] at hnames
      exact hnames
  · exact absurd (.inl hreceipt) hunresolved

/-- Where no record blocks it, a resume is not refused for the sake of one. -/
theorem ensureResumable_safe (native : String → EffectPolicy) {journal : Journal}
    (hcompatible : journal.compatible = true)
    (hclear : ∀ effect ∈ journal.effects, effect.ambiguous = false) : (ensureResumable native journal).2 = none := by
  have hclear' : (repairConservativeEffectPolicies native
      (repairRecordedFailures journal)).effects.any Effect.ambiguous = false := by
    refine List.any_eq_false.mpr fun effect hmem => ?_
    obtain ⟨repaired, hrepaired, rfl⟩ := List.mem_map.mp hmem
    obtain ⟨before, hbefore, rfl⟩ := List.mem_map.mp hrepaired
    have hbeforeClear := hclear before hbefore
    cases hfailure : recordedFailure journal.history before with
    | some failure => simp [conservative, Effect.ambiguous, Effect.unresolved]
    | none => simp [conservative, hbeforeClear]
  unfold ensureResumable
  rw [if_neg (by simp [hcompatible])]
  dsimp only
  rw [if_neg (by simp [hclear'])]

theorem recoverEffects_clear (recover : Effect → Recovery) (scope : Option String)
    (places : List Nat) (journal : Journal)
    (hclear : ∀ effect ∈ journal.effects, effect.ambiguous = false) :
    ∀ effect ∈ (recoverEffects recover scope places journal).1.effects, effect.ambiguous = false := by
  induction places generalizing journal with
  | nil => exact hclear
  | cons p rest ih =>
    have hturn : ∀ effect ∈ (recoverEffect recover scope p journal).1.effects, effect.ambiguous = false := by
      unfold recoverEffect
      split
      · exact hclear
      · split
        · exact hclear
        · split
          · exact hclear
          · exact hclear
          · intro effect hmem
            obtain hbefore | rfl := List.mem_or_eq_of_mem_set hmem
            · exact hclear effect hbefore
            · rfl
    rw [recoverEffects]
    split
    · next heq =>
      rw [heq] at hturn
      exact hturn
    · next heq =>
      rw [heq] at hturn
      exact ih _ hturn

/-- A checkpoint that the policy calls safe has no record that blocks. -/
theorem assess_safe {checkpoint : Checkpoint} (h : (assess checkpoint).state = .safe) :
    compatibleCheckpointVersions.contains checkpoint.version = true ∧
      ∀ effect ∈ checkpoint.effects, effect.ambiguous = false ∧ effect.unacknowledged = false := by
  unfold assess at h
  split at h
  · cases h
  · next hversion =>
    split at h
    · cases h
    · dsimp only at h
      split at h
      · split at h <;> cases h
      · next hclear =>
        refine ⟨by simpa using hversion, fun effect hmem => ?_⟩
        simp only [Bool.not_eq_true', List.isEmpty_eq_false_iff, ne_eq, not_not, List.filter_eq_nil_iff,
          Bool.or_eq_true, not_or, Bool.not_eq_true] at hclear
        exact hclear effect hmem

theorem prepareResume_safe (recover : Effect → Recovery) (scope : Option String) (native : String → EffectPolicy)
    {checkpoint : Checkpoint} (h : (assess checkpoint).state = .safe) {refusal : Refusal}
    (hrefused : (prepareResume recover scope native (load (some checkpoint))).2 = some refusal) :
    refusal.unsafeCheckpoint = false := by
  obtain ⟨hversion, hrecords⟩ := assess_safe h
  obtain ⟨hcompatible, heffects⟩ := load_effects hversion
  have hclear : ∀ effect ∈ (load (some checkpoint)).effects, effect.ambiguous = false := by
    intro effect hmem
    rw [heffects] at hmem
    obtain ⟨before, hbefore, rfl⟩ := List.mem_map.mp hmem
    obtain ⟨hambiguous, hacknowledged⟩ := hrecords before hbefore
    simp [Effect.loaded, hacknowledged, hambiguous]
  have hensured := ensureResumable_safe native
    ((recoverEffects_compatible recover scope (List.range (load (some checkpoint)).effects.length) _).trans hcompatible)
    (recoverEffects_clear recover scope _ _ hclear)
  unfold prepareResume at hrefused
  dsimp only at hrefused
  rw [if_pos hcompatible] at hrefused
  split at hrefused
  · cases hrefused
    rfl
  · split at hrefused
    · cases hrefused
    · next heq =>
      rw [heq] at hensured
      rw [hensured] at hrefused
      cases hrefused

theorem mem_places {effects : List Effect} {p : Effect → Bool} {i : Nat} {effect : Effect}
    (heffect : effects[i]? = some effect) (hp : p effect = true) : i ∈ places effects p := by
  refine List.mem_filter.mpr ⟨List.mem_range.mpr (List.getElem?_eq_some_iff.mp heffect).1, ?_⟩
  rw [heffect]
  exact hp

/-- What is queued stays queued while the resume is prepared. -/
theorem recoverEffects_replay (recover : Effect → Recovery) (scope : Option String)
    (places : List Nat) (journal : Journal)
    {i : Nat} (hi : i ∈ journal.replay) : i ∈ (recoverEffects recover scope places journal).1.replay := by
  induction places generalizing journal with
  | nil => exact hi
  | cons p rest ih =>
    have hturn : i ∈ (recoverEffect recover scope p journal).1.replay := by
      unfold recoverEffect
      split
      · exact hi
      · split
        · exact hi
        · split
          · exact hi
          · exact hi
          · dsimp only
            split
            · exact hi
            · exact List.mem_append_left _ hi
    rw [recoverEffects]
    split
    · next heq =>
      rw [heq] at hturn
      exact hturn
    · next heq =>
      rw [heq] at hturn
      exact ih _ hturn

theorem ensureResumable_replay (native : String → EffectPolicy) (journal : Journal) {i : Nat}
    (hi : i ∈ journal.replay) :
    i ∈ (ensureResumable native journal).1.replay := by
  have hrepaired : i ∈ (repairConservativeEffectPolicies native (repairRecordedFailures journal)).replay :=
    List.mem_append_left _ hi
  unfold ensureResumable
  split
  · exact hi
  · dsimp only
    split
    · exact hrepaired
    · exact hrepaired

theorem prepareResume_replay (recover : Effect → Recovery) (scope : Option String) (native : String → EffectPolicy)
    (journal : Journal) {i : Nat} (hi : i ∈ journal.replay) :
    i ∈ (prepareResume recover scope native journal).1.replay := by
  unfold prepareResume
  dsimp only
  generalize hrecovered : (if journal.compatible = true then
    recoverEffects recover scope (List.range journal.effects.length) journal else (journal, false)) = recovered
  have hqueued : i ∈ recovered.1.replay := by
    rw [← hrecovered]
    split
    · exact recoverEffects_replay recover scope _ journal hi
    · exact hi
  split
  · exact hqueued
  · have hensured := ensureResumable_replay native recovered.1 hqueued
    split
    · next heq =>
      rw [heq] at hensured
      exact hensured
    · next heq =>
      rw [heq] at hensured
      exact hensured

/-! ### The results -/

/-- A logical run before its first process attempt here: a new one, or one that older attempts left
with a journal that bars what they entered. -/
structure Founded (run : Run) : Prop where
  process : run.process = none
  kept : Kept run.entered run.savedEffects

/-- A result, or a rejection before the effect, is recorded. -/
def Effect.Journaled (effect : Effect) : Prop :=
  effect.status = .completed ∨ effect.status = .errorReported ∨ effect.status = .failed ∧
    effect.outcome = some .rejected

/-- What the journal promises in the runs of the attempts; `once` says of which policies an approved
call is dispatched once. -/
structure EffectsKept (once : EffectPolicy → Bool) (first : Run) : Prop where
  /-- A call is dispatched where its record is saved as started. -/
  saved : ∀ events run process (k : Nat) (flight : Flight) (i : Nat), Attempts first events run →
    run.process = some process → process.flights[k]? = some flight → flight.stage = .ready i →
    ∃ effect, process.journal.effects[i]? = some effect ∧ effect.status = .started ∧ run.savedEffects[i]? = some effect
  /-- A call that may not be made again is dispatched where its dispatch was not entered before. -/
  dispatched : ∀ events run process (k : Nat) (flight : Flight) (i : Nat) (effect : Effect), Attempts first events run →
    run.process = some process → process.flights[k]? = some flight → flight.stage = .ready i →
    process.journal.effects[i]? = some effect → effect.policy = .nonIdempotent → i ∉ run.entered
  approved : ∀ events run process (k : Nat) (flight : Flight) (i : Nat) (effect : Effect), Attempts first events run →
    run.process = some process → process.flights[k]? = some flight → flight.stage = .ready i →
    process.journal.effects[i]? = some effect → effect.authorizationRequestId.isSome = true →
    once effect.policy = true →
    i ∉ run.entered
  /-- What is recorded is queued by a resume, and answers a call of its signature, which is not
  dispatched then. -/
  queued : ∀ events run checkpoint, Attempts first events run → run.saved = some checkpoint →
    ∀ recover scope native run' process, Executes Run.apply run (.resume recover scope native) run' →
      run'.process = some process → ∀ (i : Nat) (effect : Effect), checkpoint.effects[i]? = some effect →
        effect.Journaled → effect.policy = .nonIdempotent → i ∈ process.journal.replay
  answered : ∀ (run run' : Run) (process : Process) (call : Call) (i : Nat), run.process = some process →
    i ∈ process.journal.replay → process.journal.queued call i = true → Executes Run.apply run (.call call) run' →
    ∃ process', run'.process = some process' ∧ process'.flights = process.flights
  /-- Where a dispatch was entered and its end is not recorded, a resume is refused. -/
  refused : ∀ events run checkpoint, Attempts first events run → run.saved = some checkpoint →
    compatibleCheckpointVersions.contains checkpoint.version = true →
    ∀ i ∈ run.entered, ∀ effect : Effect, checkpoint.effects[i]? = some effect → effect.policy = .nonIdempotent →
      ¬effect.Journaled → ∀ recover scope native, (∀ effect, recover effect ≠ .raises) →
        ¬Resolved recover scope native checkpoint effect.loaded →
        ∃ names, (prepareResume recover scope native (load run.saved)).2 = some (.toolOutcomeUnknown names)
  safe : ∀ events run checkpoint, Attempts first events run → run.saved = some checkpoint →
    (assess checkpoint).state = .safe → ∀ recover scope native refusal,
      (prepareResume recover scope native (load run.saved)).2 = some refusal → refusal.unsafeCheckpoint = false

theorem Founded.inv {run : Run} (h : Founded run) : run.Inv := .without h.process h.kept

theorem Run.Inv.run {run run' : Run} {events : List RunEvent} (hinv : run.Inv)
    (h : Attempts run events run') : run'.Inv :=
  h.invariant (fun _ _ _ hbefore hstep => hbefore.step hstep) hinv

/-- A barred record whose end is not recorded blocks a resume. -/
theorem ambiguous_of_barred {effect : Effect} (hbarred : effect.Barred) (hpolicy : effect.policy = .nonIdempotent)
    (hopen : ¬effect.Journaled) : effect.loaded.ambiguous = true := by
  obtain ⟨hwaiting, hinterrupted⟩ := hbarred hpolicy
  unfold Effect.loaded
  split
  · simp [Effect.ambiguous, Effect.unresolved, hpolicy]
  · next hacknowledged =>
    simp only [Effect.ambiguous, Effect.unresolved, hpolicy, beq_self_eq_true, Bool.and_true,
      Bool.or_eq_true, beq_iff_eq]
    simp only [Effect.Journaled, not_or, not_and] at hopen
    simp only [Effect.unacknowledged, hpolicy, Bool.and_eq_true, beq_iff_eq, bne_iff_ne, ne_eq,
      not_and] at hacknowledged
    cases hstatus : effect.status with
    | started => exact .inl rfl
    | outcomeUnknown => exact .inr rfl
    | completed => exact absurd hstatus hopen.1
    | errorReported => exact absurd hstatus hopen.2.1
    | failed => exact absurd (fun h => hopen.2.2 hstatus h) (fun h => hacknowledged ⟨hstatus, h⟩ trivial)
    | interrupted => exact absurd hstatus hinterrupted
    | waitingForAuthorization => exact absurd hstatus hwaiting

/-- A recorded result is loaded as it is, and queued. -/
theorem load_replay {checkpoint : Checkpoint}
    (hversion : compatibleCheckpointVersions.contains checkpoint.version = true)
    {i : Nat} {effect : Effect} (heffect : checkpoint.effects[i]? = some effect) (hjournaled : effect.Journaled)
    (hpolicy : effect.policy = .nonIdempotent) : i ∈ (load (some checkpoint)).replay := by
  have hacknowledged : effect.unacknowledged = false := by
    obtain hcompleted | herror | ⟨hfailed, hrejected⟩ := hjournaled
    · simp [Effect.unacknowledged, hcompleted]
    · simp [Effect.unacknowledged, herror]
    · simp [Effect.unacknowledged, hfailed, hrejected]
  have hrecorded : effect.recorded = true := by
    obtain hcompleted | herror | ⟨hfailed, _⟩ := hjournaled
    · simp [Effect.recorded, hcompleted]
    · simp [Effect.recorded, herror]
    · simp [Effect.recorded, hfailed]
  unfold load
  dsimp only
  rw [if_neg (by rw [hversion]; decide)]
  refine @mem_places _ _ _ effect ?_ ?_
  · rw [List.getElem?_map, heffect, Option.map_some, if_neg (by simp [hacknowledged])]
  · simp [hrecorded, hpolicy, EffectPolicy.retryable]

/-- A call that a record answers is not dispatched. -/
theorem call_answered {run run' : Run} {process : Process} {call : Call} (hprocess : run.process = some process)
    {i : Nat} (hi : i ∈ process.journal.replay) (hsignature : process.journal.queued call i = true)
    (h : run.apply (.call call) = some run') :
    ∃ process', run'.process = some process' ∧ process'.flights = process.flights := by
  rw [Run.apply, Run.inProcess, hprocess, Option.bind_some] at h
  split at h
  · cases h
  · split at h
    · cases h
      exact ⟨_, rfl, rfl⟩
    · next hnone =>
      rw [takeReplay, Option.map_eq_none_iff] at hnone
      exact absurd hsignature (List.find?_eq_none.mp hnone i hi)

theorem effects_kept {first : Run} (hfounded : Founded first) : EffectsKept (· == .nonIdempotent) first := by
  have hready : ∀ events run process (k : Nat) (flight : Flight) (i : Nat), Attempts first events run →
      run.process = some process → process.flights[k]? = some flight → flight.stage = .ready i →
      Fits run.entered process.journal.effects run.savedEffects (.ready i) := by
    intro events run process k flight i hrun hprocess hflight hstage
    have hfits := ((hfounded.inv.run hrun).process process hprocess).fits k flight hflight
    rw [hstage] at hfits
    exact hfits
  have honce : ∀ events run process (k : Nat) (flight : Flight) (i : Nat) (effect : Effect), Attempts first events run →
      run.process = some process → process.flights[k]? = some flight → flight.stage = .ready i →
      process.journal.effects[i]? = some effect → effect.policy = .nonIdempotent → i ∉ run.entered := by
    intro events run process k flight i effect hrun hprocess hflight hstage heffect hpolicy
    obtain ⟨found, hfound, _, hnew, _⟩ := hready events run process k flight i hrun hprocess hflight hstage
    obtain rfl : effect = found := Option.some.inj (heffect.symm.trans hfound)
    exact List.count_eq_zero.mp (hnew hpolicy)
  refine ⟨?_, honce, ?_, ?_, fun _ _ _ _ _ hprocess hi hsignature h => call_answered hprocess hi hsignature h, ?_, ?_⟩
  · intro events run process k flight i hrun hprocess hflight hstage
    obtain ⟨effect, heffect, hstarted, _, hsaved⟩ := hready events run process k flight i hrun hprocess hflight hstage
    exact ⟨effect, heffect, hstarted, hsaved⟩
  · intro events run process k flight i effect hrun hprocess hflight hstage heffect _ hpolicy
    exact honce events run process k flight i effect hrun hprocess hflight hstage heffect (beq_iff_eq.mp hpolicy)
  · intro events run checkpoint hrun hsaved recover scope native run' process hresume hprocess i
      effect heffect hjournaled hpolicy
    rw [Executes, Run.apply] at hresume
    split at hresume
    · cases hresume
    · have hresume := Option.some.inj hresume
      rw [← hresume] at hprocess
      dsimp only at hprocess
      split at hprocess
      · next haccepted =>
        cases hprocess
        have hversion : compatibleCheckpointVersions.contains checkpoint.version = true := by
          cases hcompatible : (load run.saved).compatible with
          | false =>
            rw [prepareResume_incompatible recover scope native hcompatible] at haccepted
            cases haccepted
          | true =>
            rw [hsaved] at hcompatible
            unfold load at hcompatible
            dsimp only at hcompatible
            split at hcompatible
            · cases hcompatible
            · next h => simpa using h
        rw [hsaved]
        exact prepareResume_replay recover scope native _ (load_replay hversion heffect hjournaled hpolicy)
      · cases hprocess
  · intro events run checkpoint hrun hsaved hversion i hi effect heffect hpolicy hopen recover scope
      native hraises hunresolved
    have hbarred : effect.Barred := by
      obtain ⟨found, hfound, hbarred⟩ := (hfounded.inv.run hrun).saved i hi
      rw [Run.savedEffects, hsaved] at hfound
      obtain rfl : effect = found := Option.some.inj (heffect.symm.trans hfound)
      exact hbarred
    rw [hsaved]
    exact prepareResume_refuses hraises scope native hversion heffect
      (ambiguous_of_barred hbarred hpolicy hopen) hunresolved
  · intro events run checkpoint _ hsaved hsafe recover scope native refusal hrefused
    rw [hsaved] at hrefused
    exact prepareResume_safe recover scope native hsafe hrefused

theorem effects_kept_of_new_run : EffectsKept (· == .nonIdempotent) {} :=
  effects_kept ⟨rfl, fun _ hi => absurd hi List.not_mem_nil⟩

/-- A call that may be made again, and that its agent has to ask for. -/
def noted : Call where
  name := "note"
  arguments := "text"
  callId := some "call"
  messages := [.response ⟨none, 1, none⟩ [⟨"note", "call", "text"⟩]]
  policy := .idempotent

/-- Once it is approved, it is dispatched again after a crash. -/
theorem approved_idempotent_call_is_dispatched_twice : ¬EffectsKept (fun _ => true) {} := by
  intro hkept
  let resume : RunEvent := .resume (fun _ => .nothing) none fun _ => .nonIdempotent
  let dispatched : List RunEvent := [.call noted, .start 0 10 5, .save 0, .dispatch 0]
  let events : List RunEvent := [resume] ++ dispatched ++ [.authorize 0 77 none, .save 0, .crash] ++
    [resume, .defer fun _ => .approved] ++ dispatched ++ [.crash] ++
    [resume, .defer fun _ => .approved, .call noted, .start 0 11 9, .save 0]
  have hruns : (events.foldlM Run.apply {}).any (fun run =>
      run.entered.contains 0 && run.process.any fun process =>
        (process.flights[0]?.any fun flight => flight.stage == .ready 0) &&
          process.journal.effects[0]?.any fun effect => effect.authorizationRequestId.isSome) = true := by
    decide +kernel
  obtain ⟨run, hrun, hends⟩ := (Option.any_eq_true _ _).mp hruns
  rw [Bool.and_eq_true] at hends
  obtain ⟨hentered, hprocess⟩ := hends
  obtain ⟨process, hprocess, hends⟩ := (Option.any_eq_true _ _).mp hprocess
  rw [Bool.and_eq_true] at hends
  obtain ⟨flight, hflight, hready⟩ := (Option.any_eq_true _ _).mp hends.1
  obtain ⟨effect, heffect, hrequest⟩ := (Option.any_eq_true _ _).mp hends.2
  exact hkept.approved events run process 0 flight 0 effect (.of_foldlM hrun) hprocess hflight (beq_iff_eq.mp hready)
    heffect hrequest rfl (List.contains_iff_mem.mp hentered)

end Galaris.Harness
