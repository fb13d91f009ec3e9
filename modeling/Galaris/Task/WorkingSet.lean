import Galaris.Base.Transition
import Mathlib.Data.Finmap

/-! The working resources of a Task tree (`app/task/working_set.py`).

The ledger of a root is under its row lock, so calls run one at a time. What is active for a role
stands after everything else of the role (`Ordered`); from this follow the rest. -/
namespace Galaris.Tasks.Working

open Transition

inductive ResourceState
  | active
  | superseded
  | stale
  | failed
deriving DecidableEq, Repr

abbrev TaskId := Nat

/-- `WorkingResource`; the values of the metadata are JSON. -/
structure Resource (V : Type) where
  resourceType : String
  role : String
  reference : String
  label : String
  revision : Option Nat
  state : ResourceState
  producerTaskId : Option TaskId
  metadata : Finmap fun _ : String => V
  updatedAt : Nat
deriving DecidableEq

/-- `WorkingSet`. -/
structure WorkingSet (V : Type) where
  version : Nat
  resources : List (Resource V)

section Model

variable {V : Type} [DecidableEq V]

/-- `_same_resource`. -/
def sameResource (left right : Resource V) : Bool :=
  left.resourceType = right.resourceType && left.role = right.role &&
    left.reference = right.reference && left.label = right.label &&
    left.revision = right.revision && left.state = right.state && left.metadata = right.metadata

def maxResources : Nat := 100

/-- The last elements, as a slice takes them. -/
def last {α : Type} (n : Nat) (xs : List α) : List α := xs.drop (xs.length - n)

/-- The resources that are retained. -/
def retain (resources : List (Resource V)) : List (Resource V) :=
  if maxResources < resources.length then
    let superseded := resources.filter (·.state ≠ .active)
    let active := last maxResources (resources.filter (·.state = .active))
    let inactiveBudget := maxResources - active.length
    let retainedInactive := if inactiveBudget ≠ 0 then last inactiveBudget superseded else []
    retainedInactive ++ active
  else resources

/-- `enumerate`, up to the resource that is active for the role. -/
def activeIndex (resources : List (Resource V)) (role : String) : Option (Resource V × Nat) :=
  resources.zipIdx.find? fun (item, _) => item.role = role && item.state = .active

/-- What is recorded, and the resources with it; none if the one that is active is the same. -/
def place (resources : List (Resource V)) (normalized : Resource V) : Option (List (Resource V)) × Resource V :=
  match activeIndex resources normalized.role with
  | some (existing, index) =>
    if sameResource existing normalized then (none, existing)
    else if existing.resourceType = normalized.resourceType && existing.reference = normalized.reference then
      let normalized := {normalized with metadata := normalized.metadata ∪ existing.metadata}
      (some (resources.set index normalized), normalized)
    else (some (resources.set index {existing with state := .superseded} ++ [normalized]), normalized)
  | none => (some (resources ++ [normalized]), normalized)

def normalize (taskId : TaskId) (resource : Resource V) : Resource V :=
  {resource with producerTaskId := some (resource.producerTaskId.getD taskId)}

/-- `upsert_working_resource`, on the ledger of the root. -/
def upsertWorkingResource (current : WorkingSet V) (taskId : TaskId) (resource : Resource V) :
    WorkingSet V × Resource V :=
  match place current.resources (normalize taskId resource) with
  | (none, existing) => (current, existing)
  | (some resources, normalized) => (⟨current.version + 1, retain resources⟩, normalized)

end Model

/-! ### What is retained -/

section Retain

variable {V : Type}

theorem last_of_length_le {α : Type} {n : Nat} {xs : List α} (h : xs.length ≤ n) : last n xs = xs := by
  rw [last, Nat.sub_eq_zero_of_le h, List.drop_zero]

theorem last_tail {α : Type} {n : Nat} {xs : List α} (h : xs.length = n + 1) : last n xs = xs.tail := by
  rw [last, h, Nat.add_sub_cancel_left, List.drop_one]

/-- A ledger that fits is retained as it is. -/
theorem retain_of_le {resources : List (Resource V)} (h : resources.length ≤ maxResources) :
    retain resources = resources :=
  if_neg (Nat.not_lt.mpr h)

theorem length_filters (resources : List (Resource V)) :
    (resources.filter (·.state ≠ .active)).length + (resources.filter (·.state = .active)).length =
    resources.length := by
  have h := List.length_eq_length_filter_add (l := resources) (fun item => decide (item.state = .active))
  rw [h, Nat.add_comm]
  congr 1
  exact congrArg List.length (List.filter_congr fun item _ => by simp)

/-- One above the limit, the first that is not active is dropped, or the first of all. -/
theorem retain_over {resources : List (Resource V)} (h : resources.length = maxResources + 1) :
    retain resources =
      if resources.filter (·.state ≠ .active) = [] then resources.tail
      else (resources.filter (·.state ≠ .active)).tail ++ resources.filter (·.state = .active) := by
  have hsum := length_filters resources
  unfold retain
  rw [if_pos (by omega)]
  dsimp only
  by_cases hnone : resources.filter (·.state ≠ .active) = []
  · have hall : resources.filter (·.state = .active) = resources := by
      refine List.filter_eq_self.mpr fun item hitem => ?_
      have hnot := List.filter_eq_nil_iff.mp hnone item hitem
      simpa using hnot
    rw [if_pos hnone, hall, last_tail h, List.length_tail, h, Nat.add_sub_cancel, Nat.sub_self,
      if_neg fun hne => hne rfl, List.nil_append]
  · have hpos := List.length_pos_iff.mpr hnone
    have hactive : (resources.filter (·.state = .active)).length ≤ maxResources := by omega
    rw [if_neg hnone, last_of_length_le hactive]
    congr 1
    have hlength : (resources.filter (·.state ≠ .active)).length =
        maxResources - (resources.filter (·.state = .active)).length + 1 := by omega
    split
    case isTrue => exact last_tail hlength
    case isFalse hzero =>
      rw [not_not.mp hzero] at hlength
      exact (List.length_eq_zero_iff.mp (by rw [List.length_tail, hlength])).symm

/-- One resource is dropped: the first that is not active, or the first of all. -/
def Drops (resources rest : List (Resource V)) : Prop :=
  (∃ earlier item later, resources = earlier ++ item :: later ∧ item.state ≠ .active ∧
    (∀ other ∈ earlier, other.state = .active) ∧
    rest.Perm (earlier ++ later)) ∨
  (∀ item ∈ resources, item.state = .active) ∧ ∃ item, resources = item :: rest

/-- Of one resource too many, the first that is not active is dropped, or the first of all. -/
theorem retain_drops {resources : List (Resource V)} (h : resources.length = maxResources + 1) :
    Drops resources (retain resources) := by
  rw [retain_over h]
  split
  case isTrue hnone =>
    refine .inr ⟨fun item hitem => ?_, ?_⟩
    · have hnot := List.filter_eq_nil_iff.mp hnone item hitem
      simpa using hnot
    · cases resources with
      | nil => exact nomatch h
      | cons item rest => exact ⟨item, rfl⟩
  case isFalse hsome =>
    obtain ⟨item, hitem, hinactive⟩ :=
      List.exists_mem_of_ne_nil _ hsome |>.imp fun item hitem => List.mem_filter.mp hitem
    have hfind : (resources.find? fun item => item.state ≠ .active).isSome = true :=
        List.find?_isSome.mpr ⟨item, hitem, hinactive⟩
    obtain ⟨first, hfirst⟩ := Option.isSome_iff_exists.mp hfind
    obtain ⟨hinactive, earlier, later, hsplit, hearlier⟩ := List.find?_eq_some_iff_append.mp hfirst
    have hinactive : first.state ≠ .active := of_decide_eq_true hinactive
    have hearlier : ∀ other ∈ earlier, other.state = .active := fun other hother => by simpa using hearlier other hother
    refine .inl ⟨earlier, first, later, hsplit, hinactive, hearlier, ?_⟩
    have hnone : earlier.filter (·.state ≠ .active) = [] :=
        List.filter_eq_nil_iff.mpr fun other hother => by simp [hearlier other hother]
    have hall : earlier.filter (·.state = .active) = earlier :=
        List.filter_eq_self.mpr fun other hother => decide_eq_true (hearlier other hother)
    have hrest : resources.filter (·.state ≠ .active) = first :: later.filter (·.state ≠ .active) := by
      rw [hsplit, List.filter_append, hnone, List.nil_append, List.filter_cons, if_pos (decide_eq_true hinactive)]
    have hactive : resources.filter (·.state = .active) = earlier ++ later.filter (·.state = .active) := by
      rw [hsplit, List.filter_append, hall, List.filter_cons, if_neg (by simpa using hinactive)]
    rw [hrest, hactive, List.tail_cons]
    have hparts : (later.filter (·.state ≠ .active) ++ later.filter (·.state = .active)).Perm later := by
      have hperm := List.filter_append_perm (fun item : Resource V => decide (item.state ≠ .active)) later
      refine List.Perm.trans (List.Perm.append_left _ (List.Perm.of_eq ?_)) hperm
      exact List.filter_congr fun item _ => by simp
    refine List.Perm.trans ?_ (List.Perm.append_left earlier hparts)
    rw [← List.append_assoc, ← List.append_assoc]
    exact List.Perm.append_right _ List.perm_append_comm

/-- What is retained fits. -/
theorem retain_length {resources : List (Resource V)} (h : resources.length ≤ maxResources + 1) :
    (retain resources).length ≤ maxResources := by
  obtain hle | hover := Nat.lt_or_ge maxResources resources.length
  case inr => rwa [retain_of_le hover]
  case inl =>
    have hlength : resources.length = maxResources + 1 := Nat.le_antisymm h hle
    obtain ⟨earlier, item, later, hsplit, -, -, hperm⟩ | ⟨-, item, hsplit⟩ := retain_drops hlength
    · rw [hperm.length_eq]
      rw [hsplit, List.length_append, List.length_cons] at hlength
      rw [List.length_append]
      omega
    · rw [hsplit, List.length_cons] at hlength
      omega

end Retain

/-! ### What is placed -/

section Place

variable {V : Type} [DecidableEq V]

omit [DecidableEq V] in
/-- The active resource of a role that is found. -/
theorem activeIndex_some {resources : List (Resource V)} {role : String} {existing : Resource V} {index : Nat}
    (h : activeIndex resources role = some (existing, index)) :
    ∃ earlier later, resources = earlier ++ existing :: later ∧ index = earlier.length ∧
    existing.role = role ∧ existing.state = .active := by
  obtain ⟨hfound, before, after, hsplit, -⟩ := List.find?_eq_some_iff_append.mp h
  rw [Bool.and_eq_true, decide_eq_true_eq, decide_eq_true_eq] at hfound
  refine ⟨before.map (·.1), after.map (·.1), ?_, ?_, hfound⟩
  · have hfst := congrArg (List.map Prod.fst) hsplit
    rwa [List.map_append, List.map_cons, List.zipIdx_map_fst] at hfst
  · have hat : resources.zipIdx[before.length]? = some (existing, index) := by
      rw [hsplit, List.getElem?_append_right (Nat.le_refl _), Nat.sub_self]
      rfl
    rw [List.getElem?_zipIdx] at hat
    obtain ⟨_, -, hpair⟩ := Option.map_eq_some_iff.mp hat
    rw [List.length_map]
    exact (Prod.mk.inj hpair).2.symm.trans (Nat.zero_add _)

omit [DecidableEq V] in
/-- None is found where no active resource has the role. -/
theorem activeIndex_none {resources : List (Resource V)} {role : String} (h : activeIndex resources role = none) :
    ∀ item ∈ resources, item.state = .active → item.role ≠ role := by
  intro item hitem hactive hrole
  obtain ⟨index, hindex⟩ := List.getElem?_of_mem hitem
  have hnot := List.find?_eq_none.mp h (item, index) (List.mem_zipIdx_iff_getElem?.mpr hindex)
  exact hnot (Bool.and_eq_true_iff.mpr ⟨decide_eq_true hrole, decide_eq_true hactive⟩)

/-- The resource of the same role and reference is recorded with what is known of it. -/
def merged (existing normalized : Resource V) : Resource V :=
    {normalized with metadata := normalized.metadata ∪ existing.metadata}

def supersede (existing : Resource V) : Resource V := {existing with state := .superseded}

/-- The resource that is active designates what is recorded. -/
def Designates (existing normalized : Resource V) : Prop :=
  existing.resourceType = normalized.resourceType ∧ existing.reference = normalized.reference

/-- What a record does before the limit is applied. -/
inductive Placed (resources : List (Resource V)) (normalized : Resource V) :
    Option (List (Resource V)) × Resource V → Prop
  | same {existing : Resource V} (mem : existing ∈ resources) (active : existing.state = .active)
    (role : existing.role = normalized.role)
      (same : sameResource existing normalized = true) : Placed resources normalized (none, existing)
  | merged {earlier later : List (Resource V)} {existing : Resource V}
    (split : resources = earlier ++ existing :: later)
      (active : existing.state = .active) (role : existing.role = normalized.role)
      (designates : Designates existing normalized)
      (differs : sameResource existing normalized = false) :
    Placed resources normalized (some (earlier ++ merged existing normalized :: later), merged existing normalized)
  | replaced {earlier later : List (Resource V)} {existing : Resource V}
    (split : resources = earlier ++ existing :: later)
      (active : existing.state = .active) (role : existing.role = normalized.role)
      (other : ¬ Designates existing normalized) :
    Placed resources normalized (some (earlier ++ supersede existing :: later ++ [normalized]), normalized)
  | added (free : ∀ item ∈ resources, item.state = .active → item.role ≠ normalized.role) :
    Placed resources normalized (some (resources ++ [normalized]), normalized)

/-- `place` puts a report where the role has its place. -/
theorem place_placed (resources : List (Resource V)) (normalized : Resource V) :
    Placed resources normalized (place resources normalized) := by
  unfold place
  cases hindex : activeIndex resources normalized.role with
  | none => exact .added (activeIndex_none hindex)
  | some found =>
    obtain ⟨existing, index⟩ := found
    obtain ⟨earlier, later, hsplit, rfl, hrole, hactive⟩ := activeIndex_some hindex
    have hset : ∀ item : Resource V, resources.set earlier.length item = earlier ++ item :: later := by
      intro item
      rw [hsplit, List.set_append_right _ _ (Nat.le_refl _), Nat.sub_self]
      rfl
    dsimp only
    split
    case isTrue hsame => exact .same (hsplit ▸ List.mem_append_right _ List.mem_cons_self) hactive hrole hsame
    case isFalse hdiffers =>
      have hdiffers : sameResource existing normalized = false := Bool.not_eq_true _ ▸ hdiffers
      split
      case isTrue hdesignates =>
        rw [Bool.and_eq_true, decide_eq_true_eq, decide_eq_true_eq] at hdesignates
        rw [hset]
        exact .merged hsplit hactive hrole hdesignates hdiffers
      case isFalse hother =>
        rw [Bool.and_eq_true, decide_eq_true_eq, decide_eq_true_eq] at hother
        rw [hset]
        exact .replaced hsplit hactive hrole hother

end Place

/-! ### Order -/

section Order

variable {V : Type}

/-- What is active for a role stands after everything else of the role. -/
def Ordered (resources : List (Resource V)) : Prop := resources.Pairwise fun a b => a.state = .active → a.role ≠ b.role

/-- An active resource is the only one of its role, and the last. -/
theorem Ordered.split {earlier later : List (Resource V)} {item : Resource V} (h : Ordered (earlier ++ item :: later)) :
    (∀ other ∈ earlier, other.state = .active → other.role ≠ item.role) ∧
    (item.state = .active → ∀ other ∈ later, other.role ≠ item.role) := by
  rw [Ordered, List.pairwise_append, List.pairwise_cons] at h
  exact ⟨fun other hother hactive => h.2.2 other hother item List.mem_cons_self hactive,
      fun hactive other hother hrole =>
    h.2.1.1 other hother hactive hrole.symm⟩

/-- No role has two active resources. -/
theorem Ordered.unique {resources : List (Resource V)} (h : Ordered resources) {a b : Resource V}
    (ha : a ∈ resources) (hb : b ∈ resources)
    (hactive : a.state = .active) (hactive' : b.state = .active) (hrole : a.role = b.role) : a = b := by
  obtain ⟨earlier, later, rfl⟩ := List.append_of_mem ha
  obtain hb | hb := List.mem_append.mp hb
  · exact absurd hrole.symm (h.split.1 b hb hactive')
  · obtain rfl | hb := List.mem_cons.mp hb
    · rfl
    · exact absurd hrole.symm (h.split.2 hactive b hb)

/-- What stands in the place of the active resource of a role has the role. -/
theorem Ordered.put {earlier later : List (Resource V)} {existing item : Resource V}
    (h : Ordered (earlier ++ existing :: later))
    (hactive : existing.state = .active) (hrole : item.role = existing.role) : Ordered (earlier ++ item :: later) := by
  have hsplit := h.split
  rw [Ordered, List.pairwise_append, List.pairwise_cons] at h ⊢
  refine ⟨h.1, ⟨fun other hother _ heq => hsplit.2 hactive other hother (heq.symm.trans hrole),
    h.2.1.2⟩, fun other hother next hnext hother' => ?_⟩
  obtain rfl | hnext := List.mem_cons.mp hnext
  · exact hrole ▸ hsplit.1 other hother hother'
  · exact h.2.2 other hother next (List.mem_cons_of_mem _ hnext) hother'

/-- A resource whose role is free is added at the end. -/
theorem Ordered.add {resources : List (Resource V)} {item : Resource V} (h : Ordered resources)
    (hfree : ∀ other ∈ resources, other.state = .active → other.role ≠ item.role) : Ordered (resources ++ [item]) := by
  rw [Ordered, List.pairwise_append]
  refine ⟨h, List.pairwise_singleton _ _, fun other hother next hnext hactive => ?_⟩
  rw [List.mem_singleton.mp hnext]
  exact hfree other hother hactive

/-- What is retained is still ordered. -/
theorem Ordered.retain {resources : List (Resource V)} (h : Ordered resources)
    (hlength : resources.length ≤ maxResources + 1) :
    Ordered (retain resources) := by
  obtain hle | hover := Nat.lt_or_ge maxResources resources.length
  case inr => rwa [retain_of_le hover]
  case inl =>
    rw [retain_over (Nat.le_antisymm hlength hle)]
    split
    · exact List.Pairwise.sublist (List.tail_sublist _) h
    · rw [Ordered, List.pairwise_append]
      have hinactive : ∀ item ∈ (resources.filter (·.state ≠ .active)).tail, item.state ≠ .active := fun item hitem =>
        of_decide_eq_true (List.mem_filter.mp (List.mem_of_mem_tail hitem)).2
      refine ⟨?_, List.Pairwise.sublist List.filter_sublist h,
        fun item hitem _ _ hactive => absurd hactive (hinactive item hitem)⟩
      exact List.Pairwise.sublist ((List.tail_sublist _).trans List.filter_sublist) h

/-- The resource last recorded for a role. -/
def latest (resources : List (Resource V)) (role : String) : Option (Resource V) :=
    (resources.filter (·.role = role)).getLast?

/-- The latest resource of a role is its active one. -/
theorem Ordered.latest {earlier later : List (Resource V)} {item : Resource V}
    (h : Ordered (earlier ++ item :: later)) (hactive : item.state = .active) :
    latest (earlier ++ item :: later) item.role = some item := by
  have hlater : later.filter (·.role = item.role) = [] :=
    List.filter_eq_nil_iff.mpr fun other hother => by simpa using h.split.2 hactive other hother
  rw [Working.latest, List.filter_append, List.filter_cons, if_pos (decide_eq_true rfl), hlater, List.getLast?_append]
  rfl

end Order

/-! ### Runs -/

section Runs

variable {V : Type} [DecidableEq V]

/-- One call, of a Task of the tree. -/
abbrev Call (V : Type) := TaskId × Resource V

def Upserts (current : WorkingSet V) (call : Call V) (next : WorkingSet V) : Prop :=
    next = (upsertWorkingResource current call.1 call.2).1

def empty : WorkingSet V := ⟨0, []⟩

omit [DecidableEq V] in
/-- The call last made for a role. -/
def lastFor (calls : List (Call V)) (role : String) : Option (Resource V) :=
  latest (calls.map fun call => normalize call.1 call.2) role

/-- The resource is the one recorded, with the metadata that were recorded with it or before. -/
structure Records (item normalized : Resource V) : Prop where
  designates : item.resourceType = normalized.resourceType ∧ item.role = normalized.role ∧
    item.reference = normalized.reference
  same : item.label = normalized.label ∧ item.revision = normalized.revision ∧ item.state = normalized.state
  metadata : ∀ key value, normalized.metadata.lookup key = some value → item.metadata.lookup key = some value

omit [DecidableEq V] in
theorem Records.refl (normalized : Resource V) : Records normalized normalized :=
    ⟨⟨rfl, rfl, rfl⟩, ⟨rfl, rfl, rfl⟩, fun _ _ h => h⟩

omit [DecidableEq V] in
/-- A merged resource records the report. -/
theorem merged_records {existing normalized : Resource V} : Records (merged existing normalized) normalized := by
  refine ⟨⟨rfl, rfl, rfl⟩, ⟨rfl, rfl, rfl⟩, fun key value hvalue => ?_⟩
  have hmem : key ∈ normalized.metadata := Finmap.lookup_isSome.mp (hvalue ▸ rfl)
  rw [merged, Finmap.lookup_union_left hmem, hvalue]

theorem sameResource_iff {left right : Resource V} : sameResource left right = true ↔
    left.resourceType = right.resourceType ∧ left.role = right.role ∧
    left.reference = right.reference ∧ left.label = right.label ∧ left.revision = right.revision ∧
      left.state = right.state ∧
      left.metadata = right.metadata := by
  unfold sameResource
  simp only [Bool.and_eq_true, decide_eq_true_eq, and_assoc]

/-- A resource that is the same as the report records it. -/
theorem same_records {existing normalized : Resource V}
    (h : sameResource existing normalized = true) : Records existing normalized := by
  obtain ⟨htype, hrole, hreference, hlabel, hrevision, hstate, hmetadata⟩ := sameResource_iff.mp h
  exact ⟨⟨htype, hrole, hreference⟩, ⟨hlabel, hrevision, hstate⟩, fun key value hvalue => by rwa [hmetadata]⟩

/-- An identical resource is the last that was recorded for the role. -/
def Again (resources : List (Resource V)) (normalized : Resource V) : Prop :=
  ∃ existing, latest resources normalized.role = some existing ∧ sameResource existing normalized = true

/-- The record changes what the ledger says, and is not made again. -/
def Effective (resources : List (Resource V)) (normalized : Resource V) : Prop :=
  (∃ placed, (place resources normalized).1 = some placed ∧
    ¬ List.Forall₂ (fun a b => sameResource a b = true) placed resources) ∧
    ¬ Again resources normalized

/-- The version grows by one with an effective change, and the ledger stays without. -/
def Counts (current : WorkingSet V) (normalized : Resource V) (next : WorkingSet V) : Prop :=
  (Effective current.resources normalized → next.version = current.version + 1) ∧
    (¬ Effective current.resources normalized → next = current)

/-- The condition of a call: what it merges is not known already, and what it records again is active. -/
def Plain (resources : List (Resource V)) (normalized : Resource V) : Prop :=
  (∀ existing ∈ resources, existing.state = .active → existing.role = normalized.role → Designates existing normalized →
    sameResource (merged existing normalized) existing = true → sameResource existing normalized = true) ∧
  (Again resources normalized → ∃ existing ∈ resources, existing.state = .active ∧ existing.role = normalized.role)

theorem sameResource_refl (item : Resource V) : sameResource item item = true :=
    sameResource_iff.mpr ⟨rfl, rfl, rfl, rfl, rfl, rfl, rfl⟩

theorem forall₂_longer {placed resources : List (Resource V)} (h : placed.length ≠ resources.length) :
    ¬ List.Forall₂ (fun a b => sameResource a b = true) placed resources := fun hall => h hall.length_eq

theorem forall₂_put {earlier later : List (Resource V)} {a b : Resource V} :
    List.Forall₂ (fun a b => sameResource a b = true) (earlier ++ a :: later)
        (earlier ++ b :: later) ↔ sameResource a b = true := by
  have hrefl : ∀ items : List (Resource V),
      List.Forall₂ (fun a b => sameResource a b = true) items items := fun items =>
    List.forall₂_same.mpr fun item _ => sameResource_refl item
  constructor
  · intro hall
    have hrest := List.forall₂_drop earlier.length hall
    rw [List.drop_left, List.drop_left] at hrest
    exact (List.forall₂_cons.mp hrest).1
  · intro hsame
    exact List.rel_append (hrefl earlier) (.cons hsame (hrefl later))

/-- The version counts effective changes exactly where the call is plain. -/
theorem counts_iff {current : WorkingSet V} (hordered : Ordered current.resources) (taskId : TaskId)
    (resource : Resource V) :
    Counts current (normalize taskId resource) (upsertWorkingResource current taskId resource).1 ↔
        Plain current.resources (normalize taskId resource) := by
  generalize hn : normalize taskId resource = normalized
  have hspec := place_placed current.resources normalized
  have hnext : (upsertWorkingResource current taskId resource).1 =
      match (place current.resources normalized).1
          with | none => current | some resources => ⟨current.version + 1, retain resources⟩ := by
    unfold upsertWorkingResource
    rw [hn]
    rcases place current.resources normalized with ⟨_ | _, _⟩ <;> rfl
  rw [hnext]
  unfold Counts Effective
  generalize place current.resources normalized = result at hspec ⊢
  -- Where something is placed the version grows, so the change has to be one.
  have hgrows : ∀ {E : Prop} {resources : List (Resource V)},
      ((E → (⟨current.version + 1, resources⟩ : WorkingSet V).version = current.version + 1) ∧
        (¬ E → (⟨current.version + 1, resources⟩ : WorkingSet V) = current)) ↔ E := by
    intro E resources
    refine ⟨fun h => by_contra fun hnot => ?_, fun hE => ⟨fun _ => rfl, fun hnot => absurd hE hnot⟩⟩
    have hversion := congrArg WorkingSet.version (h.2 hnot)
    exact absurd hversion (Nat.succ_ne_self _)
  cases hspec with
  | @same existing mem active role same =>
    refine ⟨fun _ => ⟨fun other hother hactive hrole _ _ => ?_,
      fun _ => ⟨existing, mem, active, role⟩⟩, fun _ => ⟨fun h => ?_, fun _ => rfl⟩⟩
    · rwa [hordered.unique hother mem hactive active (hrole.trans role.symm)]
    · obtain ⟨⟨placed, hnone, -⟩, -⟩ := h
      exact nomatch hnone
  | @merged earlier later existing split active role designates differs =>
    refine hgrows.trans ⟨fun heffective => ⟨fun other hother hactive hrole _ hsame => ?_,
      fun _ => ?_⟩, fun hplain => ⟨⟨_, rfl, fun hall => ?_⟩, ?_⟩⟩
    · obtain rfl : other = existing :=
        hordered.unique hother (split ▸ List.mem_append_right _ List.mem_cons_self) hactive active
          (hrole.trans role.symm)
      obtain ⟨⟨placed, hplaced, hnot⟩, -⟩ := heffective
      obtain rfl := Option.some.inj hplaced
      rw [split] at hnot
      exact absurd (forall₂_put.mpr hsame) hnot
    · exact ⟨existing, split ▸ List.mem_append_right _ List.mem_cons_self, active, role⟩
    · rw [split] at hall
      have hsame := hplain.1 existing (split ▸ List.mem_append_right _ List.mem_cons_self) active
          role designates (forall₂_put.mp hall)
      exact nomatch differs.symm.trans hsame
    · rintro ⟨other, hlatest, hsame⟩
      rw [← role, split, Ordered.latest (split ▸ hordered : Ordered (earlier ++ existing :: later)) active] at hlatest
      obtain rfl := Option.some.inj hlatest
      exact nomatch differs.symm.trans hsame
  | @replaced earlier later existing split active role other =>
    have hmem : existing ∈ current.resources := split ▸ List.mem_append_right _ List.mem_cons_self
    refine hgrows.trans ⟨fun _ =>
      ⟨fun item hitem hactive hrole hdesignates _ => ?_, fun _ => ⟨existing, hmem, active, role⟩⟩,
      fun _ => ⟨⟨_, rfl, forall₂_longer ?_⟩, ?_⟩⟩
    · rw [hordered.unique hitem hmem hactive active (hrole.trans role.symm)] at hdesignates
      exact absurd hdesignates other
    · rw [split]
      simp only [List.length_append, List.length_cons, List.length_nil]
      omega
    · rintro ⟨item, hlatest, hsame⟩
      rw [← role, split, Ordered.latest (split ▸ hordered : Ordered (earlier ++ existing :: later)) active] at hlatest
      obtain rfl := Option.some.inj hlatest
      obtain ⟨htype, -, hreference, -⟩ := sameResource_iff.mp hsame
      exact other ⟨htype, hreference⟩
  | added free =>
    refine hgrows.trans ⟨fun heffective => ⟨fun item hitem hactive hrole =>
      absurd hrole (free item hitem hactive), fun hagain => absurd hagain heffective.2⟩,
      fun hplain => ⟨⟨_, rfl, forall₂_longer ?_⟩, fun hagain => ?_⟩⟩
    · rw [List.length_append, List.length_singleton]
      omega
    · obtain ⟨item, hitem, hactive, hrole⟩ := hplain.2 hagain
      exact free item hitem hactive hrole

/-! ### What every ledger keeps -/

/-- At some time so far, every resource that is kept was active. -/
def Crowded (calls : List (Call V)) : Prop :=
  ∃ before after current, calls = before ++ after ∧ Steps Upserts empty before current ∧
    current.resources.length = maxResources ∧
    ∀ item ∈ current.resources, item.state = .active

/-- Calls that have once crowded the ledger have done so with one more. -/
theorem Crowded.more {calls : List (Call V)} (h : Crowded calls) (call : Call V) : Crowded (calls ++ [call]) := by
  obtain ⟨before, after, current, hsplit, hrest⟩ := h
  exact ⟨before, after ++ [call], current, by rw [hsplit, List.append_assoc], hrest⟩

/-- What the calls so far have left. -/
structure Kept (calls : List (Call V)) (current : WorkingSet V) : Prop where
  run : Steps Upserts empty calls current
  ordered : Ordered current.resources
  bounded : current.resources.length ≤ maxResources
  -- What is active for a role is what was last recorded for it.
  recent : ∀ item ∈ current.resources, item.state = .active → ∃ normalized,
    lastFor calls item.role = some normalized ∧ normalized.state = .active ∧
    Records item normalized
  kept : ∀ role normalized, lastFor calls role = some normalized → normalized.state = .active →
    (∃ item ∈ current.resources, item.state = .active ∧ item.role = role ∧ Records item normalized) ∨ Crowded calls

omit [DecidableEq V] in
/-- The last report of a role is the last call, where it names the role. -/
theorem lastFor_append (calls : List (Call V)) (call : Call V) (role : String) :
    lastFor (calls ++ [call]) role = if (normalize call.1 call.2).role = role
        then some (normalize call.1 call.2) else lastFor calls role := by
  rw [lastFor, latest, List.map_append, List.filter_append]
  change ((List.map _ calls).filter _ ++ [normalize call.1 call.2].filter _).getLast? = _
  split
  case isTrue hrole => rw [List.filter_cons, if_pos (decide_eq_true hrole), List.filter_nil, List.getLast?_append]; rfl
  case isFalse hrole =>
    rw [List.filter_cons, if_neg (by simpa using hrole), List.filter_nil, List.append_nil]
    rfl

omit [DecidableEq V] in
/-- What is active is dropped only where everything is active. -/
theorem retain_keeps {resources : List (Resource V)} (hlength : resources.length ≤ maxResources + 1)
    {item : Resource V} (hitem : item ∈ resources)
    (hactive : item.state = .active) :
    item ∈ retain resources ∨ resources.length = maxResources + 1 ∧
        (∀ other ∈ resources, other.state = .active) ∧ resources.head? = some item := by
  obtain hle | hover := Nat.lt_or_ge maxResources resources.length
  case inr => exact .inl (by rwa [retain_of_le hover])
  case inl =>
    have hover := Nat.le_antisymm hlength hle
    obtain ⟨earlier, dropped, later, hsplit, hinactive, -, hperm⟩ | ⟨hall, dropped, hsplit⟩ := retain_drops hover
    · refine .inl (hperm.mem_iff.mpr ?_)
      rw [hsplit] at hitem
      obtain hitem | hitem := List.mem_append.mp hitem
      · exact List.mem_append_left _ hitem
      · obtain rfl | hitem := List.mem_cons.mp hitem
        · exact absurd hactive hinactive
        · exact List.mem_append_right _ hitem
    · obtain rfl | hin := List.mem_cons.mp (hsplit ▸ hitem)
      · exact .inr ⟨hover, hall, by rw [hsplit]; rfl⟩
      · exact .inl hin

omit [DecidableEq V] in
/-- Nothing is retained that was not there. -/
theorem mem_of_retain {resources : List (Resource V)} (hlength : resources.length ≤
    maxResources + 1) {item : Resource V} (hitem : item ∈ retain resources) :
    item ∈ resources := by
  obtain hle | hover := Nat.lt_or_ge maxResources resources.length
  case inr => rwa [retain_of_le hover] at hitem
  case inl =>
    obtain ⟨earlier, dropped, later, hsplit, -, -, hperm⟩ | ⟨-, dropped, hsplit⟩ :=
      retain_drops (Nat.le_antisymm hlength hle)
    · rw [hsplit]
      obtain hitem | hitem := List.mem_append.mp (hperm.mem_iff.mp hitem)
      · exact List.mem_append_left _ hitem
      · exact List.mem_append_right _ (List.mem_cons_of_mem _ hitem)
    · exact hsplit ▸ List.mem_cons_of_mem _ hitem

/-- What a record puts into the ledger. -/
structure Put (resources : List (Resource V)) (normalized : Resource V) (placed : List (Resource V)) : Prop where
  ordered : Ordered placed
  bounded : placed.length ≤ maxResources + 1
  active : ∀ item ∈ placed, item.state = .active →
    item ∈ resources ∧ item.role ≠ normalized.role ∨ item.role = normalized.role ∧
    normalized.state = .active ∧ Records item normalized
  keeps : ∀ item ∈ resources, item.state = .active → item.role ≠ normalized.role → item ∈ placed
  records : normalized.state = .active → ∃ item ∈ placed, item.state = .active ∧
    item.role = normalized.role ∧ Records item normalized
  full : placed.length = maxResources + 1 → (∀ item ∈ placed, item.state = .active) → placed = resources ++ [normalized]

/-- An update puts one resource, and retains. -/
theorem upsert_put {current : WorkingSet V} (hordered : Ordered current.resources)
    (hbounded : current.resources.length ≤ maxResources) (taskId : TaskId)
    (resource : Resource V) : ∃ placed, Put current.resources (normalize taskId resource) placed ∧
      (upsertWorkingResource current taskId resource).1.resources = retain placed := by
  have hspec := place_placed current.resources (normalize taskId resource)
  have hnext : (upsertWorkingResource current taskId resource).1 =
      match (place current.resources (normalize taskId resource)).1 with
      | none => current
      | some resources => ⟨current.version + 1, retain resources⟩ := by
    unfold upsertWorkingResource
    rcases place current.resources (normalize taskId resource) with ⟨_ | _, _⟩ <;> rfl
  rw [hnext]
  generalize normalize taskId resource = normalized at hspec ⊢
  generalize place current.resources normalized = result at hspec ⊢
  have hother : ∀ {earlier later : List (Resource V)} {existing : Resource V},
      current.resources = earlier ++ existing :: later →
      existing.state = .active → existing.role = normalized.role → ∀ item, item ∈ earlier ∨
        item ∈ later → item.state = .active →
      item ∈ current.resources ∧ item.role ≠ normalized.role := by
    intro earlier later existing hsplit hactive hrole item hitem hlive
    have hsides := Ordered.split (hsplit ▸ hordered)
    rw [hsplit, ← hrole]
    obtain hitem | hitem := hitem
    · exact ⟨List.mem_append_left _ hitem, hsides.1 item hitem hlive⟩
    · exact ⟨List.mem_append_right _ (List.mem_cons_of_mem _ hitem), hsides.2 hactive item hitem⟩
  have hkept : ∀ {earlier later : List (Resource V)} {existing : Resource V},
      current.resources = earlier ++ existing :: later →
      existing.role = normalized.role → ∀ item ∈ current.resources, item.role ≠ normalized.role →
          item ∈ earlier ∨ item ∈ later := by
    intro earlier later existing hsplit hrole item hitem hne
    obtain hitem | hitem := List.mem_append.mp (hsplit ▸ hitem)
    · exact .inl hitem
    · obtain rfl | hitem := List.mem_cons.mp hitem
      · exact absurd hrole hne
      · exact .inr hitem
  cases hspec with
  | @same existing mem active role same =>
    refine ⟨current.resources, ⟨hordered, Nat.le_succ_of_le hbounded, fun item hitem hlive => ?_,
      fun item hitem _ _ => hitem,
      fun _ => ⟨existing, mem, active, role, same_records same⟩, fun hover => ?_⟩, (retain_of_le hbounded).symm⟩
    · by_cases hrole : item.role = normalized.role
      · obtain rfl := hordered.unique hitem mem hlive active (hrole.trans role.symm)
        have hrecords := same_records same
        exact .inr ⟨hrole, hrecords.same.2.2.symm.trans hlive, hrecords⟩
      · exact .inl ⟨hitem, hrole⟩
    · exact absurd hover (by omega)
  | @merged earlier later existing split active role designates differs =>
    have hlength : (earlier ++ merged existing normalized :: later).length = current.resources.length := by
      rw [split, List.length_append, List.length_append, List.length_cons, List.length_cons]
    refine ⟨earlier ++ merged existing normalized :: later, ⟨Ordered.put (split ▸ hordered) active
      role.symm, hlength ▸ Nat.le_succ_of_le hbounded, fun item hitem hlive => ?_,
      fun item hitem _ hne => ?_, fun hlive => ⟨_, List.mem_append_right _ List.mem_cons_self,
        hlive, rfl, merged_records⟩, fun hover => ?_⟩, rfl⟩
    · obtain hitem | hitem := List.mem_append.mp hitem
      · exact .inl (hother split active role item (.inl hitem) hlive)
      · obtain rfl | hitem := List.mem_cons.mp hitem
        · exact .inr ⟨rfl, hlive, merged_records⟩
        · exact .inl (hother split active role item (.inr hitem) hlive)
    · exact (hkept split role item hitem hne).elim (List.mem_append_left _) fun hin =>
        List.mem_append_right _ (List.mem_cons_of_mem _ hin)
    · exact absurd (hlength.symm.trans hover) (by omega)
  | @replaced earlier later existing split active role other =>
    have hmiddle : Ordered (earlier ++ supersede existing :: later) := Ordered.put (split ▸ hordered) active rfl
    refine ⟨_, ⟨hmiddle.add fun item hitem hlive => ?_, ?_, fun item hitem hlive => ?_,
        fun item hitem _ hne => ?_, fun hlive =>
      ⟨_, List.mem_append_right _ (List.mem_singleton.mpr rfl), hlive, rfl, Records.refl _⟩, fun _ hall => ?_⟩, rfl⟩
    · obtain hitem | hitem := List.mem_append.mp hitem
      · exact (hother split active role item (.inl hitem) hlive).2
      · obtain rfl | hitem := List.mem_cons.mp hitem
        · exact nomatch hlive
        · exact (hother split active role item (.inr hitem) hlive).2
    · rw [split] at hbounded
      simp only [List.length_append, List.length_cons, List.length_nil] at hbounded ⊢
      omega
    · obtain hitem | hitem := List.mem_append.mp hitem
      · obtain hitem | hitem := List.mem_append.mp hitem
        · exact .inl (hother split active role item (.inl hitem) hlive)
        · obtain rfl | hitem := List.mem_cons.mp hitem
          · exact nomatch hlive
          · exact .inl (hother split active role item (.inr hitem) hlive)
      · obtain rfl := List.mem_singleton.mp hitem
        exact .inr ⟨rfl, hlive, Records.refl _⟩
    · exact List.mem_append_left _ ((hkept split role item hitem hne).elim (List.mem_append_left _) fun hin =>
        List.mem_append_right _ (List.mem_cons_of_mem _ hin))
    · exact nomatch hall (supersede existing) (List.mem_append_left _ (List.mem_append_right _ List.mem_cons_self))
  | added free =>
    refine ⟨_, ⟨hordered.add free, ?_, fun item hitem hlive => ?_,
        fun item hitem _ _ => List.mem_append_left _ hitem, fun hlive =>
      ⟨_, List.mem_append_right _ (List.mem_singleton.mpr rfl), hlive, rfl, Records.refl _⟩, fun _ _ => rfl⟩, rfl⟩
    · rw [List.length_append, List.length_singleton]
      exact Nat.succ_le_succ hbounded
    · obtain hitem | hitem := List.mem_append.mp hitem
      · exact .inl ⟨hitem, free item hitem hlive⟩
      · obtain rfl := List.mem_singleton.mp hitem
        exact .inr ⟨rfl, hlive, Records.refl _⟩

/-- An update keeps what the ledger tells of the calls. -/
theorem Kept.step {calls : List (Call V)} {current next : WorkingSet V} {call : Call V}
    (h : Kept calls current) (hstep : Upserts current call next) :
    Kept (calls ++ [call]) next := by
  obtain ⟨taskId, resource⟩ := call
  obtain ⟨placed, hput, hresources⟩ := upsert_put h.ordered h.bounded taskId resource
  rw [← hstep] at hresources
  refine ⟨h.run.append (.single hstep), hresources ▸ hput.ordered.retain hput.bounded,
    hresources ▸ retain_length hput.bounded,
    fun item hitem hactive => ?_, fun role normalized hlast hactive => ?_⟩
  · rw [lastFor_append]
    obtain ⟨hin, hne⟩ | ⟨hrole, hlive, hrecords⟩ :=
      hput.active item (mem_of_retain hput.bounded (hresources ▸ hitem)) hactive
    · rw [if_neg hne.symm]
      exact h.recent item hin hactive
    · exact ⟨_, if_pos hrole.symm, hlive, hrecords⟩
  · -- What is active is there before the limit is applied; it is dropped only where the ledger was full of
    -- active resources.
    have hfull : ∀ item ∈ placed, item.state = .active → item ∈ next.resources ∨
        Crowded (calls ++ [(taskId, resource)]) := by
      intro item hitem hlive
      obtain hkept | ⟨hover, hall, -⟩ := retain_keeps hput.bounded hitem hlive
      · exact .inl (hresources ▸ hkept)
      · have hplaced := hput.full hover hall
        rw [hplaced, List.length_append, List.length_singleton] at hover
        exact .inr ⟨calls, _, current, rfl, h.run, Nat.succ.inj hover,
          fun other hother => hall other (hplaced ▸ List.mem_append_left _ hother)⟩
    rw [lastFor_append] at hlast
    split at hlast
    case isTrue hrole =>
      obtain rfl := Option.some.inj hlast
      obtain ⟨item, hitem, hlive, hsame, hrecords⟩ := hput.records hactive
      exact (hfull item hitem hlive).imp_left fun hin => ⟨item, hin, hlive, hsame.trans hrole, hrecords⟩
    case isFalse hrole =>
      obtain ⟨item, hitem, hlive, hsame, hrecords⟩ | hcrowded := h.kept role normalized hlast hactive
      · refine (hfull item (hput.keeps item hitem hlive fun heq => hrole (heq.symm.trans hsame))
          hlive).imp_left fun hin => ?_
        exact ⟨item, hin, hlive, hsame, hrecords⟩
      · exact .inr (hcrowded.more _)

/-- The ledger that the calls so far have left, and what one more does to it. -/
structure Ledger (calls : List (Call V)) (current : WorkingSet V) : Prop where
  single : ∀ role, (current.resources.filter fun item => item.role = role && item.state = .active).length ≤ 1
  bounded : current.resources.length ≤ maxResources
  recent : ∀ item ∈ current.resources, item.state = .active → ∃ normalized,
    lastFor calls item.role = some normalized ∧ normalized.state = .active ∧
    Records item normalized
  kept : ∀ role normalized, lastFor calls role = some normalized → normalized.state = .active →
    (∃ item ∈ current.resources, item.state = .active ∧ item.role = role ∧ Records item normalized) ∨ Crowded calls
  merges : ∀ taskId resource, ∀ existing ∈ current.resources, existing.state = .active → existing.role = resource.role →
    Designates existing (normalize taskId resource) → sameResource existing (normalize taskId resource) = false →
    merged existing (normalize taskId resource) ∈ (upsertWorkingResource current taskId resource).1.resources
  -- Before the limit is applied nothing is dropped, and above it one resource.
  drops : ∀ taskId resource placed, (place current.resources (normalize taskId resource)).1 = some placed →
    (placed.length ≤ maxResources → (upsertWorkingResource current taskId resource).1.resources = placed) ∧
      (maxResources < placed.length → Drops placed (upsertWorkingResource current taskId resource).1.resources)
  counts : ∀ taskId resource,
    Counts current (normalize taskId resource) (upsertWorkingResource current taskId resource).1 ↔
    Plain current.resources (normalize taskId resource)

/-- What is kept is what the ledger promises. -/
theorem Kept.ledger {calls : List (Call V)} {current : WorkingSet V} (h : Kept calls current) :
    Ledger calls current := by
  refine ⟨fun role => ?_, h.bounded, h.recent, h.kept,
    fun taskId resource existing hmem hlive hrole hdesignates hdiffers => ?_, fun taskId resource placed hplaced => ?_,
    fun taskId resource => counts_iff h.ordered taskId resource⟩
  · have hall : (current.resources.filter fun item => item.role = role &&
        item.state = .active).Pairwise fun _ _ => False := by
      refine (List.Pairwise.sublist List.filter_sublist h.ordered).imp_of_mem fun {a b} ha hb hnot => ?_
      have ha := (List.mem_filter.mp ha).2
      have hb := (List.mem_filter.mp hb).2
      rw [Bool.and_eq_true, decide_eq_true_eq, decide_eq_true_eq] at ha hb
      exact hnot ha.2 (ha.1.trans hb.1.symm)
    generalize current.resources.filter (fun item => item.role = role && item.state = .active) = items at hall ⊢
    match items, hall with
    | [], _ => exact Nat.zero_le _
    | [_], _ => exact Nat.le_refl _
    | _ :: b :: _, hall => exact ((List.pairwise_cons.mp hall).1 b List.mem_cons_self).elim
  · have hspec := place_placed current.resources (normalize taskId resource)
    unfold upsertWorkingResource
    generalize place current.resources (normalize taskId resource) = result at hspec
    cases hspec with
    | @same other mem active role same =>
      rw [h.ordered.unique hmem mem hlive active (hrole.trans role.symm)] at hdiffers
      exact nomatch hdiffers.symm.trans same
    | @merged earlier later other split active role designates differs =>
      have hlength : (earlier ++ merged other (normalize taskId resource) :: later).length ≤ maxResources := by
        have hbounded := h.bounded
        rw [split] at hbounded
        simp only [List.length_append, List.length_cons] at hbounded ⊢
        exact hbounded
      dsimp only
      rw [retain_of_le hlength]
      have hmem' : other ∈ current.resources := split ▸ List.mem_append_right _ List.mem_cons_self
      rw [h.ordered.unique hmem hmem' hlive active (hrole.trans role.symm)]
      exact List.mem_append_right _ List.mem_cons_self
    | @replaced earlier later other split active role differs =>
      have hmem' : other ∈ current.resources := split ▸ List.mem_append_right _ List.mem_cons_self
      rw [h.ordered.unique hmem hmem' hlive active (hrole.trans role.symm)] at hdesignates
      exact absurd hdesignates differs
    | added free => exact absurd hrole (free existing hmem hlive)
  · have hresources : (upsertWorkingResource current taskId resource).1.resources = retain placed := by
      unfold upsertWorkingResource
      rcases hcase : place current.resources (normalize taskId resource) with ⟨_ | found, item⟩
      · rw [hcase] at hplaced
        exact nomatch hplaced
      · rw [hcase] at hplaced
        obtain rfl := Option.some.inj hplaced
        rfl
    rw [hresources]
    refine ⟨retain_of_le, fun hover => retain_drops (Nat.le_antisymm ?_ hover)⟩
    have hspec := place_placed current.resources (normalize taskId resource)
    have hbounded := h.bounded
    generalize place current.resources (normalize taskId resource) = result at hspec hplaced
    cases hspec with
    | same => exact nomatch hplaced
    | merged split =>
      obtain rfl := Option.some.inj hplaced
      rw [split] at hbounded
      simp only [List.length_append, List.length_cons] at hbounded ⊢
      exact Nat.le_succ_of_le hbounded
    | replaced split =>
      obtain rfl := Option.some.inj hplaced
      rw [split] at hbounded
      simp only [List.length_append, List.length_cons, List.length_nil] at hbounded ⊢
      omega
    | added =>
      obtain rfl := Option.some.inj hplaced
      rw [List.length_append, List.length_singleton]
      exact Nat.succ_le_succ hbounded

/-- Every sequence of calls leaves such a ledger. -/
theorem working_set_ledger {calls : List (Call V)} {current : WorkingSet V}
    (h : Steps Upserts empty calls current) : Ledger calls current := by
  have hstart : Kept ([] : List (Call V)) empty :=
    ⟨.nil _, List.Pairwise.nil, Nat.zero_le _, fun _ hmem => absurd hmem List.not_mem_nil,
      fun _ _ hnone => nomatch hnone⟩
  exact (h.recorded (P := Kept) (fun _ _ _ _ hkept hstep => hkept.step hstep) hstart).ledger

end Runs

/-! ### A version for nothing -/

def report (state : ResourceState) (metadata : Finmap fun _ : String => Nat) : Resource Nat :=
  ⟨"artifact", "report", "https://example.test/report", "", none, state, none, metadata, 0⟩

def tool : Finmap fun _ : String => Nat := Finmap.singleton "tool" 1

def size : Finmap fun _ : String => Nat := Finmap.singleton "size" 2

/-- The ledger after the calls. -/
def recorded (calls : List (Call Nat)) : WorkingSet Nat :=
    calls.foldl (fun current call => (upsertWorkingResource current call.1 call.2).1) empty

theorem recorded_steps (calls : List (Call Nat)) (current : WorkingSet Nat) :
    Steps Upserts current calls (calls.foldl
        (fun current call => (upsertWorkingResource current call.1 call.2).1) current) := by
  induction calls generalizing current with
  | nil => exact .nil _
  | cons call rest ih => exact .cons rfl (ih _)

/-- Recorded again, a resource that was merged gets a version though nothing changes; and one that is stale
is added again. -/
theorem repeated_record_counts :
    (Steps Upserts empty [(1, report .active tool), (1, report .active size)]
      (recorded [(1, report .active tool), (1, report .active size)]) ∧
      ¬ Counts (recorded [(1, report .active tool), (1, report .active size)]) (normalize 1 (report .active size))
        (upsertWorkingResource (recorded [(1, report .active tool), (1, report .active size)]) 1
          (report .active size)).1) ∧
    Steps Upserts empty [(1, report .stale tool)] (recorded [(1, report .stale tool)]) ∧
      ¬ Counts (recorded [(1, report .stale tool)]) (normalize 1 (report .stale tool))
        (upsertWorkingResource (recorded [(1, report .stale tool)]) 1 (report .stale tool)).1 := by
  refine ⟨⟨recorded_steps _ _, fun hcounts => ?_⟩, recorded_steps _ _, fun hcounts => ?_⟩
  · have heffective :
        ¬ Effective (recorded [(1, report .active tool), (1, report .active size)]).resources
        (normalize 1 (report .active size)) := by
      rintro ⟨⟨placed, hplaced, hnot⟩, -⟩
      obtain rfl := Option.some.inj
        ((show (place (recorded [(1, report .active tool), (1, report .active size)]).resources
        (normalize 1 (report .active size))).1 = some [merged (report .active tool)
          (normalize 1 (report .active size))] from by decide +kernel).symm.trans hplaced)
      exact hnot (.cons (by decide +kernel) .nil)
    exact absurd (congrArg WorkingSet.version (hcounts.2 heffective)) (by decide +kernel)
  · have heffective : ¬ Effective (recorded [(1, report .stale tool)]).resources (normalize 1 (report .stale tool)) :=
      fun heffective => heffective.2 ⟨_, rfl, by decide +kernel⟩
    exact absurd (congrArg WorkingSet.version (hcounts.2 heffective)) (by decide +kernel)

theorem working_set_ledger_merged : Ledger [(1, report .active tool), (2, report .active size)]
    (recorded [(1, report .active tool), (2, report .active size)]) :=
  working_set_ledger (recorded_steps [(1, report .active tool), (2, report .active size)] empty)

end Galaris.Tasks.Working
