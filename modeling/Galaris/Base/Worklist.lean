import Mathlib.Data.List.Nodup
import Mathlib.Data.List.Perm.Subperm
import Mathlib.Logic.Relation

/-! Traversals of a graph with a list of pending places and a bound.

A turn takes one pending place; the first time it is seen, it is visited and what it is linked to becomes
pending. A traversal ends when nothing is pending, or when so many places have been visited as the bound
says. In whatever order the pending places are taken, it ends (`Turn.size_lt`), and where no more places can be
reached than the bound, it has visited all of them (`Inv.visited_iff`); otherwise it misses one
(`Inv.missed`). -/
namespace Worklist
variable {P : Type} [DecidableEq P]

/-- What is pending, and what has been visited. -/
structure Walk (P : Type) where
  pending : List P
  visited : List P

/-- One turn of a traversal that takes the first of the pending places. -/
def turn (links : P → List P) (bound : Nat) (w : Walk P) : Option (Walk P) :=
  if w.visited.length < bound then
    match w.pending with
    | [] => none
    | p :: rest => if p ∈ w.visited then some ⟨rest, w.visited⟩ else some ⟨links p ++ rest, p :: w.visited⟩
  else none

/-- A turn that takes any of the pending places. -/
def Turn (links : P → List P) (bound : Nat) (w w' : Walk P) : Prop :=
  ∃ pending pending', pending.Perm w.pending ∧
    turn links bound ⟨pending, w.visited⟩ = some ⟨pending', w'.visited⟩ ∧ pending'.Perm w'.pending

/-- No turn is left. -/
def Done (bound : Nat) (w : Walk P) : Prop := w.pending = [] ∨ bound ≤ w.visited.length

/-- A place can be reached along the links. -/
def Reach (links : P → List P) : P → P → Prop := Relation.ReflTransGen fun p q => q ∈ links p

/-- So many places can be reached. -/
def AtMost (links : P → List P) (start : P) (bound : Nat) : Prop :=
  ∃ places : List P, places.length ≤ bound ∧ ∀ p, Reach links start p → p ∈ places

variable {links : P → List P} {bound : Nat} {start : P} {w w' : Walk P}

/-- What a turn does. -/
theorem turn_cases (h : turn links bound w = some w') : w.visited.length < bound ∧ ∃ p rest, w.pending = p :: rest ∧
    ((p ∈ w.visited ∧ w' = ⟨rest, w.visited⟩) ∨ (p ∉ w.visited ∧ w' = ⟨links p ++ rest, p :: w.visited⟩)) := by
  unfold turn at h
  split at h
  case isFalse => cases h
  case isTrue hbound =>
    split at h
    case h_1 => cases h
    case h_2 p rest hpending =>
      refine ⟨hbound, p, rest, hpending, ?_⟩
      split at h
      case isTrue hseen => exact .inl ⟨hseen, (Option.some.inj h).symm⟩
      case isFalse hnew => exact .inr ⟨hnew, (Option.some.inj h).symm⟩

theorem turn_eq_none (w : Walk P) : turn links bound w = none ↔ Done bound w := by
  unfold turn Done
  split
  case isFalse hbound => exact ⟨fun _ => .inr (Nat.le_of_not_lt hbound), fun _ => rfl⟩
  case isTrue hbound =>
    split
    case h_1 hempty => exact ⟨fun _ => .inl hempty, fun _ => rfl⟩
    case h_2 p rest hpending =>
      refine ⟨fun h => ?_, fun h => ?_⟩
      · split at h
        · cases h
        · cases h
      · obtain hempty | hfull := h
        · rw [hpending] at hempty
          cases hempty
        · omega

theorem Turn.of_turn (h : turn links bound w = some w') : Turn links bound w w' := ⟨_, _, .refl _, h, .refl _⟩

/-- What a turn does in any order. -/
theorem Turn.cases (h : Turn links bound w w') : w.visited.length < bound ∧ ∃ p rest, w.pending.Perm (p :: rest) ∧
    ((p ∈ w.visited ∧ w'.visited = w.visited ∧ w'.pending.Perm rest) ∨
      (p ∉ w.visited ∧ w'.visited = p :: w.visited ∧ w'.pending.Perm (links p ++ rest))) := by
  obtain ⟨pending, pending', hpending, hturn, hpending'⟩ := h
  obtain ⟨hbound, p, rest, heq, hcases⟩ := turn_cases hturn
  dsimp only at heq
  subst heq
  refine ⟨hbound, p, rest, hpending.symm, ?_⟩
  obtain ⟨hseen, hw'⟩ | ⟨hnew, hw'⟩ := hcases
  · obtain ⟨rfl, hvisited⟩ := Walk.mk.inj hw'
    exact .inl ⟨hseen, hvisited, hpending'.symm⟩
  · obtain ⟨rfl, hvisited⟩ := Walk.mk.inj hw'
    exact .inr ⟨hnew, hvisited, hpending'.symm⟩

/-! ### Every traversal ends -/

/-- How many turns may still come, where a place has at most `width` links. -/
def size (width bound : Nat) (w : Walk P) : Nat := (width + 1) * (bound - w.visited.length) + w.pending.length

theorem Turn.size_lt {width : Nat} (hwidth : ∀ p, (links p).length ≤ width)
    (h : Turn links bound w w') : size width bound w' < size width bound w := by
  obtain ⟨hbound, p, rest, hpending, ⟨-, hvisited, hrest⟩ | ⟨-, hvisited, hrest⟩⟩ := h.cases
  · rw [size, size, hvisited, hpending.length_eq, hrest.length_eq, List.length_cons]
    omega
  · have hlinks := hwidth p
    have hleft : bound - w.visited.length = bound - (w.visited.length + 1) + 1 := by omega
    rw [size, size, hvisited, hpending.length_eq, hrest.length_eq, List.length_cons,
      List.length_cons, List.length_append, hleft, Nat.mul_succ]
    omega

/-! ### What has been visited -/

/-- What is visited or pending can be reached, and what can be reached is not forgotten. -/
structure Inv (links : P → List P) (bound : Nat) (start : P) (w : Walk P) : Prop where
  reached : ∀ p, p ∈ w.pending ∨ p ∈ w.visited → Reach links start p
  started : start ∈ w.pending ∨ start ∈ w.visited
  linked : ∀ p ∈ w.visited, ∀ q ∈ links p, q ∈ w.pending ∨ q ∈ w.visited
  distinct : w.visited.Nodup
  bounded : w.visited.length ≤ bound

omit [DecidableEq P] in
theorem inv_start (links : P → List P) (bound : Nat) (start : P) : Inv links bound start ⟨[start], []⟩ where
  reached p h := by
    obtain h | h := h
    · rw [List.mem_singleton.mp h]
      exact .refl
    · cases h
  started := .inl (List.mem_singleton_self _)
  linked _ h := nomatch h
  distinct := List.nodup_nil
  bounded := Nat.zero_le _

theorem Inv.turn (h : Inv links bound start w) (hturn : Turn links bound w w') : Inv links bound start w' := by
  obtain ⟨hbound, p, rest, hpending, hcases⟩ := hturn.cases
  have hold (q : P) : q ∈ w.pending ↔ q = p ∨ q ∈ rest := by rw [hpending.mem_iff, List.mem_cons]
  have hp : Reach links start p := h.reached p (.inl ((hold p).mpr (.inl rfl)))
  obtain ⟨hseen, hvisited, hrest⟩ | ⟨hnew, hvisited, hrest⟩ := hcases
  · -- What was pending is still, or has been seen.
    have hkept (q : P) (hq : q ∈ w.pending ∨ q ∈ w.visited) : q ∈ w'.pending ∨ q ∈ w'.visited := by
      rw [hvisited, hrest.mem_iff]
      obtain hq | hq := hq
      · obtain rfl | hq := (hold q).mp hq
        · exact .inr hseen
        · exact .inl hq
      · exact .inr hq
    refine ⟨fun q hq => h.reached q ?_, hkept _ h.started, fun q hq r hr =>
      hkept r (h.linked q (hvisited ▸ hq) r hr), hvisited ▸ h.distinct, hvisited ▸ h.bounded⟩
    rw [hvisited, hrest.mem_iff] at hq
    exact hq.imp_left fun hq => (hold q).mpr (.inr hq)
  · have hkept (q : P) (hq : q ∈ w.pending ∨ q ∈ w.visited) : q ∈ w'.pending ∨ q ∈ w'.visited := by
      rw [hvisited, hrest.mem_iff, List.mem_append, List.mem_cons]
      obtain hq | hq := hq
      · obtain rfl | hq := (hold q).mp hq
        · exact .inr (.inl rfl)
        · exact .inl (.inr hq)
      · exact .inr (.inr hq)
    refine ⟨fun q hq => ?_, hkept _ h.started, fun q hq r hr => ?_, ?_, ?_⟩
    · rw [hvisited, hrest.mem_iff, List.mem_append, List.mem_cons] at hq
      obtain (hlink | hq) | rfl | hq := hq
      · exact hp.tail hlink
      · exact h.reached q (.inl ((hold q).mpr (.inr hq)))
      · exact hp
      · exact h.reached q (.inr hq)
    · rw [hvisited, List.mem_cons] at hq
      obtain rfl | hq := hq
      · rw [hrest.mem_iff]
        exact .inl (List.mem_append_left _ hr)
      · exact hkept r (h.linked q hq r hr)
    · rw [hvisited]
      exact List.nodup_cons.mpr ⟨hnew, h.distinct⟩
    · rw [hvisited]
      exact hbound

omit [DecidableEq P] in
/-- Where nothing is pending, all that can be reached has been visited. -/
theorem Inv.all_visited (h : Inv links bound start w) (hempty : w.pending = []) {p : P}
    (hp : Reach links start p) : p ∈ w.visited := by
  have hlisted (q : P) (hq : q ∈ w.pending ∨ q ∈ w.visited) : q ∈ w.visited := by
    rw [hempty] at hq
    exact hq.resolve_left List.not_mem_nil
  induction hp with
  | refl => exact hlisted start h.started
  | tail _ hlink ih => exact hlisted _ (h.linked _ ih _ hlink)

omit [DecidableEq P] in
/-- Where no more can be reached than the bound, exactly that has been visited in the end. -/
theorem Inv.visited_iff (h : Inv links bound start w) (hdone : Done bound w)
    (hbound : AtMost links start bound) (p : P) :
    p ∈ w.visited ↔ Reach links start p := by
  refine ⟨fun hp => h.reached p (.inr hp), fun hp => ?_⟩
  obtain hempty | hfull := hdone
  · exact h.all_visited hempty hp
  · obtain ⟨places, hplaces, hall⟩ := hbound
    have hsub : w.visited ⊆ places := fun q hq => hall q (h.reached q (.inr hq))
    have hperm := (h.distinct.subperm hsub).perm_of_length_le (Nat.le_trans hplaces hfull)
    exact hperm.mem_iff.mpr (hall p hp)

omit [DecidableEq P] in
/-- Where more can be reached than the bound, something is missed. -/
theorem Inv.missed (h : Inv links bound start w) (hbound : ¬AtMost links start bound) :
    ∃ p, Reach links start p ∧ p ∉ w.visited := by
  by_contra hall
  push Not at hall
  exact hbound ⟨w.visited, h.bounded, hall⟩

end Worklist
