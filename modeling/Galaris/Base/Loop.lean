import Mathlib.Init

/-! Loops.

A loop runs its body for as long as it can (`repeated`). What the body preserves the loop preserves
(`repeated_invariant`), also where only states that are not marked count (`repeated_unmarked`,
`repeated_marked`); a measure that the body decreases is enough fuel (`repeated_ends`). -/
namespace Loop

universe u
variable {α : Type u} {body : α → Option α}

/-- The loop, at most so many times. -/
def repeated (body : α → Option α) : Nat → α → α
  | 0, a => a
  | fuel + 1, a =>
    match body a with
    | none => a
    | some b => repeated body fuel b

/-- The loop comes by a state that is marked, before it ends. -/
def meets (body : α → Option α) (marked : α → Bool) : Nat → α → Bool
  | 0, _ => false
  | fuel + 1, a =>
    match body a with
    | none => false
    | some b => marked a || meets body marked fuel b

/-- What the body preserves, the loop preserves. -/
theorem repeated_invariant {P : α → Prop} (preserved : ∀ a b, P a → body a = some b → P b)
    (fuel : Nat) {a : α} (ha : P a) :
    P (repeated body fuel a) := by
  induction fuel generalizing a with
  | zero => exact ha
  | succ fuel ih =>
    unfold repeated
    split
    case h_1 => exact ha
    case h_2 b hb => exact ih (preserved a b ha hb)

/-- What the body preserves in states that are not marked, a loop preserves that comes by none. -/
theorem repeated_unmarked {P : α → Prop} {marked : α → Bool}
    (preserved : ∀ a b, P a → marked a = false → body a = some b → P b) (fuel : Nat) {a : α}
    (hmeets : meets body marked fuel a = false) (ha : P a) : P (repeated body fuel a) := by
  induction fuel generalizing a with
  | zero => exact ha
  | succ fuel ih =>
    unfold repeated
    unfold meets at hmeets
    split
    case h_1 => exact ha
    case h_2 b hb =>
      rw [hb] at hmeets
      obtain ⟨hmarked, hrest⟩ := Bool.or_eq_false_iff.mp hmeets
      exact ih hrest (preserved a b ha hmarked hb)

/-- A loop that comes by a marked state goes on from there. -/
theorem repeated_marked {P : α → Prop} {marked : α → Bool}
    (preserved : ∀ a b, P a → body a = some b → P b) (fuel : Nat) {a : α}
    (hmeets : meets body marked fuel a = true) (ha : P a) :
    ∃ b c fuel', P b ∧ marked b = true ∧ body b = some c ∧ repeated body fuel a = repeated body fuel' c := by
  induction fuel generalizing a with
  | zero => cases hmeets
  | succ fuel ih =>
    unfold meets at hmeets
    cases hb : body a with
    | none =>
      rw [hb] at hmeets
      cases hmeets
    | some b =>
      rw [hb] at hmeets
      have hnext : repeated body (fuel + 1) a = repeated body fuel b := by
        rw [repeated, hb]
      rw [hnext]
      obtain hmarked | hrest := Bool.or_eq_true_iff.mp hmeets
      · exact ⟨a, b, fuel, ha, hmarked, hb, rfl⟩
      · exact ih hrest (preserved a b ha hb)

/-- A measure that decreases is enough fuel for the loop to end. -/
theorem repeated_ends (size : α → Nat) (decreases : ∀ a b, body a = some b → size b < size a) {fuel : Nat} {a : α}
    (hfuel : size a ≤ fuel) : body (repeated body fuel a) = none := by
  induction fuel generalizing a with
  | zero =>
    cases hb : body a with
    | none => exact hb
    | some b => exact absurd (decreases a b hb) (by omega)
  | succ fuel ih =>
    unfold repeated
    split
    case h_1 hb => exact hb
    case h_2 b hb =>
      have hless := decreases a b hb
      exact ih (by omega)

/-- A loop that cannot go on stays. -/
theorem repeated_none (fuel : Nat) {a : α} (ha : body a = none) : repeated body fuel a = a := by
  cases fuel with
  | zero => rfl
  | succ fuel =>
    unfold repeated
    rw [ha]

end Loop
