import Galaris.Base.Coding
import Galaris.Process.Values
import Mathlib.Data.Nat.Pairing
import Mathlib.Data.Rat.Encodable

/-! JSON values can be numbered. -/
namespace Galaris.Process

open Coding

mutual

noncomputable def Json.numbered : Json → Nat
  | .null => Nat.pair 0 0
  | .bool b => Nat.pair 1 (index b)
  | .int n => Nat.pair 2 (index n)
  | .float x => Nat.pair 3 (index x)
  | .str s => Nat.pair 4 (index s)
  | .arr items => Nat.pair 5 (Json.numberedItems items)
  | .obj entries => Nat.pair 6 (Json.numberedEntries entries)

noncomputable def Json.numberedItems : List Json → Nat
  | [] => 0
  | x :: xs => Nat.pair x.numbered (Json.numberedItems xs) + 1

noncomputable def Json.numberedEntries : List (String × Json) → Nat
  | [] => 0
  | (key, x) :: xs => Nat.pair (index key) (Nat.pair x.numbered (Json.numberedEntries xs)) + 1

end

mutual

theorem Json.numbered_inj : ∀ {x y : Json}, x.numbered = y.numbered → x = y
  | .arr xs, y, h => by
    cases y <;> simp only [Json.numbered, Nat.pair_eq_pair, reduceCtorEq, Nat.reduceEqDiff, false_and, true_and] at h
    rw [Json.numberedItems_inj h]
  | .obj xs, y, h => by
    cases y <;> simp only [Json.numbered, Nat.pair_eq_pair, reduceCtorEq, Nat.reduceEqDiff, false_and, true_and] at h
    rw [Json.numberedEntries_inj h]
  | .null, y, h => by cases y <;> simp [Json.numbered] at h ⊢
  | .bool b, y, h => by cases y <;> simp [Json.numbered, index_injective.eq_iff] at h ⊢; exact h
  | .int n, y, h => by cases y <;> simp [Json.numbered, index_injective.eq_iff] at h ⊢; exact h
  | .float q, y, h => by cases y <;> simp [Json.numbered, index_injective.eq_iff] at h ⊢; exact h
  | .str s, y, h => by cases y <;> simp [Json.numbered, index_injective.eq_iff] at h ⊢; exact h

theorem Json.numberedItems_inj : ∀ {xs ys : List Json}, Json.numberedItems xs = Json.numberedItems ys → xs = ys
  | [], [], _ => rfl
  | [], y :: ys, h => by simp [Json.numberedItems] at h
  | x :: xs, [], h => by simp [Json.numberedItems] at h
  | x :: xs, y :: ys, h => by
    simp only [Json.numberedItems, Nat.add_right_cancel_iff, Nat.pair_eq_pair] at h
    rw [Json.numbered_inj h.1, Json.numberedItems_inj h.2]

theorem Json.numberedEntries_inj : ∀ {xs ys : List (String × Json)},
    Json.numberedEntries xs = Json.numberedEntries ys → xs = ys
  | [], [], _ => rfl
  | [], (k, y) :: ys, h => by simp [Json.numberedEntries] at h
  | (j, x) :: xs, [], h => by simp [Json.numberedEntries] at h
  | (j, x) :: xs, (k, y) :: ys, h => by
    simp only [Json.numberedEntries, Nat.add_right_cancel_iff, Nat.pair_eq_pair] at h
    rw [index_injective h.1, Json.numbered_inj h.2.1, Json.numberedEntries_inj h.2.2]

end

instance : Countable Json := Function.Injective.countable fun _ _ h => Json.numbered_inj h

end Galaris.Process
