import Mathlib.Data.List.Basic

/-! Lists in blocks of one length, and a rest that is shorter.

`cut` takes blocks from a list while there are any. Blocks and a rest are those of the list that they are
written one behind the other (`blocks_unique`), so whoever cuts a list piece by piece cuts it as a whole. -/
namespace Blocks
variable {α : Type}

/-- The blocks of a list, and what is left. -/
def cut (n : Nat) (xs : List α) : List (List α) × List α :=
  if 0 < n ∧ n ≤ xs.length then ((xs.take n :: (cut n (xs.drop n)).1), (cut n (xs.drop n)).2) else ([], xs)
termination_by xs.length
decreasing_by all_goals (simp only [List.length_drop]; omega)

/-- The blocks of a list and the rest of it. -/
structure IsCut (n : Nat) (blocks : List (List α)) (rest xs : List α) : Prop where
  joined : blocks.flatten ++ rest = xs
  length : ∀ block ∈ blocks, block.length = n
  short : rest.length < n

theorem isCut_cut {n : Nat} (hn : 0 < n) (xs : List α) : IsCut n (cut n xs).1 (cut n xs).2 xs := by
  fun_induction cut n xs with
  | case1 xs h ih =>
    refine ⟨?_, fun block hblock => ?_, ih.short⟩
    · rw [List.flatten_cons, List.append_assoc, ih.joined, List.take_append_drop]
    · obtain rfl | hrest := List.mem_cons.mp hblock
      · exact List.length_take_of_le h.2
      · exact ih.length block hrest
  | case2 xs h =>
    have hshort : xs.length < n := by omega
    exact ⟨rfl, nofun, hshort⟩

theorem IsCut.length_eq {n : Nat} {blocks : List (List α)} {rest xs : List α} (h : IsCut n blocks rest xs) :
    blocks.length * n + rest.length = xs.length := by
  rw [← h.joined, List.length_append, Nat.add_right_cancel_iff]
  have hlength := h.length
  clear h
  induction blocks with
  | nil => exact Nat.zero_mul n
  | cons block blocks ih =>
    rw [List.forall_mem_cons] at hlength
    rw [List.flatten_cons, List.length_append, ← ih hlength.2, hlength.1, List.length_cons, Nat.succ_mul, Nat.add_comm]

/-- More of the list is cut after what has been cut. -/
theorem IsCut.append {n : Nat} {blocks blocks' : List (List α)} {rest rest' xs more : List α}
    (h : IsCut n blocks rest xs)
    (h' : IsCut n blocks' rest' (rest ++ more)) : IsCut n (blocks ++ blocks') rest' (xs ++ more) where
  joined := by rw [List.flatten_append, List.append_assoc, h'.joined, ← List.append_assoc, h.joined]
  length block hblock := (List.mem_append.mp hblock).elim (h.length block) (h'.length block)
  short := h'.short

/-- A list is cut in one way. -/
theorem blocks_unique {n : Nat} {blocks blocks' : List (List α)} {rest rest' xs : List α} (h : IsCut n blocks rest xs)
    (h' : IsCut n blocks' rest' xs) : blocks = blocks' ∧ rest = rest' := by
  induction blocks generalizing blocks' xs with
  | nil =>
    cases blocks' with
    | nil => exact ⟨rfl, h.joined.trans h'.joined.symm⟩
    | cons block' _ =>
      have hlength := congrArg List.length (h.joined.trans h'.joined.symm)
      have hblock := h'.length block' List.mem_cons_self
      have hshort := h.short
      simp only [List.flatten_nil, List.nil_append, List.flatten_cons, List.length_append] at hlength
      omega
  | cons block blocks ih =>
    cases blocks' with
    | nil =>
      have hlength := congrArg List.length (h.joined.trans h'.joined.symm)
      have hblock := h.length block List.mem_cons_self
      have hshort := h'.short
      simp only [List.flatten_nil, List.nil_append, List.flatten_cons, List.length_append] at hlength
      omega
    | cons block' blocks' =>
      have hjoined := h.joined.trans h'.joined.symm
      have hlengths := (h.length block List.mem_cons_self).trans (h'.length block' List.mem_cons_self).symm
      rw [List.flatten_cons, List.flatten_cons, List.append_assoc, List.append_assoc] at hjoined
      obtain ⟨rfl, hrest⟩ := List.append_inj hjoined hlengths
      obtain ⟨rfl, rfl⟩ := ih ⟨rfl, fun b hb => h.length b (List.mem_cons_of_mem _ hb), h.short⟩
        ⟨hrest.symm, fun b hb => h'.length b (List.mem_cons_of_mem _ hb), h'.short⟩
      exact ⟨rfl, rfl⟩

end Blocks
