import Mathlib.Data.List.DropRight
import Mathlib.Data.List.Infix

/-! Repetition at the end of a list.

A list ends with `n` copies of a block when it agrees with itself, shifted by the length of the block, over
the last `n` blocks. Whether it does is decided by a window of its last elements, and a repetition that is
anywhere in a list ends one of its beginnings: so who checks the end at every step over a bounded window
misses none. -/
namespace Repetition

universe u
variable {α : Type u} {l block : List α} {n size : Nat}

/-- `n` copies of a block. -/
def copies (n : Nat) (block : List α) : List α := (List.replicate n block).flatten

theorem copies_zero (block : List α) : copies 0 block = [] := rfl

theorem copies_succ (n : Nat) (block : List α) : copies (n + 1) block = block ++ copies n block := by
  rw [copies, List.replicate_succ, List.flatten_cons, copies]

theorem copies_succ' (n : Nat) (block : List α) : copies (n + 1) block = copies n block ++ block := by
  rw [copies, List.replicate_succ', List.flatten_concat, copies]

theorem length_copies (n : Nat) (block : List α) : (copies n block).length = n * block.length := by
  induction n with
  | zero => rw [copies_zero, Nat.zero_mul, List.length_nil]
  | succ n ih => rw [copies_succ, List.length_append, ih, Nat.succ_mul, Nat.add_comm]

theorem mem_copies {a : α} (h : a ∈ copies n block) : a ∈ block := by
  obtain ⟨block', hblock, ha⟩ := List.mem_flatten.mp h
  exact List.eq_of_mem_replicate hblock ▸ ha

/-- A list that agrees with itself, shifted by `size`, is made of copies of its end. -/
theorem eq_copies (hlength : l.length = (n + 1) * size) (hshift : l.take (n * size) = l.drop size) :
    l = copies (n + 1) (l.drop (n * size)) := by
  induction n generalizing l with
  | zero => rw [Nat.zero_mul, List.drop_zero, copies_succ, copies_zero, List.append_nil]
  | succ n ih =>
    have hlength' : (l.drop size).length = (n + 1) * size := by
      rw [List.length_drop, hlength, Nat.succ_mul, Nat.add_sub_cancel]
    have hshift' : (l.drop size).take (n * size) = (l.drop size).drop size := by
      rw [← hshift, List.drop_take, ← Nat.sub_one_mul, Nat.add_sub_cancel, hshift]
    have hrest := ih hlength' hshift'
    have hend : (l.drop size).drop (n * size) = l.drop ((n + 1) * size) := by
      rw [List.drop_drop, Nat.succ_mul, Nat.add_comm]
    rw [hend] at hrest
    -- The first block is the first block of the rest.
    have hfirst : l.take size = l.drop ((n + 1) * size) := by
      have hblock : (l.drop ((n + 1) * size)).length = size := by
        rw [List.length_drop, hlength, ← Nat.sub_mul, Nat.add_sub_cancel_left, Nat.one_mul]
      have htake : l.take size = (l.take ((n + 1) * size)).take size := by
        rw [List.take_take, Nat.min_eq_left (Nat.le_mul_of_pos_left size n.succ_pos)]
      rw [htake, hshift, hrest, copies_succ]
      exact List.take_left' hblock
    calc l = l.take size ++ l.drop size := (List.take_append_drop size l).symm
      _ = l.drop ((n + 1) * size) ++ copies (n + 1) (l.drop ((n + 1) * size)) := by rw [hfirst, ← hrest]
      _ = copies (n + 1 + 1) (l.drop ((n + 1) * size)) := (copies_succ ..).symm

/-- A list ends with copies of its last block where it agrees with itself, shifted by that block. -/
theorem suffix_copies_iff (hle : (n + 1) * size ≤ l.length) :
    copies (n + 1) (l.rtake size) <:+ l ↔
      ∀ i, l.length - (n + 1) * size ≤ i → i < l.length - size → l[i]? = l[i + size]? := by
  have hsize : size ≤ l.length := (Nat.le_mul_of_pos_left size n.succ_pos).trans hle
  have hblock : (l.rtake size).length = size := by rw [List.rtake, List.length_drop]; omega
  have hstart : l.length - ((n + 1) * size) + n * size = l.length - size := by rw [Nat.succ_mul] at hle ⊢; omega
  have hsuffix : copies (n + 1) (l.rtake size) <:+ l ↔
      copies (n + 1) (l.rtake size) = l.drop (l.length - (n + 1) * size) := by
    rw [List.suffix_iff_eq_drop, length_copies, hblock]
  have hend : (l.drop (l.length - (n + 1) * size)).drop (n * size) = l.rtake size := by
    rw [List.drop_drop, hstart, List.rtake]
  have hlength : (l.drop (l.length - (n + 1) * size)).length = (n + 1) * size := by rw [List.length_drop]; omega
  rw [hsuffix]
  constructor
  · intro heq i hge hlt
    obtain ⟨k, rfl⟩ := Nat.exists_eq_add_of_le hge
    have hk : k < n * size := by omega
    have hat : ∀ j, l[l.length - (n + 1) * size + j]? = (copies (n + 1) (l.rtake size))[j]? :=
        fun j => by rw [heq, List.getElem?_drop]
    rw [Nat.add_assoc, hat, hat]
    calc (copies (n + 1) (l.rtake size))[k]? = (copies n (l.rtake size))[k]? := by
          rw [copies_succ', List.getElem?_append_left (by rw [length_copies, hblock]; exact hk)]
      _ = (copies (n + 1) (l.rtake size))[k + size]? := by
          rw [copies_succ, List.getElem?_append_right (by omega), hblock, Nat.add_sub_cancel]
  · intro hsame
    rw [← hend]
    refine (eq_copies hlength (List.ext_getElem? fun k => ?_)).symm
    rw [List.getElem?_drop, List.getElem?_drop]
    by_cases hk : k < n * size
    · rw [List.getElem?_take_of_lt hk, List.getElem?_drop, hsame _ (Nat.le_add_right ..) (by omega)]
      congr 1
      omega
    · rw [List.getElem?_take_eq_none (Nat.not_lt.mp hk), List.getElem?_eq_none (by omega)]

/-- A window of the last elements decides about an end that is not longer. -/
theorem suffix_rtake_iff {s : List α} (h : s.length ≤ n) : s <:+ l.rtake n ↔ s <:+ l := by
  refine ⟨fun hs => hs.trans (List.drop_suffix _ l), fun hs => ?_⟩
  refine List.suffix_of_suffix_length_le hs (List.drop_suffix _ l) ?_
  have hle := hs.length_le
  rw [List.rtake, List.length_drop]
  omega

theorem length_rtake (l : List α) : (l.rtake n).length = min n l.length := by
  rw [List.rtake, List.length_drop]
  omega

/-- The window after one more element. -/
theorem rtake_concat (l : List α) (a : α) : (l.rtake n ++ [a]).rtake n = (l ++ [a]).rtake n := by
  have hsuffix : (l.rtake n ++ [a]).rtake n <:+ l ++ [a] := by
    obtain ⟨front, hfront⟩ : l.rtake n <:+ l := List.drop_suffix _ l
    exact (List.drop_suffix _ _).trans ⟨front, by rw [← List.append_assoc, hfront]⟩
  have hlength : ((l.rtake n ++ [a]).rtake n).length = ((l ++ [a]).rtake n).length := by
    rw [length_rtake, length_rtake, List.length_append, List.length_append, length_rtake, List.length_singleton]
    omega
  exact (List.suffix_of_suffix_length_le hsuffix (List.drop_suffix _ _) (Nat.le_of_eq hlength)).eq_of_length hlength

end Repetition
