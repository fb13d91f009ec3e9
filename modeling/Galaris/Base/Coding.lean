import Mathlib.Data.Countable.Basic
import Mathlib.Data.List.Nodup
import Mathlib.Data.Char
import Mathlib.Logic.Equiv.List
import Mathlib.Data.String.Basic

/-! Texts for the values of a countable type: given ones for some values, and for every
other value one of its own. -/
namespace Coding
variable {α : Type} [Countable α]

/-- Some numbering of the values. -/
noncomputable def index (x : α) : Nat := (Countable.exists_injective_nat α).choose x

theorem index_injective : Function.Injective (index : α → Nat) := (Countable.exists_injective_nat α).choose_spec

open Classical in
/-- The given text of a value, and a text of its own for any other value. -/
noncomputable def text (texts : List (α × String)) (x : α) : String :=
  match texts.find? fun entry => entry.1 = x with
  | some entry => entry.2
  | none => String.ofList (List.replicate (index x + 1) 'x')

/-- The given texts are distinct, and apart from the others. -/
structure Distinct (texts : List (α × String)) : Prop where
  nodup : (texts.map (·.2)).Nodup
  apart : ∀ entry ∈ texts, entry.2.toList.head? ≠ some 'x'

theorem text_cases (texts : List (α × String)) (x : α) :
    (x, text texts x) ∈ texts ∨ text texts x = String.ofList (List.replicate (index x + 1) 'x') := by
  classical
  unfold text
  split
  · next entry hfind =>
    have hkey : entry.1 = x := by simpa using List.find?_some hfind
    exact .inl (hkey ▸ List.mem_of_find?_eq_some hfind)
  · exact .inr rfl

theorem text_injective {texts : List (α × String)} (h : Distinct texts) : Function.Injective (text texts) := by
  have hmixed {x y : α} (hx : (x, text texts x) ∈ texts)
      (hy : text texts y = String.ofList (List.replicate (index y + 1) 'x')) (heq : text texts x = text texts y) :
      x = y := by
    refine absurd ?_ (h.apart _ hx)
    simp [heq, hy, List.replicate_succ]
  intro x y heq
  rcases text_cases texts x with hx | hx
  · rcases text_cases texts y with hy | hy
    · have hentry := List.inj_on_of_nodup_map h.nodup hx hy heq
      exact congrArg Prod.fst hentry
    · exact hmixed hx hy heq
  · rcases text_cases texts y with hy | hy
    · exact (hmixed hy hx heq.symm).symm
    · rw [hx, hy] at heq
      have hlength := congrArg String.length heq
      simp at hlength
      exact index_injective hlength

theorem text_ne_empty {texts : List (α × String)} (h : ∀ entry ∈ texts, entry.2 ≠ "") (x : α) : text texts x ≠ "" := by
  rcases text_cases texts x with hx | hx
  · exact h _ hx
  · intro hempty
    have hlength := congrArg String.length (hx.symm.trans hempty)
    simp at hlength

theorem text_of_mem {texts : List (α × String)} (hkeys : (texts.map (·.1)).Nodup) {entry : α × String}
    (hentry : entry ∈ texts) : text texts entry.1 = entry.2 := by
  classical
  unfold text
  split
  · next found hfind =>
    have hkey : found.1 = entry.1 := by simpa using List.find?_some hfind
    exact congrArg Prod.snd (List.inj_on_of_nodup_map hkeys (List.mem_of_find?_eq_some hfind) hentry hkey)
  · next hfind => simpa using List.find?_eq_none.mp hfind entry hentry

instance countable_char : Countable Char :=
    Function.Injective.countable fun c d (h : c.toNat = d.toNat) => Char.toNat_inj.mp h

instance countable_string : Countable String :=
    Function.Injective.countable fun s t (h : s.toList = t.toList) => String.toList_injective h

end Coding
