import Mathlib.Data.List.Basic
import Mathlib.Data.List.TakeDrop

/-! Lines of a text, as `str.splitlines` splits them.

A line ends after a line break, and `\r\n` is one break. A text that is cut between two lines splits into the
lines of its parts, and one that is cut elsewhere into one line less (`splitLines_append_iff`). -/
namespace Lines

/-- The characters that end a line. -/
def isBreak (c : Char) : Bool :=
  c == '\n' || c == '\r' || [0x0b, 0x0c, 0x1c, 0x1d, 0x1e, 0x85, 0x2028, 0x2029].contains c.toNat

/-- A line ends after `c` where `rest` follows. -/
def ends (c : Char) (rest : List Char) : Bool := isBreak c && !(c == '\r' && rest.head? == some '\n')

/-- A character more in the first line. -/
def prepend (c : Char) : List (List Char) → List (List Char)
  | [] => [[c]]
  | line :: lines => (c :: line) :: lines

/-- `text.splitlines(keepends=True)`. -/
def splitLines : List Char → List (List Char)
  | [] => []
  | c :: rest => if ends c rest then [c] :: splitLines rest else prepend c (splitLines rest)

/-- A line without its break, which is at its end. -/
def body (line : List Char) : List Char := line.takeWhile fun c => !isBreak c

/-- `text.splitlines()`. -/
def bodies (text : List Char) : List (List Char) := (splitLines text).map body

theorem splitLines_cons_of_ends {c : Char} {rest : List Char} (h : ends c rest = true) :
    splitLines (c :: rest) = [c] :: splitLines rest := by
  rw [splitLines, if_pos h]

theorem splitLines_cons_of_not_ends {c : Char} {rest : List Char} (h : ends c rest = false) :
    splitLines (c :: rest) = prepend c (splitLines rest) := by
  rw [splitLines, if_neg (Bool.eq_false_iff.mp h)]

theorem splitLines_eq_nil {text : List Char} : splitLines text = [] ↔ text = [] := by
  cases text with
  | nil => exact iff_of_true rfl rfl
  | cons c rest =>
    refine iff_of_false (fun h => ?_) (List.cons_ne_nil _ _)
    rw [splitLines] at h
    split at h
    · cases h
    · cases hrest : splitLines rest <;> rw [hrest] at h <;> cases h

theorem prepend_append {c : Char} {ls ms : List (List Char)} (h : ls ≠ []) :
    prepend c (ls ++ ms) = prepend c ls ++ ms := by
  cases ls with
  | nil => exact absurd rfl h
  | cons line lines => rfl

theorem flatten_prepend (c : Char) (ls : List (List Char)) : (prepend c ls).flatten = c :: ls.flatten := by
  cases ls <;> rfl

/-- The lines are the text. -/
theorem flatten_splitLines (text : List Char) : (splitLines text).flatten = text := by
  induction text with
  | nil => rfl
  | cons c rest ih =>
    cases h : ends c rest with
    | true => rw [splitLines_cons_of_ends h, List.flatten_cons, ih, List.singleton_append]
    | false => rw [splitLines_cons_of_not_ends h, flatten_prepend, ih]

theorem ends_append {c : Char} {a : List Char} (b : List Char) (h : a ≠ []) : ends c (a ++ b) = ends c a := by
  cases a with
  | nil => exact absurd rfl h
  | cons d rest => rfl

/-- Between two texts is the end of a line. -/
def Clean (a b : List Char) : Prop := ∀ c ∈ a.getLast?, b ≠ [] → ends c b = true

theorem Clean.of_cons {c : Char} {a b : List Char} (ha : a ≠ []) (h : Clean (c :: a) b) : Clean a b := by
  intro d hd
  refine h d ?_
  rwa [List.getLast?_cons_of_ne_nil ha]

/-- A text that is cut between two lines. -/
theorem splitLines_append {a b : List Char} (h : Clean a b) : splitLines (a ++ b) = splitLines a ++ splitLines b := by
  induction a with
  | nil => rfl
  | cons c rest ih =>
    by_cases hrest : rest = []
    · subst hrest
      by_cases hb : b = []
      · subst hb
        exact (congrArg splitLines (List.append_nil _)).trans (List.append_nil _).symm
      · have hends : ends c b = true := h c rfl hb
        rw [List.singleton_append, splitLines_cons_of_ends hends]
        cases hc : ends c [] with
        | true => rw [splitLines_cons_of_ends hc]; rfl
        | false => rw [splitLines_cons_of_not_ends hc]; rfl
    · have ih := ih (h.of_cons hrest)
      rw [List.cons_append]
      cases hc : ends c rest with
      | true =>
        rw [splitLines_cons_of_ends hc, splitLines_cons_of_ends ((ends_append b hrest).trans hc), ih]
        rfl
      | false =>
        rw [splitLines_cons_of_not_ends hc, splitLines_cons_of_not_ends ((ends_append b hrest).trans hc), ih,
          prepend_append (mt splitLines_eq_nil.mp hrest)]

theorem length_prepend {c : Char} {ls : List (List Char)} (h : ls ≠ []) : (prepend c ls).length = ls.length := by
  cases ls with
  | nil => exact absurd rfl h
  | cons line lines => rfl

/-- A text that is cut inside a line. -/
theorem length_splitLines_append {a b : List Char} {c : Char} (hlast : a.getLast? = some c)
    (hb : b ≠ []) (h : ends c b = false) :
    (splitLines (a ++ b)).length + 1 = (splitLines a).length + (splitLines b).length := by
  induction a with
  | nil => cases hlast
  | cons d rest ih =>
    by_cases hrest : rest = []
    · subst hrest
      obtain rfl : d = c := Option.some.inj hlast
      have hlone : (splitLines [d]).length = 1 := by
        cases hd : ends d [] with
        | true => rw [splitLines_cons_of_ends hd]; rfl
        | false => rw [splitLines_cons_of_not_ends hd]; rfl
      rw [hlone, List.singleton_append, splitLines_cons_of_not_ends h,
        length_prepend (mt splitLines_eq_nil.mp hb), Nat.add_comm]
    · rw [List.getLast?_cons_of_ne_nil hrest] at hlast
      have ih := ih hlast
      have hne : splitLines (rest ++ b) ≠ [] := fun h => hb (List.append_eq_nil_iff.mp (splitLines_eq_nil.mp h)).2
      rw [List.cons_append]
      cases hc : ends d rest with
      | true =>
        rw [splitLines_cons_of_ends hc, splitLines_cons_of_ends ((ends_append b hrest).trans hc),
          List.length_cons, List.length_cons]
        omega
      | false =>
        rw [splitLines_cons_of_not_ends hc,
          splitLines_cons_of_not_ends ((ends_append b hrest).trans hc), length_prepend hne,
          length_prepend (mt splitLines_eq_nil.mp hrest), ih]

theorem bodies_append {a b : List Char} (h : Clean a b) : bodies (a ++ b) = bodies a ++ bodies b := by
  rw [bodies, splitLines_append h, List.map_append]
  rfl

/-- The lines of a text are those of its parts exactly where it is cut between two lines. -/
theorem bodies_append_iff {a b : List Char} : bodies (a ++ b) = bodies a ++ bodies b ↔ Clean a b := by
  refine ⟨fun h c hc hb => ?_, bodies_append⟩
  by_contra hends
  have hlength := length_splitLines_append hc hb (Bool.eq_false_iff.mpr hends)
  have heq := congrArg List.length h
  simp only [bodies, List.length_map, List.length_append] at heq
  omega

/-- The first lines of a text split into themselves. -/
theorem splitLines_take (text : List Char) (k : Nat) :
    splitLines ((splitLines text).take k).flatten = (splitLines text).take k := by
  induction text generalizing k with
  | nil => rw [splitLines, List.take_nil]; rfl
  | cons c rest ih =>
    cases k with
    | zero => rfl
    | succ k =>
      -- What is kept of the rest begins as the rest does.
      have hhead (n : Nat) : ((splitLines rest).take n).flatten = [] ∨
          ((splitLines rest).take n).flatten.head? = rest.head? := by
        by_cases hempty : ((splitLines rest).take n).flatten = []
        · exact .inl hempty
        · refine .inr ?_
          have hcut : ((splitLines rest).take n).flatten ++ ((splitLines rest).drop n).flatten = rest := by
            rw [← List.flatten_append, List.take_append_drop, flatten_splitLines]
          conv => rhs; rw [← hcut]
          rw [List.head?_append_of_ne_nil _ hempty]
      cases hends : ends c rest with
      | true =>
        rw [splitLines_cons_of_ends hends, List.take_succ_cons, List.flatten_cons, List.singleton_append]
        have hends' : ends c ((splitLines rest).take k).flatten = true := by
          obtain hempty | hsame := hhead k
          · rw [hempty]
            simp only [ends, Bool.and_eq_true] at hends ⊢
            exact ⟨hends.1, by simp⟩
          · rw [ends, hsame]
            exact hends
        rw [splitLines_cons_of_ends hends', ih]
      | false =>
        rw [splitLines_cons_of_not_ends hends]
        by_cases hrest : rest = []
        · subst hrest
          rw [splitLines, prepend, List.take_succ_cons, List.take_nil]
          show splitLines [c] = [[c]]
          rw [splitLines_cons_of_not_ends hends]
          rfl
        · obtain ⟨line, lines, hlines⟩ := List.exists_cons_of_ne_nil (mt splitLines_eq_nil.mp hrest)
          have htake : (prepend c (splitLines rest)).take (k + 1) = prepend c ((splitLines rest).take (k + 1)) := by
            rw [hlines]
            rfl
          rw [htake, flatten_prepend]
          have hends' : ends c ((splitLines rest).take (k + 1)).flatten = false := by
            obtain hempty | hsame := hhead (k + 1)
            · have hline := ih (k + 1)
              rw [hempty, hlines] at hline
              cases hline
            · rw [ends, hsame]
              exact hends
          rw [splitLines_cons_of_not_ends hends', ih]

/-- The last lines of a text split into themselves. -/
theorem splitLines_drop (text : List Char) (k : Nat) :
    splitLines ((splitLines text).drop k).flatten = (splitLines text).drop k := by
  induction text generalizing k with
  | nil => rw [splitLines, List.drop_nil]; rfl
  | cons c rest ih =>
    cases k with
    | zero => rw [List.drop_zero, flatten_splitLines]
    | succ k =>
      cases hends : ends c rest with
      | true => rw [splitLines_cons_of_ends hends, List.drop_succ_cons, ih]
      | false =>
        have hdrop : (prepend c (splitLines rest)).drop (k + 1) = (splitLines rest).drop (k + 1) := by
          cases splitLines rest with
          | nil => rw [prepend, List.drop_succ_cons, List.drop_nil, List.drop_nil]
          | cons line lines => rfl
        rw [splitLines_cons_of_not_ends hends, hdrop, ih]

/-- A text is cut between two lines after its first lines. -/
theorem clean_take (text : List Char) (k : Nat) :
    Clean ((splitLines text).take k).flatten ((splitLines text).drop k).flatten := by
  rw [← bodies_append_iff, ← List.flatten_append, List.take_append_drop, flatten_splitLines, bodies,
    bodies, bodies, splitLines_take, splitLines_drop,
    ← List.map_append, List.take_append_drop]

/-! ### A break that grows -/

theorem body_cons (c : Char) (line : List Char) : body (c :: line) = if isBreak c then [] else c :: body line := by
  rw [body, List.takeWhile_cons]
  cases isBreak c <;> rfl

theorem map_body_prepend {c : Char} {ls ms : List (List Char)} (h : ls.map body = ms.map body) :
    (prepend c ls).map body = (prepend c ms).map body := by
  cases ls with
  | nil => rw [List.map_eq_nil_iff.mp h.symm]
  | cons line lines =>
    cases ms with
    | nil => cases h
    | cons line' lines' =>
      obtain ⟨hline, hlines⟩ := List.cons.inj h
      rw [prepend, prepend, List.map_cons, List.map_cons, body_cons, body_cons, hline, hlines]

/-- A `\n` after a last `\r` belongs to its break. -/
theorem bodies_append_newline {a : List Char} (h : a.getLast? = some '\r') : bodies (a ++ ['\n']) = bodies a := by
  induction a with
  | nil => cases h
  | cons c rest ih =>
    by_cases hrest : rest = []
    · subst hrest
      obtain rfl : c = '\r' := Option.some.inj h
      rfl
    · rw [List.getLast?_cons_of_ne_nil hrest] at h
      have ih := ih h
      unfold bodies at ih ⊢
      rw [List.cons_append]
      cases hc : ends c rest with
      | true =>
        rw [splitLines_cons_of_ends hc, splitLines_cons_of_ends ((ends_append _ hrest).trans hc),
          List.map_cons, List.map_cons, ih]
      | false =>
        rw [splitLines_cons_of_not_ends hc, splitLines_cons_of_not_ends ((ends_append _ hrest).trans hc)]
        exact map_body_prepend ih

/-- Whatever follows the first lines of a text, they stay. -/
theorem take_bodies_append (text x : List Char) {k : Nat} (hk : k < (splitLines text).length) :
    (bodies (((splitLines text).take k).flatten ++ x)).take k = (bodies text).take k := by
  have hfirst : bodies ((splitLines text).take k).flatten = (bodies text).take k := by
    rw [bodies, splitLines_take, List.map_take]
    rfl
  have hlength : (bodies ((splitLines text).take k).flatten).length = k := by
    rw [hfirst, List.length_take, bodies, List.length_map, Nat.min_eq_left (Nat.le_of_lt hk)]
  by_cases hclean : Clean ((splitLines text).take k).flatten x
  · rw [bodies_append hclean, List.take_left' hlength, hfirst]
  · -- The last line of them ends with a `\r`, which a `\n` of `x` joins.
    simp only [Clean, not_forall] at hclean
    obtain ⟨c, hc, hx, hends⟩ := hclean
    have hrest : ((splitLines text).drop k).flatten ≠ [] := by
      rw [Ne, ← splitLines_eq_nil, splitLines_drop, List.drop_eq_nil_iff]
      omega
    have hbreak := clean_take text k c hc hrest
    obtain ⟨hbreak, -⟩ := Bool.and_eq_true_iff.mp hbreak
    simp only [ends, hbreak, Bool.true_and, Bool.not_eq_true', Bool.not_eq_false, Bool.and_eq_true, beq_iff_eq] at hends
    obtain ⟨rfl, hhead⟩ := hends
    obtain ⟨d, y, rfl⟩ := List.exists_cons_of_ne_nil hx
    obtain rfl : d = '\n' := Option.some.inj hhead
    have hclean : Clean (((splitLines text).take k).flatten ++ ['\n']) y := by
      intro d hd _
      rw [List.getLast?_concat] at hd
      obtain rfl : '\n' = d := Option.some.inj hd
      rfl
    rw [List.append_cons, bodies_append hclean, bodies_append_newline hc, List.take_left' hlength, hfirst]

end Lines
