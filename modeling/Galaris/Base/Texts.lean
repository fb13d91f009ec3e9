import Galaris.Base.Lines
import Mathlib.Data.List.Basic
import Mathlib.Data.List.TakeWhile

/-! Texts as lists of characters: what Python's `str` and `re` do with white space, words and what stands between
two marks. -/
namespace Texts

/-- `str.isspace`, of one code point; `\s` of `re` means the same. -/
def isSpaceCode (c : Nat) : Bool :=
  [9, 10, 11, 12, 13, 28, 29, 30, 31, 32, 0x85, 0xA0, 0x1680, 0x2028, 0x2029, 0x202F, 0x205F, 0x3000].contains c ||
    (0x2000 ≤ c && c ≤ 0x200A)

/-- `str.isspace`, of one character. -/
def isSpace (c : Char) : Bool := isSpaceCode c.toNat

/-- `str.strip`, of these characters. -/
def stripOf {α : Type} (p : α → Bool) (text : List α) : List α := ((text.dropWhile p).reverse.dropWhile p).reverse

/-- `str.strip`. -/
def strip (text : List Char) : List Char := stripOf isSpace text

/-- `str.strip`, of a string. -/
def stripString (s : String) : String := String.ofList (strip s.toList)

/-- `str.split`: the words between white space. -/
def words (text : List Char) : List (List Char) := (text.splitOnP isSpace).filter (· ≠ [])

example : words "a bc\n d".toList = ["a".toList, "bc".toList, "d".toList] := by decide

/-- What stands before a mark the first time, and what stands after it. -/
def cutAt (mark : List Char) : List Char → Option (List Char × List Char)
  | [] => if mark = [] then some ([], []) else none
  | c :: rest =>
    if mark.isPrefixOf (c :: rest) then some ([], (c :: rest).drop mark.length)
    else (cutAt mark rest).map fun (before, after) => (c :: before, after)

/-- `mark in text`. -/
def occurs (mark text : List Char) : Bool := (cutAt mark text).isSome

/-- `text.removeprefix(mark)`. -/
def removeStart (mark text : List Char) : List Char := if mark.isPrefixOf text then text.drop mark.length else text

/-- `text.removesuffix(mark)`. -/
def removeEnd (mark text : List Char) : List Char :=
    if mark.isSuffixOf text then text.take (text.length - mark.length) else text

/-- `text.partition(mark)[2]`. -/
def afterFirst (mark text : List Char) : List Char := ((cutAt mark text).map (·.2)).getD []

/-- `re.sub` of what stands between the marks, with them; `spaces` tells whether white space after them goes
too. Each turn takes one place. -/
def subBetween (opening closing : List Char) (replacement : List Char → List Char) (spaces : Bool) :
    Nat → List Char → List Char
  | 0, text => text
  | fuel + 1, text =>
    match cutAt opening text with
    | none => text
    | some (before, after) =>
      match cutAt closing after with
      | none => text
      | some (inner, rest) =>
        before ++ replacement inner ++ subBetween opening closing replacement spaces fuel
          (if spaces then rest.dropWhile isSpace else rest)

/-- `re.finditer` of what stands between the marks. -/
def between (opening closing : List Char) : Nat → List Char → List (List Char)
  | 0, _ => []
  | fuel + 1, text =>
    match cutAt opening text with
    | none => []
    | some (_, after) =>
      match cutAt closing after with
      | none => []
      | some (inner, rest) => inner :: between opening closing fuel rest

/-! ### Words -/

theorem words_nil : words [] = [] := rfl

/-- Words do not go on behind white space. -/
theorem words_append {c : Char} (hc : isSpace c = true) (a b : List Char) :
    words (a ++ c :: b) = words a ++ words b := by
  rw [words, List.splitOnP_append_cons a b hc, List.filter_append]
  rfl

theorem words_cons {c : Char} (hc : isSpace c = true) (text : List Char) :
    words (c :: text) = words text := words_append hc [] text

theorem words_of_spaces {text : List Char} (h : ∀ c ∈ text, isSpace c = true) : words text = [] := by
  induction text with
  | nil => rfl
  | cons c text ih => rw [words_cons (h c (.head _)), ih fun d hd => h d (.tail _ hd)]

theorem words_word {word : List Char} (hne : word ≠ []) (h : ∀ c ∈ word, isSpace c = false) : words word = [word] := by
  rw [words, List.splitOnP_eq_singleton h, List.filter_cons, if_pos (decide_eq_true hne)]
  rfl

theorem spaces_append_words {a b : List Char} (ha : ∀ c ∈ a, isSpace c = true) : words (a ++ b) = words b := by
  induction a with
  | nil => rfl
  | cons c a ih => rw [List.cons_append, words_cons (ha c (.head _)), ih fun d hd => ha d (.tail _ hd)]

theorem words_append_spaces {a b : List Char} (hb : ∀ c ∈ b, isSpace c = true) : words (a ++ b) = words a := by
  cases b with
  | nil => rw [List.append_nil]
  | cons c b => rw [words_append (hb c (.head _)), words_of_spaces fun d hd => hb d (.tail _ hd), List.append_nil]

/-- A text is white space, its strip, and white space. -/
theorem exists_strip (text : List Char) :
    ∃ a b, text = a ++ strip text ++ b ∧ (∀ c ∈ a, isSpace c = true) ∧ ∀ c ∈ b, isSpace c = true := by
  refine ⟨text.takeWhile isSpace, ((text.dropWhile isSpace).reverse.takeWhile isSpace).reverse, ?_,
    fun c hc => List.mem_takeWhile_imp hc, fun c hc => ?_⟩
  · rw [strip, stripOf, List.append_assoc, ← List.reverse_append, List.takeWhile_append_dropWhile,
      List.reverse_reverse, List.takeWhile_append_dropWhile]
  · exact List.mem_takeWhile_imp (List.mem_reverse.mp hc)

theorem words_strip (text : List Char) : words (strip text) = words text := by
  obtain ⟨a, b, htext, ha, hb⟩ := exists_strip text
  calc words (strip text) = words (a ++ strip text) := (spaces_append_words ha).symm
    _ = words (a ++ strip text ++ b) := (words_append_spaces hb).symm
    _ = words text := by rw [← htext]

/-- The pieces between white space have none. -/
theorem not_space_of_mem_splitOnP {text piece : List Char} (h : piece ∈ text.splitOnP isSpace) :
    ∀ c ∈ piece, isSpace c = false := by
  induction text generalizing piece with
  | nil =>
    obtain rfl := List.mem_singleton.mp h
    exact nofun
  | cons c text ih =>
    rw [List.splitOnP_cons_eq_if_modifyHead] at h
    split at h
    case isTrue =>
      obtain rfl | h := List.mem_cons.mp h
      · exact nofun
      · exact ih h
    case isFalse hc =>
      obtain ⟨first, rest, hsplit⟩ := List.exists_cons_of_ne_nil (List.splitOnP_ne_nil isSpace text)
      rw [hsplit, List.modifyHead_cons] at h
      obtain rfl | h := List.mem_cons.mp h
      · intro d hd
        obtain rfl | hd := List.mem_cons.mp hd
        · exact Bool.eq_false_iff.mpr hc
        · exact ih (by rw [hsplit]; exact .head _) d hd
      · exact ih (by rw [hsplit]; exact .tail _ h)

/-- A word is one word. -/
theorem words_mem {text word : List Char} (h : word ∈ words text) : words word = [word] := by
  obtain ⟨hpiece, hne⟩ := List.mem_filter.mp h
  exact words_word (of_decide_eq_true hne) (not_space_of_mem_splitOnP hpiece)

theorem flatMap_words {ws : List (List Char)} {text : List Char}
    (h : ∀ word ∈ ws, word ∈ words text) : ws.flatMap words = ws := by
  induction ws with
  | nil => rfl
  | cons word ws ih =>
    rw [List.flatMap_cons, words_mem (h word (.head _)), ih fun w hw => h w (.tail _ hw)]
    rfl

/-- A text without words is white space. -/
theorem spaces_of_words {text : List Char} (h : words text = []) : ∀ c ∈ text, isSpace c = true := by
  induction text with
  | nil => exact nofun
  | cons c text ih =>
    cases hc : isSpace c with
    | true =>
      rw [words_cons hc] at h
      intro d hd
      obtain rfl | hd := List.mem_cons.mp hd
      · exact hc
      · exact ih h d hd
    | false =>
      obtain ⟨first, rest, hsplit⟩ := List.exists_cons_of_ne_nil (List.splitOnP_ne_nil isSpace text)
      rw [words, List.splitOnP_cons_eq_if_modifyHead, if_neg (by rw [hc]; exact Bool.false_ne_true),
        hsplit, List.modifyHead_cons, List.filter_cons,
        if_pos (decide_eq_true (List.cons_ne_nil _ _))] at h
      cases h

theorem words_ne_nil {text : List Char} (h : strip text ≠ []) : words text ≠ [] := by
  intro hwords
  have hspaces := spaces_of_words hwords
  rw [strip, stripOf, List.dropWhile_eq_nil_iff.mpr hspaces] at h
  exact h rfl

theorem words_intercalate {c : Char} (hc : isSpace c = true) (texts : List (List Char)) :
    words ([c].intercalate texts) = texts.flatMap words := by
  induction texts with
  | nil => rfl
  | cons text texts ih =>
    cases texts with
    | nil => simp [List.intercalate_singleton]
    | cons text' texts =>
      rw [List.intercalate_cons_cons, List.append_assoc, List.singleton_append, words_append hc, ih]
      rfl

/-! ### Lines -/

theorem isSpace_of_isBreak {c : Char} (h : Lines.isBreak c = true) : isSpace c = true := by
  simp only [Lines.isBreak, isSpace, isSpaceCode, Bool.or_eq_true, beq_iff_eq] at h ⊢
  obtain (rfl | rfl) | h := h
  · exact .inl rfl
  · exact .inl rfl
  · left
    simp only [List.contains_eq_mem, List.mem_cons, List.not_mem_nil, or_false, decide_eq_true_eq] at h ⊢
    omega

/-- The words before a text, and those of its lines. -/
theorem words_before_bodies {before : List Char} (hbefore : ∀ c ∈ before, Lines.isBreak c = false) (text : List Char) :
    words (before ++ text) = words (before ++ (Lines.bodies text).head?.getD []) ++
        (Lines.bodies text).tail.flatMap words := by
  induction text generalizing before with
  | nil => exact (List.append_nil _).symm
  | cons c rest ih =>
    have hrest : (Lines.bodies rest).flatMap words = words rest := by
      have h := @ih [] nofun
      rw [List.nil_append, List.nil_append] at h
      rw [h]
      cases Lines.bodies rest <;> rfl
    cases hbreak : Lines.isBreak c with
    | false =>
      -- The character goes on with the first line.
      have h := @ih (before ++ [c]) fun d hd => (List.mem_append.mp hd).elim (hbefore d) fun hd =>
          List.mem_singleton.mp hd ▸ hbreak
      have hends : Lines.ends c rest = false := by rw [Lines.ends, hbreak]; rfl
      rw [List.append_assoc, List.append_assoc, List.singleton_append, List.singleton_append] at h
      rw [h, Lines.bodies, Lines.bodies, Lines.splitLines_cons_of_not_ends hends]
      cases Lines.splitLines rest with
      | nil => simp [Lines.prepend, hbreak, Lines.body]
      | cons line lines => simp [Lines.prepend, Lines.body_cons, hbreak]
    | true =>
      rw [words_append (isSpace_of_isBreak hbreak), ← hrest]
      cases hends : Lines.ends c rest with
      | true =>
        rw [Lines.bodies, Lines.bodies, Lines.splitLines_cons_of_ends hends]
        simp [Lines.body_cons, hbreak]
      | false =>
        -- A carriage return before a line feed, which ends the line.
        rw [Lines.ends, hbreak, Bool.true_and, Bool.not_eq_false', Bool.and_eq_true, beq_iff_eq, beq_iff_eq] at hends
        obtain ⟨rfl, hfeed⟩ := hends
        obtain ⟨rest', rfl⟩ := List.head?_eq_some_iff.mp hfeed
        have hsplit : Lines.splitLines ('\n' :: rest') = ['\n'] :: Lines.splitLines rest' :=
            Lines.splitLines_cons_of_ends rfl
        have hends : Lines.ends '\r' ('\n' :: rest') = false := rfl
        rw [Lines.bodies, Lines.bodies, Lines.splitLines_cons_of_not_ends hends, hsplit, Lines.prepend]
        have hbody : Lines.isBreak '\n' = true := rfl
        simp [Lines.body_cons, hbreak, hbody, words_nil]

/-- The words of a text are those of its lines. -/
theorem flatMap_words_bodies (text : List Char) : (Lines.bodies text).flatMap words = words text := by
  have h := @words_before_bodies [] nofun text
  rw [List.nil_append, List.nil_append] at h
  rw [h]
  cases Lines.bodies text <;> rfl

end Texts
