import Galaris.Base.Lines
import Galaris.Base.Results
import Mathlib.Data.List.Flatten
import Mathlib.Algebra.Order.Ring.Nat

/-! Pages and line edits of a Dataset (`document/data/provider.py`).

`read` returns a page of characters with the lines it covers; `edit` replaces lines, and ends the replacement with
the break of what it replaces. It looks only for `\r` and `\n` there, although the lines are those of `splitlines`. -/
namespace Galaris.Document.DataLines

open Lines Results

abbrev Text := List Char

/-! ### Reading -/

/-- `service.MAX_BYTES`. -/
def maxBytes : Nat := 2000000

/-- `accumulate(len(line) for line in lines)`. -/
def lineEnds (content : Text) : List Nat :=
  (List.range (splitLines content).length).map fun k => (((splitLines content).take (k + 1)).map List.length).sum

/-- `bisect_right`, of a sorted list. -/
def bisectRight (ends : List Nat) (x : Int) : Nat := (ends.takeWhile fun e => decide ((e : Int) ≤ x)).length

/-- `DatasetResourceRead`. -/
structure Page where
  content : Text
  start : Nat
  stop : Nat
  total : Nat
  nextOffset : Option Nat
  startLine : Option Nat
  endLine : Option Nat
  totalLines : Nat
  startLineComplete : Bool
  endLineComplete : Bool

/-- `read`. -/
def read (content : Text) (offset maxChars : Int) : Page :=
  let start := min content.length (max 0 offset).toNat
  let stop := min content.length (start + min maxBytes (max 1 maxChars).toNat)
  let ends := lineEnds content
  let first := bisectRight ends start
  let last := bisectRight ends (stop - 1)
  let hasContent := decide (start < stop)
  { content := (content.take stop).drop start
    start, stop
    total := content.length
    nextOffset := if stop < content.length then some stop else none
    startLine := if hasContent then some (first + 1) else none
    endLine := if hasContent then some (last + 1) else none
    totalLines := ends.length
    startLineComplete := hasContent && (if first = 0 then start == 0 else ends[first - 1]? == some start)
    endLineComplete := hasContent && ends[last]? == some stop }

/-! ### Editing -/

def endsWith (text suffix : Text) : Bool := suffix.isSuffixOf text

/-- `text.endswith(("\n", "\r"))`. -/
def terminated (text : Text) : Bool := endsWith text ['\n'] || endsWith text ['\r']

/-- The replacement with the break of what it replaces. -/
def repaired (original replacement : Text) : Text :=
  if terminated original && !replacement.isEmpty && !terminated replacement then
    replacement ++ (if endsWith original ['\r', '\n'] then ['\r', '\n']
      else if endsWith original ['\r'] then ['\r'] else ['\n'])
  else replacement

/-- The lines from the first to the last one selected, and those around them. -/
def linesBefore (content : Text) (first : Int) : Text := ((splitLines content).take (first.toNat - 1)).flatten

def selection (content : Text) (first last : Int) : Text :=
    (((splitLines content).take last.toNat).drop (first.toNat - 1)).flatten

def linesAfter (content : Text) (last : Int) : Text := ((splitLines content).drop last.toNat).flatten

/-- `edit`; `write` is what `service.replace` checks of the new content. -/
def edit (write : Text → Except String Unit) (content : Text) (first last : Int)
    (replacement : Text) : Except String Text :=
  if first < 1 ∨ last < first ∨ (splitLines content).length < last
    then .error "Dataset edit range is outside the current content"
  else
    let edited := linesBefore content first ++ repaired
      (selection content first last) replacement ++ linesAfter content last
    write edited >>= fun _ => .ok edited

/-! ### What an edit touches -/

/-- The lines before the selected ones are the same; those after it too, as lines of their own behind the
text that ends the replacement. -/
structure Untouched (content : Text) (first last : Int) (replacement edited : Text) : Prop where
  before : (bodies edited).take (first.toNat - 1) = (bodies content).take (first.toNat - 1)
  after : replacement ≠ [] →
    bodies edited = bodies (linesBefore content first ++ repaired
      (selection content first last) replacement) ++ (bodies content).drop last.toNat

/-- The replacement does not reach into the next line: nothing replaces the lines or follows them, or the
break of the selection is repaired or the replacement has its own, which the next line does not continue. -/
def Ended (content : Text) (first last : Int) (replacement : Text) : Prop :=
  replacement = [] ∨ last = (splitLines content).length ∨
    ((terminated (selection content first last) = true ∨ ∃ c ∈ replacement.getLast?, isBreak c = true) ∧
      ¬(replacement.getLast? = some '\r' ∧ (linesAfter content last).head? = some '\n'))

theorem endsWith_singleton {text : Text} {c : Char} : endsWith text [c] = true ↔ text.getLast? = some c := by
  rw [endsWith, List.isSuffixOf_iff_suffix]
  constructor
  · rintro ⟨start, rfl⟩
    exact List.getLast?_concat
  · intro h
    obtain ⟨start, rfl⟩ := List.getLast?_eq_some_iff.mp h
    exact ⟨start, rfl⟩

theorem terminated_iff {text : Text} :
    terminated text = true ↔ text.getLast? = some '\n' ∨ text.getLast? = some '\r' := by
  rw [terminated, Bool.or_eq_true, endsWith_singleton, endsWith_singleton]

theorem edit_eq_ok {write : Text → Except String Unit} {content : Text} {first last : Int} {replacement edited : Text}
    (h : edit write content first last replacement = .ok edited) :
    (1 ≤ first ∧ first ≤ last ∧ last ≤ (splitLines content).length) ∧
      edited = linesBefore content first ++ repaired (selection content first last) replacement ++
          linesAfter content last := by
  unfold edit at h
  split at h
  case isTrue => cases h
  case isFalse hrange =>
    rw [bind_eq_ok] at h
    obtain ⟨-, -, h⟩ := h
    exact ⟨by omega, (Except.ok.inj h).symm⟩

section Range
variable {content : Text} {first last : Int}

theorem bodies_after : bodies (linesAfter content last) = (bodies content).drop last.toNat := by
  rw [bodies, linesAfter, splitLines_drop, List.map_drop]
  rfl

theorem after_eq_nil (hlast : last ≤ (splitLines content).length) (h : 0 ≤ last) :
    linesAfter content last = [] ↔ last = (splitLines content).length := by
  rw [linesAfter, ← splitLines_eq_nil, splitLines_drop, List.drop_eq_nil_iff]
  omega

/-- The selection ends where the next line begins. -/
theorem clean_selection {c : Char} (hc : (selection content first last).getLast? = some c)
    (hafter : linesAfter content last ≠ []) :
    ends c (linesAfter content last) = true := by
  refine clean_take content last.toNat c ?_ hafter
  have hcut : ((splitLines content).take last.toNat).flatten =
      (((splitLines content).take last.toNat).take (first.toNat - 1)).flatten ++ selection content first last := by
    rw [selection, ← List.flatten_append, List.take_append_drop]
  rw [hcut, List.getLast?_append, hc]
  rfl

theorem repaired_ne_nil {original replacement : Text} (h : replacement ≠ []) : repaired original replacement ≠ [] := by
  unfold repaired
  split
  · exact fun heq => h (List.append_eq_nil_iff.mp heq).1
  · exact h

/-- A repaired replacement ends with the break of the selection. -/
theorem ends_repaired {replacement : Text} (h : terminated (selection content first last) = true)
    (hterminated : terminated replacement = false)
    (hreplacement : replacement ≠ []) (hafter : linesAfter content last ≠ []) {c : Char}
    (hc : (repaired (selection content first last) replacement).getLast? = some c) :
    ends c (linesAfter content last) = true := by
  have hempty : replacement.isEmpty = false := by simpa using hreplacement
  rw [repaired, if_pos (by simp [h, hterminated, hempty])] at hc
  split_ifs at hc with hcrlf hcr
  · rw [List.getLast?_append] at hc
    obtain rfl : '\n' = c := Option.some.inj hc
    rfl
  · rw [List.getLast?_concat] at hc
    obtain rfl : '\r' = c := Option.some.inj hc
    exact clean_selection (endsWith_singleton.mp hcr) hafter
  · rw [List.getLast?_concat] at hc
    obtain rfl : '\n' = c := Option.some.inj hc
    rfl

/-- The lines after the selection are lines of their own exactly where the replacement is ended. -/
theorem clean_iff_ended (hfirst : 1 ≤ first) (hrange : first ≤ last) (hlast : last ≤
    (splitLines content).length) {replacement : Text} (hreplacement : replacement ≠ []) :
    Clean (linesBefore content first ++ repaired (selection content first last) replacement)
        (linesAfter content last) ↔ Ended content first last replacement := by
  by_cases hafter : linesAfter content last = []
  · exact iff_of_true (fun _ _ h => absurd hafter h) (.inr (.inl ((after_eq_nil hlast (by omega)).mp hafter)))
  obtain ⟨c, hc⟩ : ∃ c, (repaired (selection content first last) replacement).getLast? = some c :=
    Option.ne_none_iff_exists'.mp (mt List.getLast?_eq_none_iff.mp (repaired_ne_nil hreplacement))
  have hclean :
      Clean (linesBefore content first ++ repaired (selection content first last) replacement)
      (linesAfter content last) ↔ ends c (linesAfter content last) = true := by
    constructor
    · exact fun h => h c (by rw [List.getLast?_append, hc]; rfl) hafter
    · intro h d hd _
      rw [List.getLast?_append, hc] at hd
      exact Option.some.inj hd ▸ h
  have hended : Ended content first last replacement ↔
      (terminated (selection content first last) = true ∨ ∃ c ∈ replacement.getLast?, isBreak c = true) ∧
        ¬(replacement.getLast? = some '\r' ∧ (linesAfter content last).head? = some '\n') := by
    rw [Ended, or_iff_right hreplacement, or_iff_right (mt (after_eq_nil hlast (by omega)).mpr hafter)]
  rw [hclean, hended]
  by_cases hrepair : terminated (selection content first last) = true ∧ terminated replacement = false
  · refine iff_of_true (ends_repaired hrepair.1 hrepair.2 hreplacement hafter hc) ⟨.inl hrepair.1, fun h => ?_⟩
    exact absurd (hrepair.2.symm.trans (terminated_iff.mpr (.inr h.1))) nofun
  · have hsame : repaired (selection content first last) replacement = replacement := by
      rw [repaired, if_neg]
      intro h
      simp only [Bool.and_eq_true, Bool.not_eq_true'] at h
      exact hrepair ⟨h.1.1, h.2⟩
    rw [hsame] at hc
    have hbreak : (terminated (selection content first last) = true ∨ ∃ c ∈ replacement.getLast?,
        isBreak c = true) ↔ isBreak c = true := by
      constructor
      · rintro (h | ⟨d, hd, h⟩)
        · have hterminated : terminated replacement = true := by
            by_contra hnot
            exact hrepair ⟨h, Bool.eq_false_iff.mpr hnot⟩
          rw [terminated_iff, hc, Option.some.injEq, Option.some.injEq] at hterminated
          obtain rfl | rfl := hterminated <;> rfl
        · rw [hc] at hd
          exact Option.some.inj hd ▸ h
      · exact fun h => .inr ⟨c, hc, h⟩
    rw [hbreak, hc, ends, Bool.and_eq_true, Bool.not_eq_true', Bool.and_eq_false_iff, Option.some.injEq, not_and_or]
    simp only [beq_eq_false_iff_ne, ne_eq]

end Range

/-! ### Pages that are sent back -/

/-- The text of a page of whole lines, as the replacement of these lines, changes nothing. -/
def Resubmits (content : Text) : Prop :=
  ∀ offset maxChars, (read content offset maxChars).startLineComplete = true →
    (read content offset maxChars).endLineComplete = true →
    ∃ first last, (read content offset maxChars).startLine = some first ∧
    (read content offset maxChars).endLine = some last ∧
      ∀ write, edit write content first last (read content offset maxChars).content =
      write content >>= fun _ => .ok content

theorem repaired_self (original : Text) : repaired original original = original := by
  unfold repaired
  cases terminated original <;> simp

theorem lineEnds_getElem? {content : Text} {k e : Nat} (h : (lineEnds content)[k]? = some e) :
    k < (splitLines content).length ∧ ((splitLines content).take (k + 1)).flatten.length = e := by
  rw [lineEnds, List.getElem?_map, Option.map_eq_some_iff] at h
  obtain ⟨j, hj, rfl⟩ := h
  obtain ⟨hlt, rfl⟩ := List.getElem?_eq_some_iff.mp hj
  rw [List.getElem_range, List.length_flatten]
  exact ⟨by simpa using hlt, rfl⟩

theorem take_flatten_take (content : Text) (k : Nat) : content.take
    ((splitLines content).take k).flatten.length = ((splitLines content).take k).flatten := by
  have hcut : content = ((splitLines content).take k).flatten ++ ((splitLines content).drop k).flatten := by
    rw [← List.flatten_append, List.take_append_drop, flatten_splitLines]
  exact (congrArg (List.take _) hcut).trans List.take_left

/-- The first lines are the first of them, and the selection behind. -/
theorem take_eq_selection (content : Text) {first last : Nat} (h : first ≤ last) :
    ((splitLines content).take (last + 1)).flatten = ((splitLines content).take first).flatten ++
    selection content (first + 1 : Nat) (last + 1 : Nat) := by
  rw [selection, Int.toNat_natCast, Int.toNat_natCast, Nat.add_sub_cancel]
  conv => lhs; rw [← List.take_append_drop first ((splitLines content).take (last + 1)), List.flatten_append]
  rw [List.take_take, Nat.min_eq_left (by omega)]

theorem resubmits (content : Text) : Resubmits content := by
  intro offset maxChars hstart hend
  unfold read at hstart hend ⊢
  dsimp only at hstart hend ⊢
  generalize min content.length (max 0 offset).toNat = start at hstart hend ⊢
  generalize min content.length (start + min maxBytes (max 1 maxChars).toNat) = stop at hstart hend ⊢
  generalize bisectRight (lineEnds content) start = first at hstart hend ⊢
  generalize bisectRight (lineEnds content) (stop - 1) = last at hstart hend ⊢
  rw [Bool.and_eq_true, decide_eq_true_eq] at hstart hend
  obtain ⟨hcontent, hstart⟩ := hstart
  rw [beq_iff_eq] at hend
  obtain ⟨hlast, hstop⟩ := lineEnds_getElem? hend.2
  have hfirst : ((splitLines content).take first).flatten.length = start := by
    cases first with
    | zero => exact (beq_iff_eq.mp hstart).symm
    | succ k => exact (lineEnds_getElem? (beq_iff_eq.mp hstart)).2
  have hle : first ≤ last := by
    by_contra hlarge
    have hsub : (splitLines content).take (last + 1) <+: (splitLines content).take first :=
        List.take_prefix_take_left (by omega)
    have := hsub.sublist.flatten.length_le
    omega
  rw [if_pos (decide_eq_true hcontent), if_pos (decide_eq_true hcontent)]
  refine ⟨first + 1, last + 1, rfl, rfl, fun write => ?_⟩
  have htext : (content.take stop).drop start = selection content (first + 1 : Nat) (last + 1 : Nat) := by
    rw [← hstop, take_flatten_take, take_eq_selection content hle, ← hfirst, List.drop_left]
  have hwhole : linesBefore content (first + 1 : Nat) ++ selection content (first + 1 : Nat)
      (last + 1 : Nat) ++ linesAfter content (last + 1 : Nat) = content := by
    rw [linesBefore, linesAfter, Int.toNat_natCast, Int.toNat_natCast,
      Nat.add_sub_cancel, ← take_eq_selection content hle, ← List.flatten_append,
      List.take_append_drop, flatten_splitLines]
  rw [edit, if_neg (by omega), htext, repaired_self, hwhole]

/-- An edit keeps the lines around the selected ones exactly where the replacement is ended. -/
theorem edit_frame {write : Text → Except String Unit} {content : Text} {first last : Int} {replacement edited : Text}
    (h : edit write content first last replacement = .ok edited) :
    Untouched content first last replacement edited ∧ Resubmits content ↔ Ended content first last replacement := by
  obtain ⟨⟨hfirst, hrange, hlast⟩, rfl⟩ := edit_eq_ok h
  have hbefore : (bodies (linesBefore content first ++ repaired (selection content first last)
      replacement ++ linesAfter content last)).take (first.toNat - 1) =
      (bodies content).take (first.toNat - 1) := by
    rw [List.append_assoc]
    exact take_bodies_append content _ (by omega)
  have hafter : bodies (linesBefore content first ++ repaired
      (selection content first last) replacement ++ linesAfter content last) =
        bodies (linesBefore content first ++ repaired (selection content first last) replacement) ++
        (bodies content).drop last.toNat ↔
      Clean (linesBefore content first ++ repaired (selection content first last) replacement)
          (linesAfter content last) := by
    rw [← bodies_after, bodies_append_iff]
  constructor
  · rintro ⟨htouched, -⟩
    by_cases hreplacement : replacement = []
    · exact .inl hreplacement
    · exact (clean_iff_ended hfirst hrange hlast hreplacement).mp (hafter.mp (htouched.after hreplacement))
  · intro hended
    exact ⟨⟨hbefore, fun hreplacement => hafter.mpr
      ((clean_iff_ended hfirst hrange hlast hreplacement).mpr hended)⟩, resubmits content⟩

/-- The second of three lines becomes two; the second of these ends with the break that was there. -/
theorem edit_frame_replaced : Untouched "[1,\n2,\n3]".toList 2 2 "8,\n9,".toList "[1,\n8,\n9,\n3]".toList := by
  have h : edit (fun _ => .ok ()) "[1,\n2,\n3]".toList 2 2 "8,\n9,".toList = .ok "[1,\n8,\n9,\n3]".toList := by decide
  exact ((edit_frame h).mpr (.inr (.inr ⟨.inl (by decide), by decide⟩))).1

/-- A line that ends inside a text, with a line separator, is replaced by one without a break: the next line
joins it. -/
theorem replacement_merges : edit (fun _ => .ok ()) "[\"a\u2028b\"]".toList 1 1 "[\"c".toList = .ok "[\"cb\"]".toList ∧
    ¬(Untouched "[\"a\u2028b\"]".toList 1 1 "[\"c".toList "[\"cb\"]".toList ∧ Resubmits "[\"a\u2028b\"]".toList) := by
  refine ⟨by decide, fun h => ?_⟩
  exact absurd (h.1.after (by decide)) (by decide)

end Galaris.Document.DataLines
