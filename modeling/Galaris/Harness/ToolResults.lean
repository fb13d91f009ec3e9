import Galaris.Base.JsonText
import Galaris.Base.Texts

/-! The history previews of tool results (`tool_results.py`).

A result that is too long for the history is replaced by a preview: the first entries and items that fit into
half of the limit, six levels deep, with notes on what was left out (`compactToolReturn`). The budget is
checked on the text of every candidate, so that the preview keeps to it whatever the parts came out as. -/
namespace Galaris.Harness.ToolResults
open JsonText

/-- What the serializer raises on a value nested too deep. -/
inductive Refusal
  | recursion
  deriving DecidableEq, Repr

def startsWith (text : Text) : Bool := text.head? = some 123 || text.head? = some 91

def isContainer : Json → Bool
  | .arr _ | .obj _ => true
  | _ => false

/-- What the previews use of Python: how deep a value the serializer accepts, the parser, which is `none`
where it raises, and the first sixteen digits of a digest. -/
structure Python where
  nesting : Nat
  nesting_le : 7 ≤ nesting
  loads : Text → Option Json
  loads_container : ∀ text value, startsWith (text.dropWhile Texts.isSpaceCode) = true →
    loads text = some value → isContainer value = true
  digest : Text → Text
  digest_length : ∀ text, (digest text).length = 16

/-- `_CONTROL_FIELDS`. -/
def controlFields : List Text :=
  ["schema", "status", "outcome", "ok", "success", "isError", "code", "retryable",
    "uri", "id", "revision", "etag", "next_offset", "next_cursor", "nextCursor",
    "pageInfo", "pagination", "paging", "meta", "has_more", "hasMore",
    "hasNextPage", "endCursor", "start", "end", "total", "count", "truncated",
    "error", "encoding", "media_type", "offset_unit", "content_profile"].map text

/-- The entries in the order of the preview. -/
def ordered (entries : List (Text × Json)) : List (Text × Json) :=
  controlFields.filterMap (fun key => (entries.lookup key).map fun value => (key, value)) ++
    entries.filter fun entry => !controlFields.contains entry.1

/-- The part of a text that fits: half of it is given up until it does. -/
def shorten (fits : Text → Bool) (head : Text) : Text :=
  if head = [] ∨ fits head then head else shorten fits (head.take (head.length / 2))
termination_by head.length
decreasing_by
  rename_i h
  have hpos : 0 < head.length := List.length_pos_of_ne_nil (fun hnil => h (.inl hnil))
  rw [List.length_take]
  omega

section Preview
variable (p : Python)

/-- `decode_tool_result`. -/
def decodeToolResult (value : Json) : Json :=
  match value with
  | .str s => if startsWith (s.dropWhile Texts.isSpaceCode) then (p.loads s).getD value else value
  | _ => value

/-- `_encoded`. -/
def encoded (value : Json) : Except Refusal Text :=
  if depth value ≤ p.nesting then .ok (encode value) else .error .recursion

/-- The note on a text that was left out. -/
def marker (s : Text) : Text :=
  text "[content omitted after execution: " ++ digits s.length ++ text " characters, sha256=" ++ p.digest s ++ text "]"

/-- The preview of a text. -/
def previewText (s : Text) (budget : Nat) : Text :=
  if (quote s).length ≤ min 600 budget then s
  else
    let marker := marker p s
    let head := shorten (fun head => (quote (head ++ marker)).length ≤ budget) (s.take (min 600 (budget / 2)))
    if (quote marker).length ≤ budget then head ++ marker else text "[omitted from history]"

/-- The entries of an object that fit. -/
def previewEntries (preview : Json → Nat → Except Refusal Json) (budget : Nat) :
    List (Text × Json) → List (Text × Json) → Except Refusal (List (Text × Json))
  | [], result => .ok result
  | (key, value) :: rest, result => do
    let written ← encoded p (.obj result)
    let remaining := budget - written.length - (quote key).length - 2
    if remaining < 100 then previewEntries preview budget rest result
    else
      let shown ← preview value remaining
      let candidate := put result key shown
      let written ← encoded p (.obj candidate)
      previewEntries preview budget rest (if written.length ≤ budget then candidate else result)

/-- The first items of an array that fit. -/
def previewItems (preview : Json → Nat → Except Refusal Json) (budget : Nat) :
    List Json → List Json → Except Refusal (List Json)
  | [], result => .ok result
  | item :: rest, result => do
    let written ← encoded p (.arr result)
    let remaining := budget - written.length - 1
    if remaining < 100 then return result
    let shown ← preview item remaining
    let written ← encoded p (.arr (result ++ [shown]))
    previewItems preview budget rest (if written.length ≤ budget then result ++ [shown] else result)

/-- `_bounded_preview`, with the levels left before the sixth. -/
def boundedPreview (levels : Nat) (value : Json) (budget : Nat) : Except Refusal Json :=
  match value, levels with
  | .str s, _ => .ok (.str (previewText p s budget))
  | _, 0 => .ok (.str (text "[nested content omitted from history]"))
  | .obj entries, levels + 1 => do
    let result ← previewEntries p (boundedPreview levels) budget ((ordered entries).take 32) []
    return .obj result
  | .arr items, levels + 1 => do
    let result ← previewItems p (boundedPreview levels) budget (items.take 4) []
    return .arr result
  | value, _ + 1 => .ok value

def note : Text := text
  ("Galaris abbreviated only this model-facing preview; the original tool result " ++
    "remains in the execution history. Omitted content, list items and fields are not evidence of " ++
    "empty or missing source data, a read error, or task completion. Use retained " ++
    "pagination controls to continue; increasing the requested size cannot prevent " ++
    "history compaction. Re-read only specific missing information and retain " ++
    "extracted facts in durable working resources.")

/-- The entries of a preview, which an object that has no notes of its own keeps. -/
def previewFields (preview : Json) : List (Text × Json) :=
  match preview with
  | .obj entries =>
    if (entries.lookup (text "history_note")).isNone then entries
      else [(text "result_preview", preview)]
  | _ => [(text "result_preview", preview)]

/-- The object that stands for a result, with its notes. -/
def summary (serialized : Text) (preview : Json) : List (Text × Json) :=
  let fields := put (previewFields preview) (text "history_note") (.str note)
  let fields := put fields (text "history_original_chars") (.number (digits serialized.length))
  let fields := put fields (text "history_sha256") (.str (p.digest serialized))
  put fields (text "history_omission") (.str (marker p serialized))

/-- The text of a value, a text being its own. -/
def serialize (value : Json) : Except Refusal Text :=
  match value with
  | .str s => .ok s
  | _ => encoded p value

/-- `compact_tool_return`. -/
def compactToolReturn (value : Json) (maxChars : Nat := 4000) : Except Refusal Json :=
  let decoded := decodeToolResult p value
  match serialize p value with
  | .error _ => .ok value
  | .ok serialized =>
    if serialized.length ≤ maxChars then .ok value
    else
      match decoded with
      | .str s =>
        .ok (.str (previewText p s (maxChars / 2) ++ text "\n[tool result truncated after use: " ++
          digits serialized.length ++
          text " characters, sha256=" ++ p.digest serialized ++ text "]\n" ++ note))
      | decoded => do
        let preview ← boundedPreview p 6 decoded (maxChars / 2)
        match value with
        | .str _ =>
          let written ← encoded p (.obj (summary p serialized preview))
          return .str written
        | _ => return .obj (summary p serialized preview)

end Preview

/-! ### The bound -/

/-- A text as it is, any other value as it is written. -/
def written (value : Json) : Text :=
  match value with
  | .str s => s
  | _ => encode value

/-- What is measured: the length of a text, else of the text it is written as. -/
def size (value : Json) : Nat := (written value).length

/-- A result that a tool can return: an object, an array or a text that the serializer accepts. No text of
Python is longer than `sys.maxsize`. -/
structure Returned (p : Python) where
  value : Json
  kind : isContainer value = true ∨ ∃ s, value = .str s
  accepted : depth value ≤ p.nesting
  size_lt : size value < 2 ^ 63

section Bound
variable {p : Python}

theorem encoded_ok {value : Json} (h : depth value ≤ 7) : encoded p value = .ok (encode value) :=
    if_pos (h.trans p.nesting_le)

theorem serialize_ok {value : Json} (h : depth value ≤ p.nesting) : serialize p value = .ok (written value) := by
  cases value with
  | str s => rfl
  | arr items => exact if_pos h
  | obj entries => exact if_pos h
  | _ => rfl

theorem serialize_eq {value : Json} {serialized : Text} (h : serialize p value = .ok serialized) :
    serialized = written value := by
  by_cases hdepth : depth value ≤ p.nesting
  · exact (Except.ok.inj ((serialize_ok hdepth).symm.trans h)).symm
  · cases value with
    | arr items => exact nomatch (if_neg hdepth).symm.trans h
    | obj entries => exact nomatch (if_neg hdepth).symm.trans h
    | _ => exact absurd (Nat.zero_le _) hdepth

/-- What is short enough stays as it is. -/
theorem compactToolReturn_of_size_le {value : Json} {maxChars : Nat} (h : size value ≤ maxChars) :
    compactToolReturn p value maxChars = .ok value := by
  rw [compactToolReturn]
  split
  · rfl
  · next serialized hserialized => exact if_pos (serialize_eq hserialized ▸ h)

/-! The text of a preview keeps to the budget. -/

theorem shorten_spec (fits : Text → Bool) (head : Text) : shorten fits head = [] ∨ fits (shorten fits head) = true := by
  induction head using shorten.induct fits with
  | case1 head h =>
    rw [shorten, if_pos h]
    exact h
  | case2 head h ih =>
    rw [shorten, if_neg h]
    exact ih

/-- How long the texts of a preview are. -/
theorem literal_lengths : (quote (text "[omitted from history]")).length = 24 ∧
    ((text "[content omitted after execution: ").length = 34 ∧
      (text " characters, sha256=").length = 20 ∧ (text "]").length = 1) ∧
    ((text "\n[tool result truncated after use: ").length = 35 ∧ (text "]\n").length = 2) ∧
      (quote (text "result_preview")).length = 16 ∧
    (quote (text "history_note")).length = 14 ∧ (quote (text "history_original_chars")).length = 24 ∧
    (quote (text "history_sha256")).length = 16 ∧ (quote (text "history_omission")).length = 18 := by decide +kernel

theorem length_quote_previewText_le {s : Text} {budget : Nat} (h : 100 ≤ budget) :
    (quote (previewText p s budget)).length ≤ budget := by
  rw [previewText]
  split
  · next hfits => exact hfits.trans (Nat.min_le_right _ _)
  · dsimp only
    split
    · next hmarker =>
      obtain hnil | hfits := shorten_spec (fun head => (quote (head ++ marker p s)).length ≤ budget)
        (s.take (min 600 (budget / 2)))
      · rw [hnil, List.nil_append]
        exact hmarker
      · exact of_decide_eq_true hfits
    · have homitted := literal_lengths.1
      omega

section Loops
variable {preview : Json → Nat → Except Refusal Json} {budget n : Nat}

theorem previewEntries_spec (hpreview : ∀ value budget, ∃ shown, preview value budget = .ok shown ∧
    depth shown ≤ n) (hn : n ≤ 6)
    (entries result : List (Text × Json)) (hdepth : depthEntries result ≤ n) :
    ∃ out, previewEntries p preview budget entries result = .ok out ∧ depthEntries out ≤ n ∧
      ((encode (.obj result)).length ≤ budget → (encode (.obj out)).length ≤ budget) := by
  induction entries generalizing result with
  | nil => exact ⟨result, rfl, hdepth, id⟩
  | cons entry rest ih =>
    obtain ⟨key, value⟩ := entry
    have hwritten : encoded p (.obj result) = .ok (encode (.obj result)) :=
        encoded_ok (Nat.succ_le_succ (hdepth.trans hn))
    rw [previewEntries, hwritten]
    simp only [bind, Except.bind]
    split
    · exact ih _ hdepth
    · obtain ⟨shown, hshown, hbelow⟩ := hpreview value (budget - (encode (.obj result)).length - (quote key).length - 2)
      have hput : depthEntries (put result key shown) ≤ n := depth_put_le hdepth hbelow
      have hcandidate : encoded p (.obj (put result key shown)) = .ok (encode (.obj (put result key shown))) :=
        encoded_ok (Nat.succ_le_succ (hput.trans hn))
      rw [hshown]
      dsimp only
      rw [hcandidate]
      dsimp only
      split
      · next hfits =>
        obtain ⟨out, hout, hdepth', hbound⟩ := ih _ hput
        exact ⟨out, hout, hdepth', fun _ => hbound hfits⟩
      · exact ih _ hdepth

theorem previewItems_spec (hpreview : ∀ value budget, ∃ shown, preview value budget = .ok shown ∧
    depth shown ≤ n) (hn : n ≤ 6)
    (items result : List Json) (hdepth : depthItems result ≤ n) :
    ∃ out, previewItems p preview budget items result = .ok out ∧ depthItems out ≤ n ∧
      ((encode (.arr result)).length ≤ budget → (encode (.arr out)).length ≤ budget) := by
  induction items generalizing result with
  | nil => exact ⟨result, rfl, hdepth, id⟩
  | cons item rest ih =>
    have hwritten : encoded p (.arr result) = .ok (encode (.arr result)) :=
        encoded_ok (Nat.succ_le_succ (hdepth.trans hn))
    rw [previewItems, hwritten]
    simp only [bind, Except.bind]
    split
    · exact ⟨result, rfl, hdepth, id⟩
    · obtain ⟨shown, hshown, hbelow⟩ := hpreview item (budget - (encode (.arr result)).length - 1)
      have happend : depthItems (result ++ [shown]) ≤ n := by
        refine depthItems_le_iff.mpr fun other hother => ?_
        obtain hmem | hmem := List.mem_append.mp hother
        · exact depthItems_le_iff.mp hdepth other hmem
        · exact List.mem_singleton.mp hmem ▸ hbelow
      have hcandidate : encoded p (.arr (result ++ [shown])) = .ok (encode (.arr (result ++ [shown]))) :=
        encoded_ok (Nat.succ_le_succ (happend.trans hn))
      rw [hshown]
      dsimp only
      rw [hcandidate]
      dsimp only
      split
      · next hfits =>
        obtain ⟨out, hout, hdepth', hbound⟩ := ih _ happend
        exact ⟨out, hout, hdepth', fun _ => hbound hfits⟩
      · exact ih _ hdepth

end Loops

/-- A preview is no deeper than its levels, and that of an object or an array keeps to the budget. -/
theorem boundedPreview_spec {levels : Nat} (hlevels : levels ≤ 6) (value : Json) (budget : Nat) :
    ∃ shown, boundedPreview p levels value budget = .ok shown ∧ depth shown ≤ levels ∧
      (0 < levels → isContainer value = true → 2 ≤ budget → (encode shown).length ≤ budget) := by
  induction levels generalizing value budget with
  | zero =>
    cases value with
    | str s => exact ⟨_, rfl, Nat.zero_le _, nofun⟩
    | _ => exact ⟨_, rfl, Nat.zero_le _, nofun⟩
  | succ levels ih =>
    have hpreview : ∀ value budget, ∃ shown, boundedPreview p levels value budget = .ok shown ∧
        depth shown ≤ levels := fun value budget => by
      obtain ⟨shown, hshown, hdepth, -⟩ := ih (Nat.le_of_succ_le hlevels) value budget
      exact ⟨shown, hshown, hdepth⟩
    cases value with
    | str s => exact ⟨_, rfl, Nat.zero_le _, nofun⟩
    | null => exact ⟨_, rfl, Nat.zero_le _, nofun⟩
    | bool b => exact ⟨_, rfl, Nat.zero_le _, nofun⟩
    | number literal => exact ⟨_, rfl, Nat.zero_le _, nofun⟩
    | obj entries =>
      obtain ⟨out, hout, hdepth, hbound⟩ := previewEntries_spec hpreview (Nat.le_of_succ_le hlevels)
        ((ordered entries).take 32) [] (Nat.zero_le _)
      refine ⟨.obj out, ?_, Nat.succ_le_succ hdepth, fun _ _ hbudget => hbound hbudget⟩
      rw [boundedPreview, hout]
      rfl
    | arr items =>
      obtain ⟨out, hout, hdepth, hbound⟩ :=
        previewItems_spec hpreview (Nat.le_of_succ_le hlevels) (items.take 4) [] (Nat.zero_le _)
      refine ⟨.arr out, ?_, Nat.succ_le_succ hdepth, fun _ _ hbudget => hbound hbudget⟩
      rw [boundedPreview, hout]
      rfl

theorem plain_note : Plain note (77 + 93 + 77 + 78 + 73 + 45) := by
  rw [note]
  simp only [text_append]
  refine plain_append (plain_append (plain_append (plain_append (plain_append ?_ ?_) ?_) ?_) ?_)
    ?_ <;> exact plain_ofList rfl (by decide +kernel)

theorem length_digits_serialized {serialized : Text} (h : serialized.length < 2 ^ 63) :
    (digits serialized.length).length ≤ 19 :=
  length_digits_le (by decide) (h.trans (by decide))

theorem length_marker_le {s : Text} (h : s.length < 2 ^ 63) : (marker p s).length ≤ 90 := by
  have hdigits := length_digits_serialized h
  obtain ⟨hhead, hmiddle, hlast⟩ := literal_lengths.2.1
  have hdigest := p.digest_length s
  simp only [marker, List.length_append]
  omega

theorem previewFields_eq (preview : Json) : previewFields preview =
    [(text "result_preview", preview)] ∨ preview = .obj (previewFields preview) := by
  cases preview with
  | obj entries =>
    rw [previewFields]
    split
    · exact .inr rfl
    · exact .inl rfl
  | _ => exact .inl rfl

theorem length_previewFields_le (preview : Json) :
    (encode (.obj (previewFields preview))).length ≤ (encode preview).length + 19 := by
  obtain hsingle | hsame := previewFields_eq preview
  · have hkey := literal_lengths.2.2.2.1
    rw [hsingle, length_obj]
    simp only [entriesCost, List.map_cons, List.map_nil, List.sum_cons, List.sum_nil, hkey]
    omega
  · rw [← hsame]
    exact Nat.le_add_right _ _

theorem depthEntries_previewFields_le (preview : Json) : depthEntries (previewFields preview) ≤ depth preview := by
  obtain hsingle | hsame := previewFields_eq preview
  · rw [hsingle]
    exact depthEntries_le_iff.mpr fun entry hentry => List.mem_singleton.mp hentry ▸ Nat.le_refl _
  · exact (Nat.le_succ _).trans (Nat.le_of_eq (congrArg depth hsame).symm)

/-- The notes take less than half of the limit. -/
theorem length_summary_le {serialized : Text} (h : serialized.length < 2 ^ 63) {preview : Json}
    (hpreview : (encode preview).length ≤ 2000) :
    (encode (.obj (summary p serialized preview))).length ≤ 4000 := by
  have hfields := length_previewFields_le preview
  have hnote := length_put_le (previewFields preview) (text "history_note") (.str note)
  have hchars := length_put_le (put (previewFields preview) (text "history_note") (.str note))
      (text "history_original_chars")
    (.number (digits serialized.length))
  have hsha := length_put_le (put (put (previewFields preview) (text "history_note") (.str note))
      (text "history_original_chars")
    (.number (digits serialized.length))) (text "history_sha256") (.str (p.digest serialized))
  have hkeys := literal_lengths.2.2.2.2
  have hquoted := length_quote_of_plain plain_note
  have hdigits : (encode (.number (digits serialized.length))).length ≤ 19 := length_digits_serialized h
  have hdigest := length_quote_le (p.digest serialized)
  have hmarker := length_quote_le (marker p serialized)
  have hdigestLength := p.digest_length serialized
  have hmarkerLength := length_marker_le (p := p) h
  have hencoded : ∀ s, encode (.str s) = quote s := fun _ => by rw [encode]
  refine (length_put_le _ _ _).trans ?_
  rw [hencoded] at hnote hsha ⊢
  omega

theorem depth_summary_le {serialized : Text} {preview : Json} (h : depth preview ≤ 6) :
    depth (.obj (summary p serialized preview)) ≤ 7 := by
  have hfields := (depthEntries_previewFields_le preview).trans h
  have hnotes : ∀ {fields : List (Text × Json)} {value : Json} (key : Text),
      depthEntries fields ≤ 6 → depth value = 0 → depthEntries (put fields key value) ≤ 6 :=
    fun _ hfields hvalue => depth_put_le hfields (hvalue ▸ Nat.zero_le 6)
  exact Nat.succ_le_succ (hnotes _ (hnotes _ (hnotes _ (hnotes _ hfields rfl) rfl) rfl) rfl)

/-- A container is decoded from a text that the parser takes, and is itself otherwise. -/
theorem decodeToolResult_spec (value : Json) (hkind : isContainer value = true ∨ ∃ s, value = .str s) :
    isContainer (decodeToolResult p value) = true ∨ ∃ s, value = .str s ∧ decodeToolResult p value = .str s := by
  obtain hcontainer | ⟨s, rfl⟩ := hkind
  · cases value with
    | arr items => exact .inl rfl
    | obj entries => exact .inl rfl
    | _ => exact nomatch hcontainer
  · rw [decodeToolResult]
    split
    · next hstarts =>
      cases hloads : p.loads s with
      | none => exact .inr ⟨s, rfl, rfl⟩
      | some value => exact .inl (p.loads_container s value hstarts hloads)
    · exact .inr ⟨s, rfl, rfl⟩

/-- The history keeps a result that is short enough, and else one that is: compaction raises nothing, and
changes nothing when it is repeated. -/
theorem compactToolReturn_spec (returned : Returned p) :
    ∃ result, compactToolReturn p returned.value = .ok result ∧ size result ≤ 4000 ∧
    (size returned.value ≤ 4000 → result = returned.value) ∧ compactToolReturn p result = .ok result := by
  obtain ⟨value, hkind, haccepted, hsize⟩ := returned
  dsimp only
  by_cases hshort : size value ≤ 4000
  case pos =>
    have hsame := compactToolReturn_of_size_le (p := p) hshort
    exact ⟨value, hsame, hshort, fun _ => rfl, hsame⟩
  case neg =>
    suffices hlong : ∃ result, compactToolReturn p value = .ok result ∧ size result ≤ 4000 by
      obtain ⟨result, hok, hresult⟩ := hlong
      exact ⟨result, hok, hresult, fun h => absurd h hshort, compactToolReturn_of_size_le hresult⟩
    have hserialized := serialize_ok haccepted
    rw [compactToolReturn, hserialized]
    dsimp only
    rw [if_neg (show ¬ (written value).length ≤ 4000 from hshort)]
    obtain hcontainer | ⟨s, rfl, htext⟩ := decodeToolResult_spec (p := p) value hkind
    case inr =>
      rw [htext]
      refine ⟨_, rfl, ?_⟩
      have hpreview : (quote (previewText p s (4000 / 2))).length ≤ 4000 / 2 := length_quote_previewText_le (by decide)
      have hshorter := length_le_quote (previewText p s (4000 / 2))
      have hdigits := @length_digits_serialized s hsize
      have hdigest := p.digest_length s
      have hnote := plain_note.1
      obtain ⟨hhead, hlast⟩ := literal_lengths.2.2.1
      have hmiddle := literal_lengths.2.1.2.1
      simp only [size, written, List.length_append]
      omega
    case inl =>
      have hpreviewed : ∃ result, (boundedPreview p 6 (decodeToolResult p value) (4000 / 2) >>= fun preview =>
          match value with
          | .str _ => encoded p (.obj (summary p (written value) preview)) >>= fun written => .ok (.str written)
          | _ => .ok (.obj (summary p (written value) preview))) = .ok result ∧ size result ≤ 4000 := by
        obtain ⟨shown, hshown, hdepth, hbound⟩ :=
          boundedPreview_spec (p := p) (Nat.le_refl 6) (decodeToolResult p value) (4000 / 2)
        have hlength : (encode (.obj (summary p (written value) shown))).length ≤ 4000 :=
          length_summary_le hsize (hbound (by decide) hcontainer (by decide))
        have hencoded : encoded p (.obj (summary p (written value) shown)) =
            .ok (encode (.obj (summary p (written value) shown))) :=
          encoded_ok (depth_summary_le hdepth)
        rw [hshown]
        cases value with
        | str s => exact ⟨.str _, congrArg (· >>= fun written => Except.ok (Json.str written)) hencoded, hlength⟩
        | _ => exact ⟨_, rfl, hlength⟩
      cases hdecoded : decodeToolResult p value with
      | arr items =>
        rw [hdecoded] at hpreviewed
        exact hpreviewed
      | obj entries =>
        rw [hdecoded] at hpreviewed
        exact hpreviewed
      | _ => exact nomatch hdecoded ▸ hcontainer

end Bound

/-! A result of one long text. -/

def page : Text := List.replicate 4001 97

/-- The digests are those of the text and of the result as it is written; the text is not JSON. -/
def cpython : Python where
  nesting := 900
  nesting_le := by decide
  loads := fun _ => none
  loads_container := nofun
  digest s := if s = page then text "8d0cec18ccbfc807" else text "2b06e608654a7c50"
  digest_length s := by split <;> rfl

theorem page_length : (encode (.obj [(text "data", .str page)])).length = 4012 := by
  have hkey : Plain (text "data") 4 := plain_ofList rfl rfl
  have hpage : Plain page 4001 := by
    refine ⟨List.length_replicate, fun c hc => ?_⟩
    rw [List.eq_of_mem_replicate hc]
    rfl
  rw [length_obj, entriesCost, List.map_singleton, List.sum_singleton, encode,
    length_quote_of_plain hkey, length_quote_of_plain hpage]

def pages : Returned cpython where
  value := .obj [(text "data", .str page)]
  kind := .inl rfl
  accepted := by simp [depth, depthEntries, cpython]
  size_lt := by
    show (encode _).length < 2 ^ 63
    rw [page_length]
    decide

theorem pages_compacted : 4000 < size pages.value ∧ ∃ result,
    compactToolReturn cpython pages.value = .ok result ∧ size result ≤ 4000 ∧
    compactToolReturn cpython result = .ok result := by
  obtain ⟨result, hok, hsize, -, hagain⟩ := compactToolReturn_spec pages
  refine ⟨?_, result, hok, hsize, hagain⟩
  show 4000 < (encode (.obj [(text "data", .str page)])).length
  rw [page_length]
  decide

end Galaris.Harness.ToolResults
