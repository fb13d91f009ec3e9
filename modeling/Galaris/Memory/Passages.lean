import Galaris.Base.Blocks
import Galaris.Base.Texts
import Mathlib.Data.List.Basic

/-! Passages of a document (`memory/passages.py`).

The blocks of a document are packed into passages of a number of words at most. A heading begins a new passage, and
a block that is too long is split: a table by its rows, with the header repeated, and another block with an
overlap. `passages_cover` says that nothing is lost and where each passage stands in the document. -/
namespace Galaris.Memory.Passages

open Texts

abbrev Text := List Char

/-- A block of the document (`html_blocks`) and its visible text. -/
structure Block where
  html : Text
  visible : Text

/-- `Passage`, of the blocks from the start to before the end. -/
structure Passage where
  text : Text
  blockStart : Nat
  blockEnd : Nat
  sectionPath : List Text

/-- `re.match(r"<name(?:\s|>)", html)`. -/
def opens (name html : Text) : Bool :=
  ('<' :: name).isPrefixOf html && (html.drop (name.length + 1)).head?.any fun c => isSpace c || c == '>'

/-- `re.match(r"<h([1-6])(?:\s|>)", html)`. -/
def headingLevel (html : Text) : Option Nat := [1, 2, 3, 4, 5, 6].find? fun level => opens ['h', level.digitChar] html

def joinLines (texts : List Text) : Text := ['\n'].intercalate texts
def joinWords (tokens : List Text) : Text := [' '].intercalate tokens

/-- The rows of a table: `lead` is what every window begins with, `pending` and `count` are the window so
far and its words. -/
def tableRows (lead : List Text) (headerWords maxWords : Nat) (pending : List Text) (count : Nat) :
    List Text → List Text
  | [] => if lead.length < pending.length then [joinLines pending] else []
  | row :: rows =>
    let tokens := words row
    let full := maxWords < count + tokens.length ∧ lead.length < pending.length
    let windows := if full then [joinLines pending] else []
    let pending := if full then lead else pending
    let count := if full then headerWords else count
    if maxWords < count + tokens.length then
      let (blocks, rest) := Blocks.cut (max 1 (maxWords - headerWords)) tokens
      let parts := if rest = [] then blocks else blocks ++ [rest]
      windows ++ parts.map (fun part => joinLines (lead ++ [joinWords part])) ++
        tableRows lead headerWords maxWords pending count rows
    else windows ++ tableRows lead headerWords maxWords (pending ++ [row]) (count + tokens.length) rows

/-- `_table_windows`. -/
def tableWindows (html text : Text) (maxWords : Nat) : List Text :=
  let rows := (Lines.bodies text).filter (strip · ≠ [])
  let lead := if html.tails.any (opens "th".toList) then rows.take 1 else []
  let rows := rows.drop lead.length
  let headerWords := (lead.flatMap words).length
  if rows = [] ∨ maxWords / 2 ≤ headerWords then [] else tableRows lead headerWords maxWords lead headerWords rows

/-- Slices of so many words, each `step` words after the last one, until the end is reached. -/
def slices (size step : Nat) (tokens : List Text) : List (List Text) :=
  tokens.take size :: if size < tokens.length ∧ 0 < step then slices size step (tokens.drop step) else []
termination_by tokens.length
decreasing_by
  rw [List.length_drop]
  omega

/-- The variables of `document_passages`. -/
structure State where
  passages : List Passage := []
  headings : List (Nat × Text) := []
  pending : List Text := []
  start : Nat := 0
  stop : Nat := 0
  count : Nat := 0

/-- `flush`. -/
def State.flush (s : State) : State :=
  if s.pending = [] then {s with count := 0}
  else {s with
    passages := s.passages ++ [⟨joinLines s.pending, s.start, s.stop, s.headings.map (·.2)⟩],
    pending := [], count := 0}

/-- A heading ends the passage and the sections of its level. -/
def State.enter (s : State) (html text : Text) : State :=
  match headingLevel html with
  | some level => {s.flush with headings := s.headings.filter (·.1 < level) ++ [(level, text)]}
  | none => s

/-- The texts of a block that is too long. -/
def split (maxWords : Nat) (html text : Text) : List Text :=
  let windows := if opens "table".toList html then tableWindows html text maxWords else []
  if windows = [] then (slices maxWords (maxWords - min 60 (maxWords / 6)) (words text)).map joinWords else windows

/-- A block is read. -/
def State.read (maxWords : Nat) (s : State) (index : Nat) (block : Block) : State :=
  let text := strip block.visible
  if text = [] then s
  else
    let s := s.enter block.html text
    let tokens := words text
    let s := if maxWords < s.count + tokens.length then s.flush else s
    if maxWords < tokens.length then
      {s with passages := s.passages ++
        (split maxWords block.html text).map fun text => ⟨text, index, index + 1, s.headings.map (·.2)⟩}
    else
      {s with
        pending := s.pending ++ [text], start := if s.pending = [] then index else s.start, stop := index + 1
        count := s.count + tokens.length}

/-- The blocks are read from an index on. -/
def State.readAll (maxWords : Nat) (s : State) (index : Nat) : List Block → State
  | [] => s
  | block :: blocks => (s.read maxWords index block).readAll maxWords (index + 1) blocks

/-- `document_passages`. -/
def documentPassages (maxWords : Nat) (blocks : List Block) : List Passage :=
    (State.readAll maxWords {} 0 blocks).flush.passages

/-! ### What passages are to tell -/

/-- Pieces tell the words in order after those told before: each repeats at most so many of the last ones,
or the header, and goes on. -/
inductive Told (header : List Text) (overlap : Nat) (ws : List Text) : List Text → List (List Text) → Prop
  | all : Told header overlap ws ws []
  | more {told repeated news : List Text} {rest : List (List Text)} :
    repeated <:+ told ∧ repeated.length ≤ overlap ∨ repeated = header → news ≠ [] →
    Told header overlap ws (told ++ news) rest →
      Told header overlap ws told ((repeated ++ news) :: rest)

/-- The passages that contain a block tell its words: either it is one passage, which has the words of all
its blocks, or they are passages of this block alone that tell its words one after the other. -/
def Tells (maxWords : Nat) (blocks : List Block) (index : Nat) (block : Block) (passages : List Passage) : Prop :=
  (∃ p, passages = [p] ∧ words p.text = ((blocks.drop p.blockStart).take
    (p.blockEnd - p.blockStart)).flatMap fun b => words b.visible) ∨
    (∀ p ∈ passages, p.blockStart = index ∧ p.blockEnd = index + 1) ∧ ∃ header,
    header <+: words block.visible ∧ (header ≠ [] → opens "table".toList block.html) ∧
      Told header (min 60 (maxWords / 6)) (words block.visible) [] (passages.map fun p => words p.text)

/-- The headings of the blocks, with their levels. -/
def headingsOf (blocks : List Block) : List (Nat × Text) :=
  blocks.filterMap fun block => if strip block.visible = [] then none
    else (headingLevel block.html).map fun level => (level, strip block.visible)

/-- Those that no later one of the same or a higher level has ended. -/
def inForce : List (Nat × Text) → List (Nat × Text)
  | [] => []
  | (level, text) :: rest => if rest.all (level < ·.1) then (level, text) :: inForce rest else inForce rest

/-- The passages of the first `done` blocks of a document. -/
structure Covers (maxWords : Nat) (blocks : List Block) (done : Nat) (passages : List Passage) : Prop where
  short : ∀ p ∈ passages, (words p.text).length ≤ maxWords
  bounds : ∀ p ∈ passages, p.blockStart < p.blockEnd ∧ p.blockEnd ≤ done
  ordered : passages.Pairwise fun p q => p.blockStart ≤ q.blockStart ∧ p.blockEnd ≤ q.blockEnd
  sections : ∀ p ∈ passages, p.sectionPath = (inForce (headingsOf (blocks.take (p.blockStart + 1)))).map (·.2)
  told : ∀ index < done, ∀ block, blocks[index]? = some block → strip block.visible ≠ [] →
    Tells maxWords blocks index block (passages.filter fun p => p.blockStart ≤ index ∧ index < p.blockEnd)
  done_le : done ≤ blocks.length

/-! ### Windows -/

variable {header ws told : List Text} {overlap : Nat}

theorem words_joinLines (texts : List Text) : words (joinLines texts) = texts.flatMap words :=
    words_intercalate rfl texts

theorem words_joinWords {text : Text} {tokens : List Text}
    (h : ∀ token ∈ tokens, token ∈ words text) : words (joinWords tokens) = tokens := by
  rw [joinWords, words_intercalate rfl, flatMap_words h]

/-- The slices of a text are no longer than that, and of its words. -/
theorem mem_slices {size step : Nat}
    {tokens slice : List Text} (h : slice ∈ slices size step tokens) :
    slice.length ≤ size ∧ ∀ token ∈ slice, token ∈ tokens := by
  fun_induction slices size step tokens with
  | case1 tokens ih =>
    obtain rfl | h := List.mem_cons.mp h
    · exact ⟨List.length_take_le _ _, fun _ => List.mem_of_mem_take⟩
    · split at h
      case isFalse => cases h
      case isTrue hmore =>
        obtain ⟨hlength, hmem⟩ := ih hmore h
        exact ⟨hlength, fun token htoken => List.mem_of_mem_drop (hmem token htoken)⟩

/-- Slices that overlap tell the words from where those before ended. -/
theorem told_slices {size : Nat} (hsize : overlap < size) (before : List Text) {tokens : List Text}
    {known : Nat} (hknown : known ≤ overlap)
    (hlong : known < tokens.length) :
    Told header overlap (before ++ tokens) (before ++ tokens.take known) (slices size (size - overlap) tokens) := by
  generalize hstep : size - overlap = step
  fun_induction slices size step tokens generalizing before known with
  | case1 tokens ih =>
    have hslice : tokens.take size = tokens.take known ++ (tokens.take size).drop known := by
      have htake : (tokens.take size).take known = tokens.take known := by
        rw [List.take_take, Nat.min_eq_left (by omega)]
      rw [← htake, List.take_append_drop]
    have hnews : (tokens.take size).drop known ≠ [] := by
      refine List.ne_nil_of_length_pos ?_
      rw [List.length_drop, List.length_take]
      omega
    have htold : before ++ tokens.take known ++ (tokens.take size).drop known = before ++ tokens.take size := by
      rw [List.append_assoc, ← hslice]
    rw [hslice]
    refine .more (.inl ⟨List.suffix_append _ _, by rw [List.length_take]; omega⟩) hnews ?_
    rw [htold]
    split
    case isFalse hlast =>
      rw [List.take_of_length_le (by omega)]
      exact .all
    case isTrue hmore =>
      -- The next slice begins with the last words of this one.
      have hwords : before ++ tokens.take step ++ tokens.drop step = before ++ tokens := by
        rw [List.append_assoc, List.take_append_drop]
      have hnext : before ++ tokens.take step ++ (tokens.drop step).take overlap = before ++ tokens.take size := by
        have hsum : size = step + overlap := by omega
        rw [hsum, List.take_add, List.append_assoc]
      rw [← hwords, ← hnext]
      refine ih hmore _ (Nat.le_refl _) ?_
      rw [List.length_drop]
      omega

/-- Windows that begin with the header tell the words after it. -/
theorem told_pieces {pieces : List (List Text)} (hne : ∀ piece ∈ pieces, piece ≠ []) :
    Told header overlap (told ++ pieces.flatten) told (pieces.map (header ++ ·)) := by
  induction pieces generalizing told with
  | nil =>
    rw [List.flatten_nil, List.append_nil]
    exact .all
  | cons piece pieces ih =>
    rw [List.flatten_cons, ← List.append_assoc]
    exact .more (.inr rfl) (hne piece (.head _)) (ih fun p hp => hne p (.tail _ hp))

theorem told_table {pieces : List (List Text)} (hne : ∀ piece ∈ pieces, piece ≠ []) (hsome : pieces ≠ []) :
    Told header overlap (header ++ pieces.flatten) [] (pieces.map (header ++ ·)) := by
  cases pieces with
  | nil => exact absurd rfl hsome
  | cons piece pieces =>
    have hpiece := hne piece (.head _)
    have hrest : Told header overlap ([] ++ (header ++ piece) ++ pieces.flatten)
        ([] ++ (header ++ piece)) (pieces.map (header ++ ·)) :=
      told_pieces fun p hp => hne p (.tail _ hp)
    rw [List.flatten_cons, ← List.append_assoc]
    show Told header overlap _ [] (([] ++ (header ++ piece)) :: _)
    exact .more (.inl ⟨List.nil_suffix, Nat.zero_le _⟩) (List.append_ne_nil_of_right_ne_nil _ hpiece) hrest

/-! ### Tables -/

section Tables
variable {lead pending rows : List Text} {headerWords maxWords count : Nat} {row : Text}

/-- The parts of a row that is too long. -/
def rowParts (capacity : Nat) (tokens : List Text) : List (List Text) :=
  if (Blocks.cut capacity tokens).2 = [] then (Blocks.cut capacity tokens).1
    else (Blocks.cut capacity tokens).1 ++ [(Blocks.cut capacity tokens).2]

theorem rowParts_flatten {capacity : Nat} (hcapacity : 0 < capacity) (tokens : List Text) :
    (rowParts capacity tokens).flatten = tokens := by
  have hcut := Blocks.isCut_cut hcapacity tokens
  rw [rowParts]
  split
  case isTrue hrest =>
    have hjoined := hcut.joined
    rwa [hrest, List.append_nil] at hjoined
  case isFalse => rw [List.flatten_append, List.flatten_singleton, hcut.joined]

theorem mem_rowParts {capacity : Nat} (hcapacity : 0 < capacity) {tokens part : List Text}
    (h : part ∈ rowParts capacity tokens) :
    part ≠ [] ∧ part.length ≤ capacity := by
  have hcut := Blocks.isCut_cut hcapacity tokens
  have hblock (block : List Text) (hblock : block ∈ (Blocks.cut capacity tokens).1) :
      block ≠ [] ∧ block.length ≤ capacity := by
    have hlength := hcut.length block hblock
    exact ⟨List.ne_nil_of_length_pos (by omega), by omega⟩
  rw [rowParts] at h
  split at h
  case isTrue => exact hblock part h
  case isFalse hrest =>
    obtain h | h := List.mem_append.mp h
    · exact hblock part h
    · obtain rfl := List.mem_singleton.mp h
      exact ⟨hrest, Nat.le_of_lt hcut.short⟩

/-- A row goes into the window. -/
theorem tableRows_room (h : ¬maxWords < count + (words row).length) :
    tableRows lead headerWords maxWords pending count (row :: rows) =
    tableRows lead headerWords maxWords (pending ++ [row]) (count + (words row).length) rows := by
  rw [tableRows]
  simp [h]

/-- A window that is full ends before the row. -/
theorem tableRows_full (h : maxWords < count + (words row).length) (hsome : lead.length < pending.length) :
    tableRows lead headerWords maxWords pending count (row :: rows) =
      joinLines pending :: tableRows lead headerWords maxWords lead headerWords (row :: rows) := by
  rw [tableRows, tableRows]
  simp only [h, hsome, and_self, if_true, Nat.lt_irrefl, and_false, if_false, List.nil_append]
  split <;> rfl

/-- A row that is too long for a window has windows of its own. -/
theorem tableRows_long (h : maxWords < count + (words row).length) (hnone : ¬lead.length < pending.length) :
    tableRows lead headerWords maxWords pending count (row :: rows) =
      (rowParts (max 1 (maxWords - headerWords)) (words row)).map (fun part => joinLines (lead ++ [joinWords part])) ++
        tableRows lead headerWords maxWords pending count rows := by
  rw [tableRows]
  simp [h, hnone, rowParts]

/-- The windows have the words, each some of them behind the header. -/
def Windows (header : List Text) (maxWords : Nat) (ws : List Text) (windows : List Text) : Prop :=
  ∃ pieces : List (List Text), windows.map words = pieces.map (header ++ ·) ∧ pieces.flatten = ws ∧
    ∀ piece ∈ pieces, piece ≠ [] ∧ header.length + piece.length ≤ maxWords

theorem Windows.nil : Windows header maxWords [] [] := ⟨[], rfl, rfl, nofun⟩

theorem Windows.append {ws ws' windows windows' : List Text}
    (h : Windows header maxWords ws windows) (h' : Windows header maxWords ws' windows') :
    Windows header maxWords (ws ++ ws') (windows ++ windows') := by
  obtain ⟨pieces, hwindows, rfl, hpieces⟩ := h
  obtain ⟨pieces', hwindows', rfl, hpieces'⟩ := h'
  refine ⟨pieces ++ pieces', by rw [List.map_append, hwindows, hwindows', List.map_append],
    List.flatten_append, fun piece hpiece => ?_⟩
  exact (List.mem_append.mp hpiece).elim (hpieces piece) (hpieces' piece)

/-- The window so far. -/
theorem Windows.window (hlead : lead.flatMap words = header) {more : List Text}
    (hmore : ∀ row ∈ more, words row ≠ []) (hsome : more ≠ [])
    (hcount : header.length + (more.flatMap words).length ≤ maxWords) :
    Windows header maxWords (more.flatMap words) [joinLines (lead ++ more)] := by
  refine ⟨[more.flatMap words], ?_, List.flatten_singleton, fun piece hpiece => ?_⟩
  · rw [List.map_singleton, words_joinLines, List.flatMap_append, hlead]
    rfl
  · obtain rfl := List.mem_singleton.mp hpiece
    refine ⟨?_, hcount⟩
    cases more with
    | nil => exact absurd rfl hsome
    | cons row more => exact List.append_ne_nil_of_left_ne_nil (hmore row (.head _)) _

/-- The windows of a row that is too long. -/
theorem Windows.long (hlead : lead.flatMap words = header) (hshort : header.length < maxWords) (row : Text) :
    Windows header maxWords (words row)
      ((rowParts (max 1 (maxWords - header.length)) (words row)).map fun part =>
        joinLines (lead ++ [joinWords part])) := by
  have hcapacity : 0 < max 1 (maxWords - header.length) := by omega
  have hflatten := rowParts_flatten hcapacity (words row)
  refine ⟨rowParts (max 1 (maxWords - header.length)) (words row), ?_, hflatten, fun part hpart => ?_⟩
  · rw [List.map_map]
    refine List.map_congr_left fun part hpart => ?_
    have hwords : words (joinWords part) = part :=
      words_joinWords fun token htoken => by rw [← hflatten]; exact List.mem_flatten.mpr ⟨part, hpart, htoken⟩
    simp [words_joinLines, hlead, hwords]
  · obtain ⟨hne, hlength⟩ := mem_rowParts hcapacity hpart
    exact ⟨hne, by omega⟩

/-- The windows of the rows have their words. -/
theorem tableRows_spec (hlead : lead.flatMap words = header) (hshort : header.length < maxWords)
    (more : List Text) (hmore : ∀ row ∈ more, words row ≠ [])
    (hrows : ∀ row ∈ rows, words row ≠ []) (hcount : header.length + (more.flatMap words).length ≤ maxWords) :
    Windows header maxWords (more.flatMap words ++ rows.flatMap words)
      (tableRows lead header.length maxWords (lead ++ more) (header.length + (more.flatMap words).length) rows) := by
  induction rows generalizing more with
  | nil =>
    rw [List.flatMap_nil, List.append_nil, tableRows]
    split
    case isTrue hsome =>
      refine Windows.window hlead hmore ?_ hcount
      rintro rfl
      rw [List.append_nil] at hsome
      exact Nat.lt_irrefl _ hsome
    case isFalse hnone =>
      have hnil : more = [] := by
        rw [List.length_append] at hnone
        exact List.eq_nil_of_length_eq_zero (by omega)
      rw [hnil]
      exact .nil
  | cons row rows ih =>
    have hrow := hrows row (.head _)
    have hrest := fun r hr => hrows r (List.mem_cons_of_mem row hr)
    -- A row after the windows before it, where the window is the header.
    have hfresh : Windows header maxWords ((row :: rows).flatMap words)
        (tableRows lead header.length maxWords lead header.length (row :: rows)) := by
      by_cases hlong : maxWords < header.length + (words row).length
      · have hnext := ih [] nofun hrest (by rw [List.flatMap_nil]; exact Nat.le_of_lt hshort)
        rw [List.append_nil, List.flatMap_nil, List.nil_append] at hnext
        rw [tableRows_long hlong (Nat.lt_irrefl _)]
        exact (Windows.long hlead hshort row).append hnext
      · have hsingle : [row].flatMap words = words row := List.flatMap_singleton ..
        have hnext := ih [row] (fun r hr => List.mem_singleton.mp hr ▸ hrow) hrest (by rw [hsingle]; omega)
        rw [hsingle] at hnext
        rw [tableRows_room hlong]
        exact hnext
    by_cases hlong : maxWords < header.length + (more.flatMap words).length + (words row).length
    · by_cases hsome : more = []
      · subst hsome
        rw [List.append_nil]
        exact hfresh
      · have hlength : lead.length < (lead ++ more).length := by
          have hpos := List.length_pos_of_ne_nil hsome
          rw [List.length_append]
          omega
        rw [tableRows_full hlong hlength]
        exact (Windows.window hlead hmore hsome hcount).append hfresh
    · have hmore' : (more ++ [row]).flatMap words = more.flatMap words ++ words row := by
        rw [List.flatMap_append, List.flatMap_singleton]
      have hnext := ih (more ++ [row]) (fun r hr => (List.mem_append.mp hr).elim (hmore r) fun hr =>
          List.mem_singleton.mp hr ▸ hrow) hrest
        (by rw [hmore', List.length_append]; omega)
      rw [hmore', List.length_append, ← Nat.add_assoc, ← List.append_assoc, List.append_assoc] at hnext
      rw [tableRows_room hlong]
      exact hnext

theorem flatMap_filter_strip (texts : List Text) :
    (texts.filter (strip · ≠ [])).flatMap words = texts.flatMap words := by
  induction texts with
  | nil => rfl
  | cons text texts ih =>
    rw [List.filter_cons, List.flatMap_cons, ← ih]
    by_cases hstrip : strip text = []
    · have hwords : words text = [] := by rw [← words_strip, hstrip, words_nil]
      rw [if_neg (by simp [hstrip]), hwords, List.nil_append]
    · rw [if_pos (by simp [hstrip]), List.flatMap_cons]

theorem tableWindows_spec {html text : Text} (hsome : tableWindows html text maxWords ≠ []) :
    ∃ header rest, words text = header ++ rest ∧ Windows header maxWords rest (tableWindows html text maxWords) := by
  unfold tableWindows
  extract_lets rows lead others headerWords
  split
  case isTrue hnone =>
    have hnil : tableWindows html text maxWords = [] := if_pos hnone
    exact absurd hnil hsome
  case isFalse hmore =>
    obtain ⟨-, hshort⟩ := not_or.mp hmore
    have hlead : lead ++ others = rows := by
      by_cases hheader : html.tails.any (opens "th".toList) = true
      · have htake : lead = rows.take 1 := if_pos hheader
        have hdrop : others = rows.drop lead.length := rfl
        rw [hdrop, htake, List.length_take]
        cases rows <;> rfl
      · have hnil : lead = [] := if_neg hheader
        have hdrop : others = rows.drop lead.length := rfl
        rw [hdrop, hnil]
        rfl
    have hwords : words text = lead.flatMap words ++ others.flatMap words := by
      rw [← List.flatMap_append, hlead, ← flatMap_words_bodies]
      exact (flatMap_filter_strip _).symm
    have hrows : ∀ row ∈ others, words row ≠ [] := by
      intro row hrow
      have hmem : row ∈ rows := by
        rw [← hlead]
        exact List.mem_append_right _ hrow
      exact words_ne_nil (of_decide_eq_true (List.mem_filter.mp hmem).2)
    have hheader : (lead.flatMap words).length < maxWords := by
      have hlength : (lead.flatMap words).length = headerWords := rfl
      omega
    have hspec := tableRows_spec rfl hheader [] nofun hrows (Nat.le_of_lt hheader)
    rw [List.append_nil, List.flatMap_nil, List.nil_append, List.length_nil, Nat.add_zero] at hspec
    exact ⟨_, _, hwords, hspec⟩

/-- The texts of a block that is too long are short enough, and tell its words. -/
theorem split_spec (hmax : 12 ≤ maxWords) {html text : Text} (hlong : maxWords < (words text).length) :
    (∀ part ∈ split maxWords html text, (words part).length ≤ maxWords) ∧ ∃ header,
    header <+: words text ∧ (header ≠ [] → opens "table".toList html) ∧
      Told header (min 60 (maxWords / 6)) (words text) [] ((split maxWords html text).map words) := by
  unfold split
  extract_lets windows
  split
  case isTrue =>
    have hsize : min 60 (maxWords / 6) < maxWords := by omega
    have hwords : ∀ slice ∈ slices maxWords (maxWords - min 60 (maxWords / 6)) (words text),
        words (joinWords slice) = slice :=
      fun slice hslice => words_joinWords (mem_slices hslice).2
    have htold : Told [] (min 60 (maxWords / 6)) ([] ++ words text) ([] ++ (words text).take 0) _ :=
        told_slices hsize [] (Nat.zero_le _) (by omega)
    refine ⟨fun part hpart => ?_, [], List.nil_prefix, fun h => absurd rfl h, ?_⟩
    · obtain ⟨slice, hslice, rfl⟩ := List.mem_map.mp hpart
      rw [hwords slice hslice]
      exact (mem_slices hslice).1
    · have hslices : (slices maxWords (maxWords - min 60 (maxWords / 6)) (words text)).map
          (words ∘ joinWords) = slices _ _ _ :=
        (List.map_congr_left hwords).trans (List.map_id' _)
      rw [List.map_map, hslices]
      exact htold
  case isFalse hsome =>
    have htable : opens "table".toList html = true := by
      by_contra htable
      exact hsome (if_neg htable)
    have hwindows : windows = tableWindows html text maxWords := if_pos htable
    rw [hwindows] at hsome ⊢
    obtain ⟨header, rest, hwords, pieces, hpieces, rfl, hshort⟩ := tableWindows_spec hsome
    refine ⟨fun part hpart => ?_, header, hwords ▸ List.prefix_append _ _, fun _ => htable, ?_⟩
    · have hmem := List.mem_map_of_mem (f := words) hpart
      rw [hpieces] at hmem
      obtain ⟨piece, hpiece, hpart⟩ := List.mem_map.mp hmem
      rw [← hpart, List.length_append]
      exact (hshort piece hpiece).2
    · rw [hpieces, hwords]
      refine told_table (fun piece hpiece => (hshort piece hpiece).1) ?_
      rintro rfl
      exact hsome (List.map_eq_nil_iff.mp hpieces)

end Tables

/-! ### Headings -/

/-- A heading ends the sections of its level and those below. -/
theorem inForce_snoc (headings : List (Nat × Text)) (level : Nat) (text : Text) :
    inForce (headings ++ [(level, text)]) = (inForce headings).filter (·.1 < level) ++ [(level, text)] := by
  induction headings with
  | nil => rfl
  | cons heading headings ih =>
    obtain ⟨level', text'⟩ := heading
    rw [List.cons_append, inForce, inForce, ih, List.all_append]
    by_cases hall : headings.all (level' < ·.1) = true <;> by_cases hlevel : level' < level <;> simp [hall, hlevel]

theorem headingsOf_snoc (blocks : List Block) (block : Block) :
    headingsOf (blocks ++ [block]) = headingsOf blocks ++ headingsOf [block] :=
  List.filterMap_append

theorem headingsOf_of_not {block : Block}
    (h : strip block.visible = [] ∨ headingLevel block.html = none) : headingsOf [block] = [] := by
  obtain h | h := h <;> simp [headingsOf, h]

/-! ### Blocks -/

variable {maxWords done : Nat} {blocks more : List Block} {passages : List Passage}

theorem Tells.grow {index : Nat} {block : Block} (h : Tells maxWords blocks index block passages)
    (hend : ∀ p ∈ passages, p.blockEnd ≤ blocks.length) :
    Tells maxWords (blocks ++ more) index block passages := by
  refine h.imp_left ?_
  rintro ⟨p, rfl, hwords⟩
  have hle := hend p (.head _)
  refine ⟨p, rfl, ?_⟩
  rw [hwords]
  by_cases hstart : p.blockStart ≤ blocks.length
  · rw [List.drop_append_of_le_length hstart, List.take_append_of_le_length (by rw [List.length_drop]; omega)]
  · have hnone : p.blockEnd - p.blockStart = 0 := by omega
    rw [hnone, List.take_zero, List.take_zero]

theorem Covers.grow (h : Covers maxWords blocks done passages) (more : List Block) :
    Covers maxWords (blocks ++ more) done passages where
  short := h.short
  bounds := h.bounds
  ordered := h.ordered
  sections p hp := by
    have hbounds := h.bounds p hp
    have hle := h.done_le
    rw [List.take_append_of_le_length (by omega)]
    exact h.sections p hp
  told index hindex block hblock hvisible := by
    rw [List.getElem?_append_left (Nat.lt_of_lt_of_le hindex h.done_le)] at hblock
    exact (h.told index hindex block hblock hvisible).grow fun p hp =>
      (h.bounds p (List.mem_filter.mp hp).1).2.trans h.done_le
  done_le := h.done_le.trans (by rw [List.length_append]; exact Nat.le_add_right ..)

/-- Passages of the blocks from `first` to before `last`, which are all the blocks left that can be seen. -/
theorem Covers.add (h : Covers maxWords blocks done passages) {news : List Passage}
    {first last done' : Nat} (hfirst : done ≤ first) (hlast : first < last)
    (hdone : last ≤ done') (hlength : done' ≤ blocks.length)
    (hbounds : ∀ p ∈ news, p.blockStart = first ∧ p.blockEnd = last)
    (hshort : ∀ p ∈ news, (words p.text).length ≤ maxWords)
    (hsections : ∀ p ∈ news, p.sectionPath = (inForce (headingsOf (blocks.take (first + 1)))).map (·.2))
    (htold : ∀ index, done ≤ index → index < done' → ∀ block, blocks[index]? = some block → strip block.visible ≠ [] →
      (first ≤ index ∧ index < last) ∧ Tells maxWords blocks index block news) :
      Covers maxWords blocks done' (passages ++ news) where
  short p hp := (List.mem_append.mp hp).elim (h.short p) (hshort p)
  bounds p hp := by
    obtain hp | hp := List.mem_append.mp hp
    · have hold := h.bounds p hp
      omega
    · have hnew := hbounds p hp
      omega
  ordered := by
    refine List.pairwise_append.mpr ⟨h.ordered, ?_, fun p hp q hq => ?_⟩
    · refine List.pairwise_of_forall_mem_list fun p hp q hq => ?_
      have hp' := hbounds p hp
      have hq' := hbounds q hq
      omega
    · have hold := h.bounds p hp
      have hnew := hbounds q hq
      omega
  sections p hp := by
    obtain hp | hp := List.mem_append.mp hp
    · exact h.sections p hp
    · rw [(hbounds p hp).1]
      exact hsections p hp
  told index hindex block hblock hvisible := by
    rw [List.filter_append]
    by_cases hold : index < done
    · have hnone : news.filter (fun p => p.blockStart ≤ index ∧ index < p.blockEnd) = [] := by
        refine List.filter_eq_nil_iff.mpr fun p hp => ?_
        have hnew := hbounds p hp
        simp
        omega
      rw [hnone, List.append_nil]
      exact h.told index hold block hblock hvisible
    · obtain ⟨⟨hfrom, hto⟩, htells⟩ := htold index (Nat.le_of_not_lt hold) hindex block hblock hvisible
      have hnone : passages.filter (fun p => p.blockStart ≤ index ∧ index < p.blockEnd) = [] := by
        refine List.filter_eq_nil_iff.mpr fun p hp => ?_
        have hbefore := h.bounds p hp
        simp
        omega
      have hall : news.filter (fun p => p.blockStart ≤ index ∧ index < p.blockEnd) = news := by
        refine List.filter_eq_self.mpr fun p hp => ?_
        have hnew := hbounds p hp
        simp
        omega
      rw [hnone, hall]
      exact htells
  done_le := hlength

theorem Covers.nil : Covers maxWords [] 0 [] := ⟨nofun, nofun, .nil, nofun, nofun, Nat.le_refl _⟩

/-- Blocks that cannot be seen have no passages. -/
theorem Covers.skip (h : Covers maxWords blocks done passages) {done' : Nat} (hdone : done ≤ done')
    (hlength : done' ≤ blocks.length)
    (hnone : ∀ index, done ≤ index → index < done' → ∀ block, blocks[index]? = some block → strip block.visible = []) :
    Covers maxWords blocks done' passages where
  short := h.short
  bounds p hp := by
    have hbounds := h.bounds p hp
    omega
  ordered := h.ordered
  sections := h.sections
  told index hindex block hblock hvisible := by
    by_cases hold : index < done
    · exact h.told index hold block hblock hvisible
    · exact absurd (hnone index (Nat.le_of_not_lt hold) hindex block hblock) hvisible
  done_le := hlength

/-! ### Reading -/

/-- After the blocks: what is pending are the blocks from the start on that can be seen, under the headings
in force at the first one. -/
structure Placed (maxWords : Nat) (blocks : List Block) (s : State) : Prop where
  covers : Covers maxWords blocks (if s.pending = [] then blocks.length else s.start) s.passages
  count : s.count = (s.pending.flatMap words).length
  room : s.count ≤ maxWords
  range : s.pending ≠ [] → s.start < s.stop ∧ s.stop ≤ blocks.length
  told : s.pending ≠ [] → s.pending.flatMap words = (blocks.drop s.start).flatMap fun b => words b.visible
  last : s.pending ≠ [] → ∀ block ∈ blocks.drop s.stop, strip block.visible = []
  sections : s.pending ≠ [] → s.headings = inForce (headingsOf (blocks.take (s.start + 1)))

variable {s : State} {block : Block}

theorem words_of_unseen {block : Block} (h : strip block.visible = []) : words block.visible = [] := by
  rw [← words_strip, h, words_nil]

theorem Placed.empty : Placed maxWords [] {} := ⟨.nil, rfl, Nat.zero_le _, nofun, nofun, nofun, nofun⟩

theorem flush_of_nil (h : s.pending = []) : s.flush = {s with count := 0} := if_pos h

theorem flush_of_ne (h : s.pending ≠ []) : s.flush =
    {s with
      passages := s.passages ++ [⟨joinLines s.pending, s.start, s.stop, s.headings.map (·.2)⟩],
      pending := [], count := 0} := if_neg h

theorem flush_pending (s : State) : s.flush.pending = [] := by
  rw [State.flush]
  split
  case isTrue h => exact h
  case isFalse => rfl

theorem flush_headings (s : State) : s.flush.headings = s.headings := by
  rw [State.flush]
  split <;> rfl

theorem flush_count (s : State) : s.flush.count = 0 := by
  rw [State.flush]
  split <;> rfl

/-- Where nothing is pending all blocks have their passages. -/
theorem placed_of_nil (hnil : s.pending = []) (hcount : s.count = 0)
    (h : Covers maxWords blocks blocks.length s.passages) : Placed maxWords blocks s := by
  refine ⟨?_, ?_, ?_, fun hne => absurd hnil hne, fun hne => absurd hnil hne,
    fun hne => absurd hnil hne, fun hne => absurd hnil hne⟩
  · rw [if_pos hnil]
    exact h
  · rw [hnil, hcount]
    rfl
  · rw [hcount]
    exact Nat.zero_le _

theorem Placed.covers_of_nil (h : Placed maxWords blocks s) (hnil : s.pending = []) :
    Covers maxWords blocks blocks.length s.passages := by
  have hcovers := h.covers
  rwa [if_pos hnil] at hcovers

theorem Placed.covers_of_ne (h : Placed maxWords blocks s) (hne : s.pending ≠ []) :
    Covers maxWords blocks s.start s.passages := by
  have hcovers := h.covers
  rwa [if_neg hne] at hcovers

theorem Placed.flush (h : Placed maxWords blocks s) : Covers maxWords blocks blocks.length s.flush.passages := by
  by_cases hnil : s.pending = []
  · rw [flush_of_nil hnil]
    exact h.covers_of_nil hnil
  · obtain ⟨hrange, hstop⟩ := h.range hnil
    have hwords : words (joinLines s.pending) =
        ((blocks.drop s.start).take (s.stop - s.start)).flatMap fun b => words b.visible := by
      have hrest : (blocks.drop s.stop).flatMap (fun b => words b.visible) = [] :=
        List.flatMap_eq_nil_iff.mpr fun b hb => words_of_unseen (h.last hnil b hb)
      have hsplit := List.take_append_drop (s.stop - s.start) (blocks.drop s.start)
      rw [List.drop_drop, Nat.add_sub_cancel' (Nat.le_of_lt hrange)] at hsplit
      rw [words_joinLines, h.told hnil, ← hsplit, List.flatMap_append, hrest, List.append_nil, hsplit]
    rw [flush_of_ne hnil]
    refine (h.covers_of_ne hnil).add (Nat.le_refl _) hrange hstop (Nat.le_refl _) (fun p hp => ?_)
      (fun p hp => ?_) (fun p hp => ?_) fun index hindex hlt block hblock hvisible =>
      ⟨⟨hindex, ?_⟩, ?_⟩
    · obtain rfl := List.mem_singleton.mp hp
      exact ⟨rfl, rfl⟩
    · obtain rfl := List.mem_singleton.mp hp
      rw [words_joinLines, ← h.count]
      exact h.room
    · obtain rfl := List.mem_singleton.mp hp
      rw [h.sections hnil]
    · by_contra hafter
      refine hvisible (h.last hnil block ?_)
      refine List.mem_of_getElem? (i := index - s.stop) ?_
      rw [List.getElem?_drop, Nat.add_sub_cancel' (Nat.le_of_not_lt hafter), hblock]
    · exact .inl ⟨_, rfl, hwords⟩

theorem Placed.flushed (h : Placed maxWords blocks s) : Placed maxWords blocks s.flush :=
    placed_of_nil (flush_pending s) (flush_count s) h.flush

/-- A block that cannot be seen changes nothing. -/
theorem Placed.unseen (h : Placed maxWords blocks s) (hblock : strip block.visible = []) :
    Placed maxWords (blocks ++ [block]) s := by
  by_cases hnil : s.pending = []
  · have hgrown := (h.covers_of_nil hnil).grow [block]
    refine placed_of_nil hnil (by rw [h.count, hnil]; rfl)
      (hgrown.skip hgrown.done_le (Nat.le_refl _) fun index hindex hlt b hb => ?_)
    rw [List.getElem?_append_right hindex] at hb
    obtain rfl := List.mem_singleton.mp (List.mem_of_getElem? hb)
    exact hblock
  · obtain ⟨hrange, hstop⟩ := h.range hnil
    refine ⟨?_, h.count, h.room,
      fun _ => ⟨hrange, hstop.trans (by rw [List.length_append]; exact Nat.le_add_right ..)⟩,
      fun _ => ?_, fun _ b hb => ?_, fun _ => ?_⟩
    · rw [if_neg hnil]
      exact (h.covers_of_ne hnil).grow [block]
    · rw [List.drop_append_of_le_length (by omega), List.flatMap_append, List.flatMap_singleton,
        words_of_unseen hblock, List.append_nil, h.told hnil]
    · rw [List.drop_append_of_le_length hstop] at hb
      obtain hb | hb := List.mem_append.mp hb
      · exact h.last hnil b hb
      · obtain rfl := List.mem_singleton.mp hb
        exact hblock
    · rw [List.take_append_of_le_length (by omega)]
      exact h.sections hnil

/-- A block is entered: a heading ends what is pending, and its section is in force. -/
theorem Placed.enter (h : Placed maxWords blocks s)
    (hheadings : s.headings = inForce (headingsOf blocks)) (hseen : strip block.visible ≠ []) :
    Placed maxWords blocks (s.enter block.html (strip block.visible)) ∧
      (s.enter block.html (strip block.visible)).headings = inForce (headingsOf (blocks ++ [block])) := by
  rw [State.enter, headingsOf_snoc]
  cases hlevel : headingLevel block.html with
  | some level =>
    have hheading : headingsOf [block] = [(level, strip block.visible)] := by simp [headingsOf, hseen, hlevel]
    rw [hheading, inForce_snoc, ← hheadings]
    exact ⟨placed_of_nil (flush_pending s) (flush_count s) h.flush, rfl⟩
  | none =>
    rw [headingsOf_of_not (.inr hlevel), List.append_nil]
    exact ⟨h, hheadings⟩

/-- A block that is short enough is pending. -/
theorem Placed.put (h : Placed maxWords blocks s) (hheadings : s.headings = inForce (headingsOf (blocks ++ [block])))
    (hroom : s.count + (words (strip block.visible)).length ≤ maxWords) :
    Placed maxWords (blocks ++ [block])
      {s with
        pending := s.pending ++ [strip block.visible], start :=
          if s.pending = [] then blocks.length else s.start, stop := blocks.length + 1
        count := s.count + (words (strip block.visible)).length} := by
  have hne : s.pending ++ [strip block.visible] ≠ [] := List.append_ne_nil_of_right_ne_nil _ (List.cons_ne_nil _ _)
  have hlength : (blocks ++ [block]).length = blocks.length + 1 := by rw [List.length_append, List.length_singleton]
  refine ⟨?_, ?_, hroom, fun _ => ?_, fun _ => ?_, fun _ => ?_, fun _ => ?_⟩
  · rw [if_neg hne]
    by_cases hnil : s.pending = []
    · simp only [if_pos hnil]
      exact (h.covers_of_nil hnil).grow [block]
    · simp only [if_neg hnil]
      exact (h.covers_of_ne hnil).grow [block]
  · rw [List.flatMap_append, List.length_append, ← h.count, List.flatMap_singleton]
  · by_cases hnil : s.pending = []
    · simp only [if_pos hnil]
      omega
    · have hrange := h.range hnil
      simp only [if_neg hnil]
      omega
  · rw [List.flatMap_append, List.flatMap_singleton, words_strip]
    by_cases hnil : s.pending = []
    · simp only [hnil, if_true, List.flatMap_nil, List.nil_append]
      rw [List.drop_append_of_le_length (Nat.le_refl _), List.drop_length, List.nil_append, List.flatMap_singleton]
    · have hrange := h.range hnil
      simp only [if_neg hnil]
      rw [List.drop_append_of_le_length (by omega), List.flatMap_append, List.flatMap_singleton, h.told hnil]
  · rw [List.drop_of_length_le (Nat.le_of_eq hlength)]
    exact nofun
  · by_cases hnil : s.pending = []
    · simp only [if_pos hnil]
      rw [List.take_of_length_le (Nat.le_of_eq hlength), hheadings]
    · have hrange := h.range hnil
      simp only [if_neg hnil]
      rw [List.take_append_of_le_length (by omega)]
      exact h.sections hnil

/-- A block that is too long has passages of its own. -/
theorem Placed.split (hmax : 12 ≤ maxWords) (h : Placed maxWords blocks s) (hnil : s.pending = [])
    (hheadings : s.headings = inForce (headingsOf (blocks ++ [block])))
    (hlong : maxWords < (words (strip block.visible)).length) :
    Placed maxWords (blocks ++ [block])
      {s with passages := s.passages ++ (Passages.split maxWords block.html (strip block.visible)).map fun text =>
        ⟨text, blocks.length, blocks.length + 1, s.headings.map (·.2)⟩} := by
  have hlength : (blocks ++ [block]).length = blocks.length + 1 := by rw [List.length_append, List.length_singleton]
  obtain ⟨hshort, header, hprefix, htable, htold⟩ := @split_spec _ hmax block.html _ hlong
  rw [words_strip] at hprefix htold
  refine placed_of_nil hnil (by rw [h.count, hnil]; rfl) ?_
  refine ((h.covers_of_nil hnil).grow [block]).add (Nat.le_refl _) (Nat.lt_succ_self _)
    (Nat.le_of_eq hlength.symm) (Nat.le_refl _) (fun p hp => ?_)
    (fun p hp => ?_) (fun p hp => ?_) fun index hindex hlt b hb _ => ?_
  · obtain ⟨_, -, rfl⟩ := List.mem_map.mp hp
    exact ⟨rfl, rfl⟩
  · obtain ⟨part, hpart, rfl⟩ := List.mem_map.mp hp
    exact hshort part hpart
  · obtain ⟨_, -, rfl⟩ := List.mem_map.mp hp
    rw [List.take_of_length_le (Nat.le_of_eq hlength), hheadings]
  · have heq : index = blocks.length := by omega
    subst heq
    rw [List.getElem?_append_right (Nat.le_refl _), Nat.sub_self] at hb
    obtain rfl : block = b := Option.some.inj hb
    refine ⟨⟨Nat.le_refl _, Nat.lt_succ_self _⟩, .inr ⟨fun p hp => ?_, header, hprefix, htable, ?_⟩⟩
    · obtain ⟨_, -, rfl⟩ := List.mem_map.mp hp
      exact ⟨rfl, rfl⟩
    · rw [List.map_map]
      exact htold

/-- A block is read after those before it. -/
theorem Placed.read (hmax : 12 ≤ maxWords) (h : Placed maxWords blocks s)
    (hheadings : s.headings = inForce (headingsOf blocks)) (block : Block) :
    Placed maxWords (blocks ++ [block]) (s.read maxWords blocks.length block) ∧
      (s.read maxWords blocks.length block).headings = inForce (headingsOf (blocks ++ [block])) := by
  by_cases hseen : strip block.visible = []
  · have hread : s.read maxWords blocks.length block = s := if_pos hseen
    rw [hread, headingsOf_snoc, headingsOf_of_not (.inl hseen), List.append_nil]
    exact ⟨h.unseen hseen, hheadings⟩
  · obtain ⟨hentered, hsections⟩ := h.enter hheadings hseen
    unfold State.read
    extract_lets text entered tokens ready
    rw [if_neg hseen]
    have hready : Placed maxWords blocks ready ∧ ready.headings = inForce (headingsOf (blocks ++ [block])) ∧
        (ready.count + tokens.length ≤ maxWords ∨ ready.pending = []) := by
      by_cases hfull : maxWords < entered.count + tokens.length
      · have hflush : ready = entered.flush := if_pos hfull
        rw [hflush]
        exact ⟨hentered.flushed, (flush_headings entered).trans hsections, .inr (flush_pending entered)⟩
      · have hsame : ready = entered := if_neg hfull
        rw [hsame]
        exact ⟨hentered, hsections, .inl (Nat.le_of_not_lt hfull)⟩
    obtain ⟨hplaced, hready, hroom⟩ := hready
    split
    case isTrue hlong =>
      have hnil := hroom.resolve_left (by omega)
      exact ⟨hplaced.split hmax hnil hready hlong, hready⟩
    case isFalse hshort =>
      have hfits : ready.count + tokens.length ≤ maxWords := by
        obtain hfits | hnil := hroom
        · exact hfits
        · have hcount := hplaced.count
          rw [hnil, List.flatMap_nil, List.length_nil] at hcount
          omega
      exact ⟨hplaced.put hready hfits, hready⟩

theorem Placed.readAll (hmax : 12 ≤ maxWords) (h : Placed maxWords blocks s)
    (hheadings : s.headings = inForce (headingsOf blocks)) (more : List Block) :
    Placed maxWords (blocks ++ more) (s.readAll maxWords blocks.length more) := by
  induction more generalizing blocks s with
  | nil =>
    rw [List.append_nil]
    exact h
  | cons block more ih =>
    obtain ⟨hplaced, hsections⟩ := h.read hmax hheadings block
    have hrest := ih hplaced hsections
    rw [List.append_assoc, List.length_append] at hrest
    exact hrest

/-- The passages of a document have so many words at most, cover blocks of it in order, each under the
headings in force at its first block, and tell the words of every block that can be seen. -/
theorem passages_cover (maxWords : Nat) (hmax : 12 ≤ maxWords) (blocks : List Block) :
    Covers maxWords blocks blocks.length (documentPassages maxWords blocks) :=
  (Placed.empty.readAll hmax rfl blocks).flush

/-- A heading and a paragraph of thirteen words. -/
def sample : List Block :=
  [⟨"<h1>Plan</h1>".toList, "Plan".toList⟩,
    ⟨"<p>a b c d e f g h i j k l m</p>".toList, "a b c d e f g h i j k l m".toList⟩]

theorem sample_covered : Covers 12 sample 2 (documentPassages 12 sample) := passages_cover 12 (by decide) sample

end Galaris.Memory.Passages
