import Galaris.FileShare.ResourceUri
import Galaris.Base.Results

/-! Accepted URIs are canonical and confined.

What a locator is rewritten to is the rendering of parts that are confined (`Confined`): not empty, no
`.` and no `..`, without separators and controls. A rendering is read back as its parts
(`pathParts_render`) and is normalized to itself (`normalizeLocator_render`); the texts of UUIDs are
quoted as they are, so the locators of documents and memories are renderings too. -/
namespace Galaris.FileShare

open Percent
open Texts (isSpace stripOf)

/-! ### Texts -/

theorem dropWhile_of_head {p : Char → Bool} {text : Text} (h : ∀ c ∈ text.head?, p c = false) :
    text.dropWhile p = text := by
  cases text with
  | nil => rfl
  | cons c rest => rw [List.dropWhile_cons_of_neg (by rw [h c rfl]; exact Bool.false_ne_true)]

/-- Nothing is stripped from a text whose ends are kept. -/
theorem strip_of_ends {p : Char → Bool} {text : Text} (hhead : ∀ c ∈ text.head?, p c = false)
    (hlast : ∀ c ∈ text.getLast?, p c = false) :
    stripOf p text = text := by
  unfold stripOf
  rw [dropWhile_of_head hhead, dropWhile_of_head (by rwa [List.head?_reverse]), List.reverse_reverse]

theorem strip_of_all {p : Char → Bool} {text : Text} (h : ∀ c ∈ text, p c = false) : stripOf p text = text :=
  strip_of_ends (fun c hc => h c (List.mem_of_mem_head? hc)) fun c hc => h c (List.mem_of_getLast? hc)

theorem removeFrom_of_not_mem {first : Char} {pattern text : Text} (h : first ∉ text) (fuel : Nat) :
    removeFrom (first :: pattern) fuel text = text := by
  induction fuel generalizing text with
  | zero => rfl
  | succ fuel ih =>
    cases text with
    | nil => rfl
    | cons c rest =>
      obtain ⟨hne, hrest⟩ := List.ne_and_not_mem_of_not_mem_cons h
      unfold removeFrom
      rw [if_neg, ih hrest]
      rw [List.isPrefixOf_iff_prefix]
      exact fun hprefix => hne (List.cons_prefix_cons.mp hprefix).1

/-- The characters that are written for a part. -/
def written (c : Char) : Bool := ascii c && !isSpace c && !control c && !"\\?#/".toList.contains c

theorem written_of_ascii {p : Char → Bool}
    (hall : ∀ n : Fin 128, p (Char.ofNat n) = true → written (Char.ofNat n) = true) {c : Char}
    (hascii : ascii c = true) (hc : p c = true) : written c = true := by
  have hless : c.toNat < 128 := of_decide_eq_true hascii
  have hwritten := hall ⟨c.toNat, hless⟩
  rw [Char.ofNat_toNat] at hwritten
  exact hwritten hc

theorem safe_percent : safeInPart '%' = false := by decide

theorem written_of_mem_quote {part : Text} {c : Char} (h : c ∈ quote safeInPart part) : written c = true := by
  obtain ⟨hascii, hsafe | rfl | ⟨n, hn, rfl⟩⟩ := mem_quote h
  · exact written_of_ascii (p := safeInPart) (by decide +kernel) hascii hsafe
  · decide
  · have hall : ∀ n : Fin 16, written (hexDigit n) = true := by decide
    exact hall ⟨n, hn⟩

theorem quote_ne_nil {part : Text} (h : part ≠ []) : quote safeInPart part ≠ [] := by
  intro hnil
  have hread := unquote_quote safe_percent part
  rw [hnil] at hread
  exact h hread.symm

/-! ### Paths -/

/-- A part that stays in its collection. -/
structure Confined (part : Text) : Prop where
  nonempty : part ≠ []
  notDot : part ≠ ['.']
  notParent : part ≠ ['.', '.']
  separator : '/' ∉ part
  controls : ∀ c ∈ part, control c = false

/-- A path of parts, and what ends it. -/
def path (parts : List Text) (trailing : Bool) : Text :=
  ['/'].intercalate parts ++ if trailing && !parts.isEmpty then ['/'] else []

theorem render_eq_path {parts : List Text} (h : ∀ part ∈ parts, part ≠ []) (trailing : Bool) :
    render parts trailing = path (parts.map (quote safeInPart)) trailing := by
  have hempty : (['/'].intercalate (parts.map (quote safeInPart))).isEmpty = parts.isEmpty := by
    cases parts with
    | nil => rfl
    | cons part rest =>
      have hpart := quote_ne_nil (h part List.mem_cons_self)
      rw [List.map_cons]
      cases hrest : rest.map (quote safeInPart) with
      | nil =>
        rw [List.intercalate_singleton]
        simpa using hpart
      | cons other more =>
        rw [List.intercalate_cons_cons]
        simp
  unfold render path
  dsimp only
  rw [hempty, List.isEmpty_map]
  split
  · rfl
  · rw [List.append_nil]

theorem splitOn_path {parts : List Text} (hnonempty : ∀ part ∈ parts, part ≠ [])
    (hseparator : ∀ part ∈ parts, '/' ∉ part) (trailing : Bool) :
    ((path parts trailing).splitOn '/').filter (fun part => !part.isEmpty) = parts := by
  cases parts with
  | nil =>
    unfold path
    simp [List.intercalate]
  | cons part rest =>
    have hsplit : (['/'].intercalate (part :: rest)).splitOn '/' = part :: rest :=
      List.splitOn_intercalate '/' hseparator (List.cons_ne_nil _ _)
    have hall : (part :: rest).filter (fun part => !part.isEmpty) = part :: rest :=
      List.filter_eq_self.mpr fun other hother => by simpa using hnonempty other hother
    unfold path
    cases trailing with
    | false =>
      rw [Bool.false_and, if_neg Bool.false_ne_true, List.append_nil, hsplit]
      exact hall
    | true =>
      show ((['/'].intercalate (part :: rest) ++ ['/']).splitOn '/').filter _ = _
      rw [List.splitOn_append_cons_self, hsplit, List.filter_append, hall]
      simp

/-- The pieces of a text have its characters, and no separator. -/
theorem mem_splitOn {text piece : Text} (h : piece ∈ text.splitOn '/') : '/' ∉ piece ∧ ∀ c ∈ piece, c ∈ text := by
  induction text generalizing piece with
  | nil =>
    rw [List.splitOn_nil] at h
    rw [List.mem_singleton.mp h]
    exact ⟨List.not_mem_nil, fun c hc => hc⟩
  | cons first rest ih =>
    rw [List.splitOn_cons_eq_if_modifyHead] at h
    split at h
    case isTrue =>
      obtain rfl | h := List.mem_cons.mp h
      · exact ⟨List.not_mem_nil, fun c hc => absurd hc List.not_mem_nil⟩
      · exact ⟨(ih h).1, fun c hc => List.mem_cons_of_mem _ ((ih h).2 c hc)⟩
    case isFalse hne =>
      cases hsplit : rest.splitOn '/' with
      | nil => exact absurd hsplit (List.splitOn_ne_nil _ _)
      | cons head more =>
        rw [hsplit, List.modifyHead_cons] at h
        obtain rfl | h := List.mem_cons.mp h
        · obtain ⟨hseparator, hmem⟩ := ih (hsplit ▸ List.mem_cons_self)
          refine ⟨fun hslash => ?_, fun c hc => ?_⟩
          · obtain heq | hslash := List.mem_cons.mp hslash
            · exact hne (beq_iff_eq.mpr heq.symm)
            · exact hseparator hslash
          · obtain rfl | hc := List.mem_cons.mp hc
            · exact List.mem_cons_self
            · exact List.mem_cons_of_mem _ (hmem c hc)
        · have hpiece := ih (hsplit ▸ List.mem_cons_of_mem _ h)
          exact ⟨hpiece.1, fun c hc => List.mem_cons_of_mem _ (hpiece.2 c hc)⟩

theorem mem_path {parts : List Text} {trailing : Bool} {c : Char} (h : c ∈ path parts trailing) :
    c = '/' ∨ ∃ part ∈ parts, c ∈ part := by
  have hjoined : ∀ parts : List Text, c ∈ ['/'].intercalate parts → c = '/' ∨ ∃ part ∈ parts, c ∈ part := by
    intro parts
    induction parts with
    | nil => exact fun h => nomatch h
    | cons part rest ih =>
      cases rest with
      | nil =>
        rw [List.intercalate_singleton]
        exact fun h => .inr ⟨part, List.mem_cons_self, h⟩
      | cons other more =>
        rw [List.intercalate_cons_cons, List.append_assoc, List.mem_append, List.mem_append, List.mem_singleton]
        rintro (h | rfl | h)
        · exact .inr ⟨part, List.mem_cons_self, h⟩
        · exact .inl rfl
        · obtain heq | ⟨found, hfound, hc⟩ := ih h
          · exact .inl heq
          · exact .inr ⟨found, List.mem_cons_of_mem _ hfound, hc⟩
  unfold path at h
  obtain h | h := List.mem_append.mp h
  · exact hjoined parts h
  · split at h
    · exact .inl (List.mem_singleton.mp h)
    · cases h

/-- What is written of a path is plain, or a separator. -/
theorem written_of_mem_path {parts : List Text} {trailing : Bool} {c : Char}
    (h : c ∈ path (parts.map (quote safeInPart)) trailing) :
    c = '/' ∨ written c = true := by
  obtain rfl | ⟨part, hpart, hc⟩ := mem_path h
  · exact .inl rfl
  · obtain ⟨original, -, rfl⟩ := List.mem_map.mp hpart
    exact .inr (written_of_mem_quote hc)

theorem unquoteToBytes_path {parts : List Text} (trailing : Bool) :
    unquoteToBytes (path (parts.map (quote safeInPart)) trailing) =
        (path parts trailing).flatMap String.utf8EncodeChar := by
  have hslash : ∀ rest, unquoteToBytes ('/' :: rest) = String.utf8EncodeChar '/' ++ unquoteToBytes rest := fun rest =>
    unquoteToBytes_cons (by decide) rest
  have hjoined : ∀ (parts : List Text) (rest : Text),
      unquoteToBytes (['/'].intercalate (parts.map (quote safeInPart)) ++ rest) =
      (['/'].intercalate parts).flatMap String.utf8EncodeChar ++ unquoteToBytes rest := by
    intro parts rest
    induction parts with
    | nil => rfl
    | cons part others ih =>
      cases others with
      | nil =>
        rw [List.map_cons, List.map_nil, List.intercalate_singleton, List.intercalate_singleton,
          unquoteToBytes_quote safe_percent]
      | cons other more =>
        rw [List.map_cons] at ih
        rw [List.map_cons, List.map_cons, List.intercalate_cons_cons, List.intercalate_cons_cons,
          List.append_assoc, List.append_assoc,
          unquoteToBytes_quote safe_percent, List.singleton_append, hslash, ih, List.flatMap_append,
            List.flatMap_append,
          List.flatMap_singleton, List.append_assoc, List.append_assoc]
  unfold path
  rw [hjoined, List.flatMap_append, List.isEmpty_map]
  split
  · rfl
  · rfl

theorem unquote_path (parts : List Text) (trailing : Bool) :
    unquote (path (parts.map (quote safeInPart)) trailing) = path parts trailing := by
  rw [unquote_ascii fun c hc => ?_, unquoteToBytes_path, decode_encode]
  obtain rfl | hwritten := written_of_mem_path hc
  · rfl
  · unfold written at hwritten
    rw [Bool.and_eq_true, Bool.and_eq_true, Bool.and_eq_true] at hwritten
    exact hwritten.1.1.1

/-- What is stripped would make no part. -/
theorem pathParts_eq (text : Text) : pathParts text = (text.splitOn '/').filter fun part => !part.isEmpty := by
  have hleft : ∀ text : Text, ((text.dropWhile (· == '/')).splitOn '/').filter (fun part => !part.isEmpty) =
      (text.splitOn '/').filter fun part => !part.isEmpty := by
    intro text
    induction text with
    | nil => rfl
    | cons c rest ih =>
      by_cases hc : (c == '/') = true
      · rw [List.dropWhile_cons, if_pos hc, ih, List.splitOn_cons_eq_if_modifyHead, if_pos hc]
        rfl
      · rw [List.dropWhile_cons, if_neg hc]
  have hright : ∀ text : Text, ((text.dropWhile (· == '/')).reverse.splitOn '/').filter (fun part => !part.isEmpty) =
      (text.reverse.splitOn '/').filter fun part => !part.isEmpty := by
    intro text
    induction text with
    | nil => rfl
    | cons c rest ih =>
      by_cases hc : (c == '/') = true
      · rw [List.dropWhile_cons, if_pos hc, ih, List.reverse_cons, eq_of_beq hc,
          List.splitOn_append_cons_self, List.filter_append]
        simp
      · rw [List.dropWhile_cons, if_neg hc]
  unfold pathParts stripOf
  rw [hright, List.reverse_reverse, hleft]

theorem pathParts_path {parts : List Text} (hnonempty : ∀ part ∈ parts, part ≠ [])
    (hseparator : ∀ part ∈ parts, '/' ∉ part)
    (trailing : Bool) : pathParts (path parts trailing) = parts := by
  rw [pathParts_eq, splitOn_path hnonempty hseparator]

/-! ### Rendering -/

variable {parts : List Text}

theorem pathParts_render (h : ∀ part ∈ parts, Confined part) (trailing : Bool) :
    pathParts (render parts trailing) = parts.map (quote safeInPart) := by
  rw [render_eq_path fun part hpart => (h part hpart).nonempty]
  refine pathParts_path (fun part hpart => ?_) (fun part hpart hslash => ?_) trailing
  · obtain ⟨original, horiginal, rfl⟩ := List.mem_map.mp hpart
    exact quote_ne_nil (h original horiginal).nonempty
  · obtain ⟨original, -, rfl⟩ := List.mem_map.mp hpart
    exact absurd (written_of_mem_quote hslash) (by decide)

/-- What is read of a rendering are its parts. -/
theorem pathParts_unquote_render (h : ∀ part ∈ parts, Confined part) (trailing : Bool) :
    pathParts (unquote (render parts trailing)) = parts := by
  rw [render_eq_path fun part hpart => (h part hpart).nonempty, unquote_path]
  exact pathParts_path (fun part hpart => (h part hpart).nonempty) (fun part hpart => (h part hpart).separator) trailing

theorem render_isEmpty (h : ∀ part ∈ parts, Confined part) (trailing : Bool) :
    (render parts trailing).isEmpty = parts.isEmpty := by
  have hread := pathParts_unquote_render h trailing
  cases parts with
  | nil => cases trailing <;> rfl
  | cons part rest =>
    cases hrender : render (part :: rest) trailing with
    | nil =>
      rw [hrender] at hread
      cases hread
    | cons c more => rfl

theorem written_of_mem_render (h : ∀ part ∈ parts, Confined part) {trailing : Bool} {c : Char}
    (hc : c ∈ render parts trailing) :
    c = '/' ∨ written c = true := by
  rw [render_eq_path fun part hpart => (h part hpart).nonempty] at hc
  exact written_of_mem_path hc

/-- A rendering ends with a separator where it is one of a collection. -/
theorem render_getLast (h : ∀ part ∈ parts, Confined part) (trailing : Bool) :
    ((render parts trailing).getLast? == some '/') = (trailing && !parts.isEmpty) := by
  rw [render_eq_path fun part hpart => (h part hpart).nonempty]
  cases parts with
  | nil => simp [path, List.intercalate]
  | cons part rest =>
    cases trailing with
    | true =>
      show ((['/'].intercalate ((part :: rest).map (quote safeInPart)) ++ ['/']).getLast? == some '/') = true
      rw [List.getLast?_append, List.getLast?_singleton]
      rfl
    | false =>
      show ((['/'].intercalate ((part :: rest).map (quote safeInPart)) ++ []).getLast? == some '/') = false
      rw [List.append_nil, beq_eq_false_iff_ne]
      intro hlast
      -- Splitting a text that ends so leaves an empty part.
      obtain ⟨before, hbefore⟩ := List.getLast?_eq_some_iff.mp hlast
      have hsplit : (['/'].intercalate ((part :: rest).map (quote safeInPart))).splitOn '/' =
          (part :: rest).map (quote safeInPart) := by
        refine List.splitOn_intercalate '/' (fun other hother hslash => ?_) (List.cons_ne_nil _ _)
        obtain ⟨original, -, rfl⟩ := List.mem_map.mp hother
        exact absurd (written_of_mem_quote hslash) (by decide)
      rw [hbefore, List.splitOn_append_cons_self, List.splitOn_nil] at hsplit
      have hnil : [] ∈ (part :: rest).map (quote safeInPart) := by
        rw [← hsplit]
        exact List.mem_append_right _ (List.mem_singleton.mpr rfl)
      obtain ⟨original, horiginal, hnil⟩ := List.mem_map.mp hnil
      exact quote_ne_nil (h original horiginal).nonempty hnil

theorem render_trailing (h : ∀ part ∈ parts, Confined part) (trailing : Bool) :
    render parts ((render parts trailing).getLast? == some '/') = render parts trailing := by
  rw [render_getLast h, render_eq_path fun part hpart => (h part hpart).nonempty,
    render_eq_path fun part hpart => (h part hpart).nonempty]
  unfold path
  rw [List.isEmpty_map]
  cases trailing <;> cases parts <;> rfl

/-- A rendering of confined parts is normalized to itself. -/
theorem normalizeLocator_render (env : Env) (h : ∀ part ∈ parts, Confined part) (trailing : Bool) {allowEmpty : Bool}
    (hempty : parts = [] → allowEmpty = true) :
    normalizeLocator env (render parts trailing) allowEmpty = .ok (render parts trailing) := by
  have hwritten : ∀ p : Char → Bool, p '/' = false → (∀ c, written c = true → p c = false) →
      ∀ c ∈ render parts trailing, p c = false := by
    intro p hslash hall c hc
    obtain rfl | hc := written_of_mem_render h hc
    · exact hslash
    · exact hall c hc
  have hfields : ∀ c, written c = true → ascii c = true ∧ isSpace c = false ∧ control c = false ∧
      c ≠ '\\' ∧ c ≠ '?' ∧ c ≠ '#' := by
    intro c hc
    unfold written at hc
    simp only [Bool.and_eq_true, Bool.not_eq_true'] at hc
    refine ⟨hc.1.1.1, hc.1.1.2, hc.1.2, ?_⟩
    have hnot := hc.2
    refine ⟨?_, ?_, ?_⟩
    · rintro rfl
      exact absurd hnot (by decide)
    · rintro rfl
      exact absurd hnot (by decide)
    · rintro rfl
      exact absurd hnot (by decide)
  have hstrip : stripOf isSpace (render parts trailing) = render parts trailing :=
    strip_of_all (hwritten isSpace (by decide) fun c hc => (hfields c hc).2.1)
  have hmap : (render parts trailing).map (fun c => if c = '\\' then '/' else c) = render parts trailing := by
    refine (List.map_congr_left fun c hc => ?_).trans (List.map_id _)
    have hne : (c == '\\') = false :=
        hwritten (· == '\\') (by decide) (fun d hd => beq_false_of_ne (hfields d hd).2.2.2.1) c hc
    exact if_neg (ne_of_beq_false hne)
  have hraw : env.nfc ((stripOf isSpace (render parts trailing)).map fun c => if c = '\\' then '/'
      else c) = render parts trailing := by
    rw [hstrip, hmap]
    refine env.nfc_ascii _ fun c hc => ?_
    obtain rfl | hc := written_of_mem_render h hc
    · rfl
    · exact (hfields c hc).1
  have hcontrols : (render parts trailing).any control = false :=
    List.any_eq_false.mpr fun c hc =>
      Bool.not_eq_true _ ▸ hwritten control (by decide) (fun d hd => (hfields d hd).2.2.1) c hc
  have hquery : ((render parts trailing).contains '?' || (render parts trailing).contains '#') = false := by
    rw [Bool.or_eq_false_iff, List.contains_eq_mem, List.contains_eq_mem, decide_eq_false_iff_not,
      decide_eq_false_iff_not]
    constructor
    · exact fun hc => absurd (hwritten (· == '?') (by decide)
        (fun d hd => beq_false_of_ne (hfields d hd).2.2.2.2.1) _ hc) (by decide)
    · exact fun hc => absurd (hwritten (· == '#') (by decide)
        (fun d hd => beq_false_of_ne (hfields d hd).2.2.2.2.2) _ hc) (by decide)
  have hdecoded : unquote (render parts trailing) = path parts trailing := by
    rw [render_eq_path fun part hpart => (h part hpart).nonempty, unquote_path]
  have hencoded : (path parts trailing).any control = false := by
    refine List.any_eq_false.mpr fun c hc => ?_
    rw [Bool.not_eq_true]
    obtain rfl | ⟨part, hpart, hc⟩ := mem_path hc
    · decide
    · exact (h part hpart).controls c hc
  have hparts : ((path parts trailing).splitOn '/').filter (fun part => !part.isEmpty && part != ['.']) = parts := by
    have hcomm : (fun part : Text => !part.isEmpty && part != ['.']) = fun part => part != ['.'] && !part.isEmpty :=
      funext fun part => Bool.and_comm _ _
    rw [hcomm, ← List.filter_filter, splitOn_path
      (fun part hpart => (h part hpart).nonempty) fun part hpart => (h part hpart).separator]
    exact List.filter_eq_self.mpr fun part hpart => bne_iff_ne.mpr (h part hpart).notDot
  have hparent : parts.contains ['.', '.'] = false := by
    rw [List.contains_eq_mem, decide_eq_false_iff_not]
    exact fun hmem => (h _ hmem).notParent rfl
  have haccepted : ((render parts trailing).isEmpty && !allowEmpty) = false := by
    rw [render_isEmpty h]
    cases parts with
    | nil => rw [hempty rfl]; rfl
    | cons part rest => rfl
  unfold normalizeLocator
  dsimp only
  rw [hraw, hcontrols, if_neg Bool.false_ne_true, hquery, if_neg Bool.false_ne_true, hdecoded,
    hencoded, if_neg Bool.false_ne_true, hparts,
    hparent, if_neg Bool.false_ne_true, render_trailing h, haccepted, if_neg Bool.false_ne_true]

/-- What is normalized is a rendering of confined parts. -/
theorem normalizeLocator_eq_ok {env : Env} {locator : Text} {allowEmpty : Bool} {result : Text}
    (hok : normalizeLocator env locator allowEmpty = .ok result) :
    ∃ parts trailing, result = render parts trailing ∧ (∀ part ∈ parts, Confined part) ∧
    (parts = [] → allowEmpty = true) := by
  unfold normalizeLocator at hok
  dsimp only at hok
  split at hok
  case isTrue => cases hok
  case isFalse =>
    split at hok
    case isTrue => cases hok
    case isFalse =>
      split at hok
      case isTrue => cases hok
      case isFalse hcontrols =>
        split at hok
        case isTrue => cases hok
        case isFalse hparent =>
          split at hok
          case isTrue => cases hok
          case isFalse hempty =>
            have hconfined : ∀ part ∈ ((unquote (env.nfc ((stripOf isSpace locator).map fun c =>
                if c = '\\' then '/' else c))).splitOn '/').filter
                (fun part => !part.isEmpty && part != ['.']), Confined part := by
              intro part hpart
              obtain ⟨hmem, hkept⟩ := List.mem_filter.mp hpart
              rw [Bool.and_eq_true, Bool.not_eq_true', bne_iff_ne] at hkept
              refine ⟨fun hnil => ?_, hkept.2, fun heq => ?_, ?_, ?_⟩
              · rw [hnil] at hkept
                exact Bool.false_ne_true hkept.1.symm
              · exact hparent (List.contains_iff_mem.mpr (heq ▸ hpart))
              · exact (mem_splitOn hmem).1
              · intro c hc
                have hany := List.any_eq_false.mp (Bool.not_eq_true _ ▸ hcontrols) c ((mem_splitOn hmem).2 c hc)
                exact Bool.not_eq_true _ ▸ hany
            refine ⟨_, _, (Except.ok.inj hok).symm, hconfined, fun hnil => ?_⟩
            rw [render_isEmpty hconfined, hnil] at hempty
            simpa using hempty

/-! ### UUIDs -/

/-- The characters of a UUID, hyphens apart. -/
def hexChar (c : Char) : Bool := "0123456789abcdef".toList.contains c

theorem hexChar_hexLower {n : Nat} (h : n < 16) : hexChar (hexLower n) = true := by
  have hall : ∀ n : Fin 16, hexChar (hexLower n) = true := by decide
  exact hall ⟨n, h⟩

theorem hexValue_hexLower {n : Nat} (h : n < 16) : hexValue (hexLower n) = some n := by
  have hall : ∀ n : Fin 16, hexValue (hexLower n) = some n.val := by decide
  exact hall ⟨n, h⟩

theorem of_hexChar {p : Char → Prop} (hall : ∀ c ∈ "0123456789abcdef".toList, p c) {c : Char}
    (h : hexChar c = true) : p c :=
  hall c (List.contains_iff_mem.mp h)

theorem hexChar_of_mem {count n : Nat} {c : Char} (h : c ∈ hexDigits count n) : hexChar c = true := by
  induction count generalizing n with
  | zero => cases h
  | succ count ih =>
    obtain h | h := List.mem_append.mp h
    · exact ih h
    · rw [List.mem_singleton.mp h]
      exact hexChar_hexLower (Nat.mod_lt _ (by decide))

theorem hexDigits_length (count n : Nat) : (hexDigits count n).length = count := by
  induction count generalizing n with
  | zero => rfl
  | succ count ih => rw [hexDigits, List.length_append, ih, List.length_singleton]

/-- The digits are those of the number. -/
theorem foldl_hexDigits (count n start : Nat) :
    (hexDigits count n).foldl (fun n c => n * 16 + (hexValue c).getD 0) start =
    start * 16 ^ count + n % 16 ^ count := by
  induction count generalizing n with
  | zero => simp [hexDigits, Nat.mod_one]
  | succ count ih =>
    rw [hexDigits, List.foldl_append, ih, List.foldl_cons, List.foldl_nil,
      hexValue_hexLower (Nat.mod_lt _ (by decide)), Option.getD_some,
      Nat.pow_succ', Nat.mod_mul, Nat.mul_left_comm start]
    omega

theorem uuidText_mem {n : Nat} {c : Char} (h : c ∈ uuidText n) : hexChar c = true ∨ c = '-' := by
  unfold uuidText at h
  dsimp only at h
  have hpart : ∀ {part : Text}, part.Sublist (hexDigits 32 n) → c ∈ part → hexChar c = true := fun hsub hc =>
    hexChar_of_mem (hsub.subset hc)
  have htake : ∀ a b, (((hexDigits 32 n).drop a).take b).Sublist (hexDigits 32 n) := fun a b =>
    (List.take_sublist _ _).trans (List.drop_sublist _ _)
  simp only [List.mem_append, List.mem_cons] at h
  obtain h | rfl | h | rfl | h | rfl | h | rfl | h := h
  · exact .inl (hpart (List.take_sublist _ _) h)
  · exact .inr rfl
  · exact .inl (hpart (htake 8 4) h)
  · exact .inr rfl
  · exact .inl (hpart (htake 12 4) h)
  · exact .inr rfl
  · exact .inl (hpart (htake 16 4) h)
  · exact .inr rfl
  · exact .inl (hpart (List.drop_sublist _ _) h)

/-- Of every character of a UUID. -/
theorem uuidText_all {p : Char → Prop} (hall : ∀ c ∈ "-0123456789abcdef".toList, p c) {n : Nat}
    {c : Char} (h : c ∈ uuidText n) : p c := by
  obtain h | rfl := uuidText_mem h
  · exact of_hexChar (fun d hd => hall d (List.mem_cons_of_mem _ hd)) h
  · exact hall '-' (by decide)

theorem uuidText_filter (n : Nat) : (uuidText n).filter (· ≠ '-') = hexDigits 32 n := by
  have hkept : ∀ part : Text, part.Sublist (hexDigits 32 n) → part.filter (· ≠ '-') = part := by
    intro part hsub
    refine List.filter_eq_self.mpr fun c hc => decide_eq_true ?_
    exact of_hexChar (p := (· ≠ '-')) (forall_of_all (by decide)) (hexChar_of_mem (hsub.subset hc))
  have hdrop : ∀ a b, (((hexDigits 32 n).drop a).take b) ++ (hexDigits 32 n).drop (a + b) =
      (hexDigits 32 n).drop a := by
    intro a b
    rw [← List.drop_drop, List.take_append_drop]
  unfold uuidText
  simp only [List.filter_append, List.filter_cons, ne_eq, not_true_eq_false, decide_false, Bool.false_eq_true, if_false]
  have hsub : ∀ a b, (((hexDigits 32 n).drop a).take b).Sublist (hexDigits 32 n) := fun a b =>
    (List.take_sublist _ _).trans (List.drop_sublist _ _)
  have h0 := hkept _ (List.take_sublist 8 (hexDigits 32 n))
  have h1 := hkept _ (hsub 8 4)
  have h2 := hkept _ (hsub 12 4)
  have h3 := hkept _ (hsub 16 4)
  have h4 := hkept _ (List.drop_sublist 20 (hexDigits 32 n))
  simp only [ne_eq] at h0 h1 h2 h3 h4
  rw [h0, h1, h2, h3, h4, hdrop 16 4, hdrop 12 4, hdrop 8 4, List.take_append_drop]

theorem int16_hexDigits (env : Env) {n : Nat} (h : n < 2 ^ 128) : int16 env (hexDigits 32 n) = some n := by
  have hchar : ∀ {p : Char → Prop}, (∀ c ∈ "0123456789abcdef".toList, p c) → ∀ c ∈ hexDigits 32 n,
      p c := fun hall c hc =>
    of_hexChar hall (hexChar_of_mem hc)
  have htransformed : (hexDigits 32 n).map (transformed env) = hexDigits 32 n := by
    refine (List.map_congr_left fun c hc => ?_).trans (List.map_id _)
    have hascii : ascii c = true := hchar (p := fun c => ascii c = true) (forall_of_all (by decide)) c hc
    exact if_pos hascii
  have hstrip : stripOf skipped (hexDigits 32 n) = hexDigits 32 n :=
      strip_of_all (hchar (p := fun c => skipped c = false) (forall_of_all (by decide)))
  have hplus : (hexDigits 32 n).head? ≠ some '+' := fun hhead =>
    hchar (p := (· ≠ '+')) (forall_of_all (by decide)) _ (List.mem_of_mem_head? hhead) rfl
  have hx : ∀ {c : Char} {rest : Text}, c = 'x' ∨ c = 'X' → hexDigits 32 n ≠ '0' :: c :: rest := by
    intro c rest hc heq
    have hmem : c ∈ hexDigits 32 n := by
      rw [heq]
      exact List.mem_cons_of_mem _ List.mem_cons_self
    exact hchar (p := fun c => ¬ (c = 'x' ∨ c = 'X')) (forall_of_all (by decide)) c hmem hc
  have hgroups : groups (hexDigits 32 n) = some n := by
    have hnot : '_' ∉ hexDigits 32 n := fun hmem => hchar (p := (· ≠ '_')) (forall_of_all (by decide)) _ hmem rfl
    have hall : (hexDigits 32 n).all (fun c => (hexValue c).isSome) = true :=
      List.all_eq_true.mpr (hchar (p := fun c => (hexValue c).isSome = true) (forall_of_all (by decide)))
    have hempty : (hexDigits 32 n).isEmpty = false := by
      rw [List.isEmpty_eq_false_iff_exists_mem]
      exact ⟨(hexDigits 32 n).getLast (by rw [← List.length_pos_iff, hexDigits_length]; decide), List.getLast_mem _⟩
    have hfilter : (hexDigits 32 n).filter (· ≠ '_') = hexDigits 32 n :=
      List.filter_eq_self.mpr fun c hc => decide_eq_true (hchar (p := (· ≠ '_')) (forall_of_all (by decide)) c hc)
    unfold groups
    rw [List.splitOn_eq_singleton hnot, List.all_cons, List.all_nil, hempty, hall, hfilter, foldl_hexDigits]
    rw [Nat.zero_mul, Nat.zero_add, Nat.mod_eq_of_lt (by simpa using h)]
    rfl
  unfold int16
  dsimp only
  rw [htransformed, hstrip, if_neg hplus]
  split
  case h_1 heq => exact absurd heq (hx (.inl rfl))
  case h_2 heq => exact absurd heq (hx (.inr rfl))
  case h_3 heq => exact absurd heq (hx (.inl rfl))
  case h_4 heq => exact absurd heq (hx (.inr rfl))
  case h_5 => exact hgroups

/-- The text of a UUID is read back. -/
theorem parseUuid_uuidText (env : Env) {n : Nat} (h : n < 2 ^ 128) : parseUuid env (uuidText n) = some n := by
  have hremove : ∀ pattern : Text, remove ('u' :: pattern) (uuidText n) = uuidText n := fun pattern =>
    removeFrom_of_not_mem (fun hmem => uuidText_all (p := (· ≠ 'u')) (forall_of_all (by decide)) hmem rfl) _
  have hstrip : stripOf (fun c => c == '{' || c == '}') (uuidText n) = uuidText n :=
    strip_of_all fun c hc => uuidText_all (p := fun c => (c == '{' || c == '}') = false) (forall_of_all (by decide)) hc
  unfold parseUuid
  dsimp only
  have hurn : remove "urn:".toList (uuidText n) = uuidText n := hremove "rn:".toList
  have huuid : remove "uuid:".toList (uuidText n) = uuidText n := hremove "uid:".toList
  rw [hurn, huuid, hstrip, uuidText_filter, hexDigits_length, if_neg (by decide), int16_hexDigits env h]
  exact Option.filter_some_pos (decide_eq_true h)

/-- What is read is a number of 128 bits. -/
theorem parseUuid_lt {env : Env} {text : Text} {n : Nat} (h : parseUuid env text = some n) : n < 2 ^ 128 := by
  unfold parseUuid at h
  dsimp only at h
  split at h
  case isTrue => cases h
  case isFalse => exact of_decide_eq_true (Option.filter_eq_some_iff.mp h).2

theorem uuidText_confined (n : Nat) : Confined (uuidText n) where
  nonempty := by simp [uuidText]
  notDot heq := by
    have hmem : '-' ∈ uuidText n := by simp [uuidText]
    rw [heq] at hmem
    exact absurd hmem (by decide)
  notParent heq := by
    have hmem : '-' ∈ uuidText n := by simp [uuidText]
    rw [heq] at hmem
    exact absurd hmem (by decide)
  separator hmem := uuidText_all (p := (· ≠ '/')) (forall_of_all (by decide)) hmem rfl
  controls c hc := uuidText_all (p := fun c => control c = false) (forall_of_all (by decide)) hc

theorem quote_uuidText (n : Nat) : quote safeInPart (uuidText n) = uuidText n :=
  quote_of_safe fun c hc =>
    uuidText_all (p := fun c => ascii c = true ∧ safeInPart c = true) (forall_of_all (by decide)) hc

/-! ### Schemes -/

theorem path_one (part : Text) : path [part] false = part := by
  unfold path
  rw [List.intercalate_singleton, Bool.false_and, if_neg Bool.false_ne_true, List.append_nil]

theorem path_collection (first second : Text) : path [first, second] true = first ++ ('/' :: second) ++ ['/'] := by
  unfold path
  rw [List.intercalate_cons_cons, List.intercalate_singleton]
  simp

theorem path_three (first second third : Text) :
    path [first, second, third] false = first ++ ('/' :: second ++ ['/']) ++ third := by
  unfold path
  rw [List.intercalate_cons_cons, List.intercalate_cons_cons, List.intercalate_singleton,
    Bool.false_and, if_neg Bool.false_ne_true,
    List.append_nil]
  simp

/-- A part that is written as it is. -/
def Plain (part : Text) : Prop := Confined part ∧ quote safeInPart part = part

theorem Plain.unquote {part : Text} (h : Plain part) : unquote part = part := by
  have hread := unquote_quote safe_percent part
  rwa [h.2] at hread

theorem uuidText_plain (n : Nat) : Plain (uuidText n) := ⟨uuidText_confined n, quote_uuidText n⟩

theorem folders_plain : Plain folders :=
  ⟨⟨by decide, by decide, by decide, by decide, forall_of_all (by decide)⟩, quote_of_safe (forall_of_all (by decide))⟩

theorem attachments_plain : Plain attachments :=
  ⟨⟨by decide, by decide, by decide, by decide, forall_of_all (by decide)⟩, quote_of_safe (forall_of_all (by decide))⟩

theorem uuidText_ne_folders (n : Nat) : uuidText n ≠ folders := by
  intro heq
  have hmem : '-' ∈ uuidText n := by simp [uuidText]
  rw [heq] at hmem
  exact absurd hmem (by decide)

theorem map_quote_plain (h : ∀ part ∈ parts, Plain part) : parts.map (quote safeInPart) = parts :=
  (List.map_congr_left fun part hpart => (h part hpart).2).trans (List.map_id _)

theorem render_plain (h : ∀ part ∈ parts, Plain part) (trailing : Bool) :
    render parts trailing = path parts trailing := by
  rw [render_eq_path fun part hpart => (h part hpart).1.nonempty, map_quote_plain h]

theorem pathParts_render_plain (h : ∀ part ∈ parts, Plain part) (trailing : Bool) :
    pathParts (render parts trailing) = parts := by
  rw [pathParts_render fun part hpart => (h part hpart).1, map_quote_plain h]

theorem plain_cons {part : Text} (h : Plain part) (hparts : ∀ other ∈ parts, Plain other) :
    ∀ other ∈ part :: parts, Plain other := by
  intro other hother
  obtain rfl | hother := List.mem_cons.mp hother
  · exact h
  · exact hparts other hother

theorem plain_nil : ∀ part ∈ ([] : List Text), Plain part := fun _ hpart => absurd hpart List.not_mem_nil

theorem render_uuid (id : Nat) : uuidText id = render [uuidText id] false := by
  rw [render_plain (plain_cons (uuidText_plain id) plain_nil), path_one]

theorem render_folders : "folders/".toList = render [folders] true := by
  rw [render_plain (plain_cons folders_plain plain_nil)]
  decide

theorem render_folder (id : Nat) : "folders/".toList ++ uuidText id ++ ['/'] = render [folders, uuidText id] true := by
  have hprefix : "folders/".toList = folders ++ ['/'] := by decide
  rw [render_plain (plain_cons folders_plain (plain_cons (uuidText_plain id) plain_nil)), path_collection, hprefix,
    List.append_assoc folders, List.singleton_append]

theorem render_attachments (id : Nat) :
    uuidText id ++ "/attachments/".toList = render [uuidText id, attachments] true := by
  have hprefix : "/attachments/".toList = '/' :: attachments ++ ['/'] := by decide
  rw [render_plain (plain_cons (uuidText_plain id) (plain_cons attachments_plain plain_nil)), path_collection, hprefix,
    List.append_assoc]

theorem render_attachment (id other : Nat) :
    uuidText id ++ "/attachments/".toList ++ uuidText other = render
        [uuidText id, attachments, uuidText other] false := by
  have hprefix : "/attachments/".toList = '/' :: attachments ++ ['/'] := by decide
  have hplain : ∀ part ∈ [uuidText id, attachments, uuidText other], Plain part :=
    plain_cons (uuidText_plain id) (plain_cons attachments_plain (plain_cons (uuidText_plain other) plain_nil))
  rw [render_plain hplain, path_three, hprefix]

/-- What a locator of a provider is rewritten to: a rendering that is rewritten to itself. -/
def Canonical (rewrite : Text → Except String Text) (result : Text) : Prop :=
  ∃ parts trailing, result = render parts trailing ∧ (∀ part ∈ parts, Confined part) ∧ rewrite result = .ok result

theorem fileLocator_canonical {env : Env} {locator result : Text} {allowEmpty : Bool}
    (h : fileLocator env locator allowEmpty = .ok result) :
    Canonical (fileLocator env · allowEmpty) result := by
  unfold fileLocator at h
  split at h
  case isTrue hempty =>
    obtain rfl := Except.ok.inj h
    refine ⟨[], false, rfl, fun part hpart => absurd hpart List.not_mem_nil, ?_⟩
    exact if_pos (Bool.and_eq_true_iff.mp hempty).2
  case isFalse =>
    split at h
    case h_1 => cases h
    case h_2 id hid =>
      split at h
      case isTrue => cases h
      case isFalse =>
        obtain rfl := Except.ok.inj h
        have hplain : ∀ part ∈ [uuidText id], Plain part := plain_cons (uuidText_plain id) plain_nil
        refine ⟨[uuidText id], false, render_uuid id, fun part hpart => (hplain part hpart).1, ?_⟩
        · have hlower : (uuidText id).map Char.toLower = uuidText id :=
            (List.map_congr_left fun c hc => uuidText_all (p := fun c => c.toLower = c)
              (forall_of_all (by decide)) hc).trans (List.map_id _)
          have hempty : ((uuidText id).isEmpty && allowEmpty) = false := by
            rw [Bool.and_eq_false_iff]
            exact .inl (by simpa using (uuidText_confined id).nonempty)
          show fileLocator env (uuidText id) allowEmpty = _
          unfold fileLocator
          rw [hempty, if_neg Bool.false_ne_true, parseUuid_uuidText env (parseUuid_lt hid)]
          dsimp only
          rw [hlower, if_neg fun hne => hne rfl]

theorem memoryLocator_canonical {env : Env} {normalized result : Text} (h : memoryLocator env normalized = .ok result) :
    ∃ id, result = uuidText id ∧ Canonical (memoryLocator env) result := by
  unfold memoryLocator at h
  split at h
  case h_2 => cases h
  case h_1 part hpart =>
    split at h
    case h_1 => cases h
    case h_2 id hid =>
      obtain rfl := Except.ok.inj h
      have hplain : ∀ part ∈ [uuidText id], Plain part := plain_cons (uuidText_plain id) plain_nil
      refine ⟨id, rfl, [uuidText id], false, render_uuid id, fun part hpart => (hplain part hpart).1, ?_⟩
      unfold memoryLocator
      conv => lhs; rw [render_uuid]
      rw [pathParts_render_plain hplain]
      dsimp only
      rw [(uuidText_plain id).unquote, parseUuid_uuidText env (parseUuid_lt hid)]

theorem documentLocator_canonical {env : Env} {scheme normalized result : Text}
    (h : documentLocator env scheme normalized = .ok result) :
    Canonical (documentLocator env scheme) result := by
  have hfolder : ∀ (more : List Text), (∀ part ∈ more, Plain part) → ∀ trailing, scheme = document →
      folderLocator env (folders :: more) = .ok (render (folders :: more) trailing) →
        documentLocator env scheme (render (folders :: more) trailing) = .ok (render (folders :: more) trailing) := by
    intro more hmore trailing hscheme hresult
    have hplain : ∀ part ∈ folders :: more, Plain part := by
      intro part hpart
      obtain rfl | hpart := List.mem_cons.mp hpart
      · exact folders_plain
      · exact hmore part hpart
    unfold documentLocator
    rw [pathParts_render_plain hplain]
    dsimp only
    rw [hscheme, folders_plain.unquote, beq_self_eq_true, beq_self_eq_true, Bool.and_self, if_pos rfl]
    exact hresult
  have hnot : ∀ id, (scheme == document && unquote (uuidText id) == folders) = false := by
    intro id
    rw [(uuidText_plain id).unquote, Bool.and_eq_false_iff]
    exact .inr (beq_false_of_ne (uuidText_ne_folders id))
  unfold documentLocator at h
  split at h
  case h_1 => cases h
  case h_2 part rest hparts =>
    split at h
    case isTrue hfolders =>
      have hscheme : scheme = document := eq_of_beq (Bool.and_eq_true_iff.mp hfolders).1
      unfold folderLocator at h
      split at h
      case h_1 =>
        have hplain : ∀ part ∈ [folders], Plain part := plain_cons folders_plain plain_nil
        rw [render_folders] at h
        obtain rfl := Except.ok.inj h
        exact ⟨[folders], true, rfl, fun part hpart => (hplain part hpart).1,
          hfolder [] plain_nil true hscheme (congrArg Except.ok render_folders)⟩
      case h_2 folder _ =>
        split at h
        case h_1 => cases h
        case h_2 id hid =>
          have hmore : ∀ part ∈ [uuidText id], Plain part := plain_cons (uuidText_plain id) plain_nil
          have hplain : ∀ part ∈ [folders, uuidText id], Plain part := plain_cons folders_plain hmore
          rw [render_folder] at h
          obtain rfl := Except.ok.inj h
          refine ⟨[folders, uuidText id], true, rfl, fun part hpart => (hplain part hpart).1,
            hfolder _ hmore true hscheme ?_⟩
          unfold folderLocator
          dsimp only
          rw [(uuidText_plain id).unquote, parseUuid_uuidText env (parseUuid_lt hid)]
          dsimp only
          rw [render_folder]
      case h_3 => cases h
    case isFalse =>
      split at h
      case h_1 => cases h
      case h_2 id hid =>
        have hid' := parseUuid_uuidText env (parseUuid_lt hid)
        split at h
        case h_1 =>
          have hplain : ∀ part ∈ [uuidText id], Plain part := plain_cons (uuidText_plain id) plain_nil
          obtain rfl := Except.ok.inj h
          refine ⟨[uuidText id], false, render_uuid id, fun part hpart => (hplain part hpart).1, ?_⟩
          unfold documentLocator
          conv => lhs; rw [render_uuid]
          rw [pathParts_render_plain hplain]
          dsimp only
          rw [hnot, if_neg Bool.false_ne_true, (uuidText_plain id).unquote, hid']
        case h_2 collection =>
          split at h
          case isFalse => cases h
          case isTrue =>
            have hplain : ∀ part ∈ [uuidText id, attachments], Plain part :=
              plain_cons (uuidText_plain id) (plain_cons attachments_plain plain_nil)
            rw [render_attachments] at h
            obtain rfl := Except.ok.inj h
            refine ⟨[uuidText id, attachments], true, rfl, fun part hpart => (hplain part hpart).1, ?_⟩
            unfold documentLocator
            rw [pathParts_render_plain hplain]
            dsimp only
            rw [hnot, if_neg Bool.false_ne_true, (uuidText_plain id).unquote, hid']
            dsimp only
            rw [attachments_plain.unquote, beq_self_eq_true, if_pos rfl, render_attachments]
        case h_3 collection attachment =>
          split at h
          case isFalse => cases h
          case isTrue =>
            split at h
            case h_1 => cases h
            case h_2 other hother =>
              have hplain : ∀ part ∈ [uuidText id, attachments, uuidText other], Plain part :=
                plain_cons (uuidText_plain id)
                  (plain_cons attachments_plain (plain_cons (uuidText_plain other) plain_nil))
              rw [render_attachment] at h
              obtain rfl := Except.ok.inj h
              refine ⟨[uuidText id, attachments, uuidText other], false, rfl,
                fun part hpart => (hplain part hpart).1, ?_⟩
              unfold documentLocator
              rw [pathParts_render_plain hplain]
              dsimp only
              rw [hnot, if_neg Bool.false_ne_true, (uuidText_plain id).unquote, hid']
              dsimp only
              rw [attachments_plain.unquote, beq_self_eq_true, if_pos rfl, (uuidText_plain other).unquote,
                parseUuid_uuidText env (parseUuid_lt hother)]
              dsimp only
              rw [render_attachment]
        case h_4 => cases h

/-- What is written of a resource is normalized to itself, where the empty locator is none. -/
theorem Canonical.normalized {env : Env} {rewrite : Text → Except String Text} {result : Text}
    (h : Canonical rewrite result)
    (hnone : ∀ other, rewrite [] ≠ .ok other) (allowEmpty : Bool) :
    normalizeLocator env result allowEmpty = .ok result ∧ result.isEmpty = false := by
  obtain ⟨parts, trailing, hrender, hconfined, hrewrite⟩ := h
  have hresult : result ≠ [] := by
    intro hnil
    rw [hnil] at hrewrite
    exact hnone [] hrewrite
  have hparts : parts = [] → allowEmpty = true := by
    rintro rfl
    have hempty := render_isEmpty hconfined trailing
    rw [← hrender] at hempty
    exact absurd (List.isEmpty_iff.mp hempty) hresult
  refine ⟨?_, Bool.not_eq_true _ ▸ fun hempty => hresult (List.isEmpty_iff.mp hempty)⟩
  rw [hrender]
  exact normalizeLocator_render env hconfined trailing hparts

theorem pathParts_nil : pathParts [] = [] := by rw [pathParts_eq]; rfl

theorem memoryLocator_nil (env : Env) (result : Text) : memoryLocator env [] ≠ .ok result := by
  unfold memoryLocator
  rw [pathParts_nil]
  exact fun h => nomatch h

theorem documentLocator_nil (env : Env) (scheme result : Text) : documentLocator env scheme [] ≠ .ok result := by
  unfold documentLocator
  rw [pathParts_nil]
  exact fun h => nomatch h

theorem providerLocator_canonical {env : Env} {scheme locator result : Text} {allowEmpty : Bool}
    (h : providerLocator env scheme locator allowEmpty = .ok result) :
    Canonical (providerLocator env scheme · allowEmpty) result := by
  unfold providerLocator at h
  split at h
  case isTrue hfile =>
    obtain ⟨parts, trailing, hrender, hconfined, hrewrite⟩ := fileLocator_canonical h
    exact ⟨parts, trailing, hrender, hconfined, (if_pos hfile).trans hrewrite⟩
  case isFalse hfile =>
    cases hnormalized : normalizeLocator env locator allowEmpty with
    | error message =>
      rw [hnormalized] at h
      cases h
    | ok normalized =>
      rw [hnormalized] at h
      change (if scheme == memory && !normalized.isEmpty then memoryLocator env normalized
        else if (scheme == document || scheme == data) && !normalized.isEmpty then documentLocator env scheme normalized
        else .ok normalized) = .ok result at h
      -- What is written is normalized to itself; then it takes the branch that wrote it.
      have hagain : ∀ rewritten, normalizeLocator env result allowEmpty = .ok result →
          (if scheme == memory && !result.isEmpty then memoryLocator env result
            else if (scheme == document || scheme == data) && !result.isEmpty then documentLocator env scheme result
            else .ok result) = .ok rewritten → providerLocator env scheme result allowEmpty = .ok rewritten := by
        intro rewritten hnormal hbranch
        unfold providerLocator
        rw [if_neg hfile, hnormal]
        exact hbranch
      split at h
      case isTrue hmemory =>
        obtain ⟨id, -, hcanonical⟩ := memoryLocator_canonical h
        obtain ⟨hnormal, hnonempty⟩ := hcanonical.normalized (memoryLocator_nil env) allowEmpty
        obtain ⟨parts, trailing, hrender, hconfined, hrewrite⟩ := hcanonical
        refine ⟨parts, trailing, hrender, hconfined, hagain result hnormal ?_⟩
        rw [(Bool.and_eq_true_iff.mp hmemory).1, hnonempty]
        exact hrewrite
      case isFalse hmemory =>
        split at h
        case isTrue hdocument =>
          have hcanonical := documentLocator_canonical h
          obtain ⟨hnormal, hnonempty⟩ := hcanonical.normalized (documentLocator_nil env scheme) allowEmpty
          obtain ⟨parts, trailing, hrender, hconfined, hrewrite⟩ := hcanonical
          refine ⟨parts, trailing, hrender, hconfined, hagain result hnormal ?_⟩
          obtain ⟨hscheme, hgiven⟩ := Bool.and_eq_true_iff.mp hdocument
          rw [hgiven, Bool.and_true, Bool.not_eq_true] at hmemory
          rw [hmemory, hscheme, hnonempty]
          exact hrewrite
        case isFalse hdocument =>
          obtain rfl := Except.ok.inj h
          obtain ⟨parts, trailing, hrender, hconfined, hempty⟩ := normalizeLocator_eq_ok hnormalized
          refine ⟨parts, trailing, hrender, hconfined, hagain normalized ?_ ?_⟩
          · rw [hrender]
            exact normalizeLocator_render env hconfined trailing hempty
          · rw [if_neg hmemory, if_neg hdocument]

/-! ### Schemes -/

/-- The characters of the name of a scheme. -/
def nameChar (c : Char) : Bool := c.isLower || c.isDigit || c == '+' || c == '.' || c == '-'

theorem nameChar_ascii {c : Char} (h : nameChar c = true) : ascii c = true := by
  unfold nameChar at h
  simp only [Bool.or_eq_true, beq_iff_eq] at h
  obtain (((hlower | hdigit) | rfl) | rfl) | rfl := h
  · have hbounds : (decide (c.val ≥ 97) && decide (c.val ≤ 122)) = true := hlower
    have hrange : 97 ≤ c.toNat ∧ c.toNat ≤ 122 := by simpa [UInt32.le_iff_toNat_le] using hbounds
    exact decide_eq_true (by omega)
  · have hrange : 48 ≤ c.toNat ∧ c.toNat ≤ 57 := by simpa [Char.isDigit, UInt32.le_iff_toNat_le] using hdigit
    exact decide_eq_true (by omega)
  all_goals decide

theorem of_nameChar {p : Char → Bool}
    (hall : ∀ n : Fin 128, nameChar (Char.ofNat n) = true → p (Char.ofNat n) = true) {c : Char}
    (h : nameChar c = true) : p c = true := by
  have hless : c.toNat < 128 := of_decide_eq_true (nameChar_ascii h)
  have hp := hall ⟨c.toNat, hless⟩
  rw [Char.ofNat_toNat] at hp
  exact hp h

theorem nameChar_of_mem {scheme : Text} (h : schemeName scheme = true) {c : Char}
    (hc : c ∈ scheme) : nameChar c = true :=
  List.all_eq_true.mp (Bool.and_eq_true_iff.mp h).2 c hc

theorem schemeName_lower {scheme : Text} (h : schemeName scheme = true) : scheme.map Char.toLower = scheme := by
  refine (List.map_congr_left fun c hc => ?_).trans (List.map_id _)
  exact eq_of_beq (of_nameChar (p := fun c => c.toLower == c) (by decide +kernel) (nameChar_of_mem h hc))

/-- The scheme of a text is read back. -/
theorem splitScheme_text {scheme : Text} (h : schemeName scheme = true) (locator : Text) :
    splitScheme (scheme ++ "://".toList ++ locator) = some (scheme, locator) := by
  have hall : ∀ c ∈ scheme, schemeChar c = true := fun c hc =>
    of_nameChar (p := schemeChar) (by decide +kernel) (nameChar_of_mem h hc)
  have hlocator : "://".toList ++ locator = ':' :: '/' :: '/' :: locator := rfl
  have hcolon : schemeChar ':' ≠ true := by decide
  have hfirst : scheme.head?.any (·.isAlpha) = true := by
    obtain ⟨c, hc, hlower⟩ := (Option.any_eq_true _ _).mp (Bool.and_eq_true_iff.mp h).1
    have halpha : (c.isUpper || c.isLower) = true := by rw [hlower, Bool.or_true]
    exact (Option.any_eq_true _ _).mpr ⟨c, hc, halpha⟩
  unfold splitScheme
  rw [List.append_assoc, hlocator, List.takeWhile_append_of_pos hall, List.dropWhile_append_of_pos hall,
    List.takeWhile_cons_of_neg hcolon, List.dropWhile_cons_of_neg hcolon, List.append_nil]
  exact if_pos hfirst

/-- The text of a resource has no spaces around it. -/
theorem strip_text {scheme locator : Text} (hscheme : schemeName scheme = true)
    (hlocator : ∀ c ∈ locator, isSpace c = false) :
    stripOf isSpace (scheme ++ "://".toList ++ locator) = scheme ++ "://".toList ++ locator := by
  refine strip_of_all fun c hc => ?_
  obtain hc | hc := List.mem_append.mp hc
  · obtain hc | hc := List.mem_append.mp hc
    · have hspace := of_nameChar (p := fun c => !isSpace c) (by decide +kernel) (nameChar_of_mem hscheme hc)
      exact Bool.not_eq_true' _ ▸ hspace
    · have hall : ∀ c ∈ "://".toList, isSpace c = false := forall_of_all (by decide)
      exact hall c hc
  · exact hlocator c hc

theorem Canonical.isSpace {rewrite : Text → Except String Text} {result : Text} (h : Canonical rewrite result) :
    ∀ c ∈ result, isSpace c = false := by
  obtain ⟨parts, trailing, rfl, hconfined, -⟩ := h
  intro c hc
  obtain rfl | hc := written_of_mem_render hconfined hc
  · decide
  · unfold written at hc
    simp only [Bool.and_eq_true, Bool.not_eq_true'] at hc
    exact hc.1.1.2

/-- What an accepted text of a provider says. -/
theorem parseResourceUri_eq_ok {env : Env} {value : Text} {allowEmpty : Bool} {uri : ResourceUri}
    (h : parseResourceUri env value allowEmpty = .ok uri) (hprovider : web uri.scheme = false) :
    schemeName uri.scheme = true ∧ uri.scheme ≠ "processus".toList ∧ uri.scheme ≠ "workspace".toList ∧
      Canonical (providerLocator env uri.scheme · allowEmpty) uri.locator := by
  unfold parseResourceUri at h
  dsimp only at h
  split at h
  case isTrue => cases h
  case isFalse =>
    split at h
    case h_1 => cases h
    case h_2 scheme locator hsplit =>
      split at h
      case isTrue => cases h
      case isFalse hname =>
        split at h
        case isTrue => cases h
        case isFalse hprocess =>
          split at h
          case isTrue => cases h
          case isFalse hworkspace =>
            split at h
            case isTrue hweb =>
              obtain ⟨result, -, rfl⟩ := Results.map_eq_ok.mp h
              exact absurd hweb (Bool.not_eq_true _ ▸ hprovider)
            case isFalse =>
              obtain ⟨result, hresult, rfl⟩ := Results.map_eq_ok.mp h
              rw [Bool.not_eq_true, Bool.not_eq_false'] at hname
              rw [beq_iff_eq] at hprocess hworkspace
              exact ⟨hname, hprocess, hworkspace, providerLocator_canonical hresult⟩

/-- A resource of a provider is read back from its text, and its segments stay in its collection. -/
theorem parseResourceUri_canonical {env : Env} {value : Text} {allowEmpty : Bool} {uri : ResourceUri}
    (h : parseResourceUri env value allowEmpty = .ok uri) (hprovider : web uri.scheme = false) :
    parseResourceUri env uri.text allowEmpty = .ok uri ∧ ∀ segment ∈ uri.segments, Confined segment := by
  obtain ⟨hname, hprocess, hworkspace, hcanonical⟩ := parseResourceUri_eq_ok h hprovider
  constructor
  · have hstrip : stripOf isSpace uri.text = uri.text := strip_text hname hcanonical.isSpace
    have hsplit : splitScheme uri.text = some (uri.scheme, uri.locator) := splitScheme_text hname uri.locator
    have hgiven : uri.text.isEmpty = false := by
      unfold ResourceUri.text
      simp
    obtain ⟨parts, trailing, hrender, hconfined, hrewrite⟩ := hcanonical
    dsimp only at hrewrite
    unfold parseResourceUri
    dsimp only
    rw [hstrip, hgiven, if_neg Bool.false_ne_true, hsplit]
    dsimp only
    rw [schemeName_lower hname, hname, Bool.not_true, if_neg Bool.false_ne_true,
      beq_false_of_ne hprocess, if_neg Bool.false_ne_true,
      beq_false_of_ne hworkspace, if_neg Bool.false_ne_true, hprovider, if_neg Bool.false_ne_true, hrewrite]
    rfl
  · obtain ⟨parts, trailing, hrender, hconfined, -⟩ := hcanonical
    intro segment hsegment
    unfold ResourceUri.segments ResourceUri.decodedLocator at hsegment
    rw [hrender, pathParts_unquote_render hconfined] at hsegment
    exact hconfined segment hsegment

/-- Unicode data that know ASCII only, and no Web URIs. -/
def asciiEnv : Env where
  nfc text := text
  nfc_ascii _ _ := rfl
  decimal _ := none
  webLocator _ _ := .error "Invalid Web resource URI."

/-- A double encoding of a parent stays a name. -/
theorem parseResourceUri_canonical_console :
    parseResourceUri asciiEnv "console://dir/%252e%252e/a".toList false =
    .ok ⟨"console".toList, "dir/%252e%252e/a".toList⟩ ∧
      ∀ segment ∈ ResourceUri.segments ⟨"console".toList, "dir/%252e%252e/a".toList⟩, Confined segment := by
  have h : parseResourceUri asciiEnv " CONSOLE://dir\\./%252e%252e//a".toList false =
      .ok ⟨"console".toList, "dir/%252e%252e/a".toList⟩ := by
    rfl
  exact parseResourceUri_canonical h (by decide)

end Galaris.FileShare
