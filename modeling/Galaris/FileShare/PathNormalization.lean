import Galaris.FileShare.Canonical
import Mathlib.Algebra.Order.BigOperators.Group.List
import Mathlib.Algebra.Order.Ring.Nat
import Mathlib.Data.List.Sort
import Mathlib.Data.List.TakeWhile

/-! References to files (`path_normalization.py`).

A reference is brought to one relative path: the home, the root and its aliases are taken from its beginning, each
once and in one order. What is left is written as it is (`leftover`), so that a component that looks like one of
them is taken for it when the path comes back: the path stays what it is just where nothing at its ends is read
again (`Settled`, `normalizeFileReference_settled`). -/
namespace Galaris.FileShare.PathNormalization

open Percent
open Texts (isSpace stripOf)

/-- `FilePathError`. -/
structure FilePathError where
  value : Text
  reason : String
  deriving DecidableEq

/-- `_parts`. -/
def parts (value : Text) : List Text := (value.splitOn '/').filter fun part => !(part == [] || part == ['.'])

/-- `str(value).strip().replace("\\", "/")`. -/
def clean (value : Text) : Text := (stripOf isSpace value).map fun c => if c = '\\' then '/' else c

/-- `_URI_PREFIX`. -/
def uriPrefix : Text → Bool
  | [] => false
  | c :: rest => c.isAlpha && "://".toList.isPrefixOf (rest.dropWhile schemeChar)

/-- `_WINDOWS_DRIVE`. -/
def windowsDrive : Text → Bool
  | c :: ':' :: '/' :: _ => c.isAlpha
  | _ => false

/-- The home is the root. -/
def expanded (raw : Text) : Text :=
  if raw = ['~'] then ['.'] else if ['~', '/'].isPrefixOf raw then raw.drop 2 else raw

def absolute (raw : Text) : Bool := raw.head? == some '/'

/-- The components of the aliases, the longest first. -/
def aliasParts (aliases : List Text) : List (List Text) :=
  (aliases.map fun name => parts (clean name)).insertionSort fun a b => b.length ≤ a.length

/-- The longest alias is taken from the beginning, once. -/
def withoutAlias (aliases : List Text) (components : List Text) : List Text :=
  match (aliasParts aliases).find? fun start => !start.isEmpty && start.isPrefixOf components with
  | some start => components.drop start.length
  | none => components

def joined (components : List Text) : Text := ['/'].intercalate components

/-- The end of `normalize_file_reference`. -/
def finished (value : Text) (allowRoot : Bool) (components : List Text) : Except FilePathError Text :=
  if components.isEmpty then if allowRoot then .ok ['.'] else .error ⟨value, "filename missing"⟩
  else .ok (joined components)

/-- `normalize_file_reference`. -/
def normalizeFileReference (value root : Text) (aliases : List Text) (allowRoot : Bool) : Except FilePathError Text :=
  let raw := clean value
  if raw.contains '\x00' then .error ⟨value, "null byte"⟩
  else if raw.isEmpty then if allowRoot then .ok ['.'] else .error ⟨value, "empty"⟩
  else
    let raw := expanded raw
    if !absolute raw && (uriPrefix raw || windowsDrive raw) then .error ⟨value, "not a provider-relative path"⟩
    else
      let components := parts raw
      if components.contains ['.', '.'] then .error ⟨value, "path traversal"⟩
      else if absolute raw then
        if components.isEmpty && allowRoot then .ok ['.']
        else
          let rootParts := parts (clean root)
          if rootParts.isEmpty || !rootParts.isPrefixOf components then .error ⟨value, "outside provider root"⟩
          else finished value allowRoot (components.drop rootParts.length)
      else finished value allowRoot (withoutAlias aliases components)

/-! ### What is left of a reference -/

/-- The components of a reference behind the root, or behind the longest alias. -/
def leftover (value root : Text) (aliases : List Text) : List Text :=
  let raw := expanded (clean value)
  if absolute raw then (parts raw).drop (parts (clean root)).length else withoutAlias aliases (parts raw)

/-- A component that is the name of a file or a directory. -/
structure Named (part : Text) : Prop where
  nonempty : part ≠ []
  notDot : part ≠ ['.']
  notParent : part ≠ ['.', '.']
  separator : '/' ∉ part
  backslash : '\\' ∉ part
  null : '\x00' ∉ part

/-- Nothing at the ends of the components is read again: they name no home, no drive, no space that is
stripped and none of the aliases. -/
structure Settled (aliases : List Text) (components : List Text) : Prop where
  nonempty : components ≠ []
  home : components.head? ≠ some ['~']
  drive : ∀ c next rest, components = [c, ':'] :: next :: rest → c.isAlpha = false
  first : ∀ part ∈ components.head?, ∀ c ∈ part.head?, isSpace c = false
  last : ∀ part ∈ components.getLast?, ∀ c ∈ part.getLast?, isSpace c = false
  aliases : ∀ name ∈ aliases, parts (clean name) ≠ [] → ¬parts (clean name) <+: components

/-- A path that is relative and has no component that is empty, `.` or `..`. -/
def Canonical (path : Text) : Prop :=
  absolute path = false ∧ ∀ part ∈ path.splitOn '/', part ≠ [] ∧ part ≠ ['.'] ∧ part ≠ ['.', '.']

theorem mem_clean {value : Text} {c : Char} (h : c ∈ clean value) : c ≠ '\\' := by
  obtain ⟨d, -, rfl⟩ := List.mem_map.mp h
  split
  · decide
  · assumption

theorem mem_expanded {raw : Text} {c : Char} (h : c ∈ expanded raw) : c = '.' ∨ c ∈ raw := by
  rw [expanded] at h
  split at h
  · exact .inl (List.mem_singleton.mp h)
  · split at h
    · exact .inr (List.mem_of_mem_drop h)
    · exact .inr h

theorem parts_named {raw : Text} (hslash : '\\' ∉ raw) (hnull : '\x00' ∉ raw)
    (hparent : ['.', '.'] ∉ parts raw) : ∀ part ∈ parts raw, Named part := by
  intro part hpart
  obtain ⟨hmem, hkept⟩ := List.mem_filter.mp hpart
  obtain ⟨hseparator, hchars⟩ := mem_splitOn hmem
  simp only [Bool.not_or, Bool.and_eq_true, Bool.not_eq_true', beq_eq_false_iff_ne] at hkept
  exact ⟨hkept.1, hkept.2, fun heq => hparent (heq ▸ hpart), hseparator,
    fun hc => hslash (hchars _ hc), fun hc => hnull (hchars _ hc)⟩

theorem withoutAlias_suffix (aliases components : List Text) : withoutAlias aliases components <:+ components := by
  rw [withoutAlias]
  split
  · exact List.drop_suffix _ _
  · exact List.suffix_rfl

/-- What is accepted is written from named components, which are what is left. -/
theorem normalizeFileReference_eq_ok {value root result : Text} {aliases : List Text} {allowRoot : Bool}
    (h : normalizeFileReference value root aliases allowRoot = .ok result) :
    (∀ part ∈ leftover value root aliases, Named part) ∧
      result = if leftover value root aliases = [] then ['.'] else joined (leftover value root aliases) := by
  have hfinished : ∀ components, finished value allowRoot components = .ok result →
      result = if components = [] then ['.'] else joined components := by
    intro components h
    rw [finished] at h
    split at h
    case isTrue hempty =>
      rw [if_pos (List.isEmpty_iff.mp hempty)]
      split at h
      · exact (Except.ok.inj h).symm
      · cases h
    case isFalse hempty =>
      rw [if_neg fun heq => hempty (List.isEmpty_iff.mpr heq)]
      exact (Except.ok.inj h).symm
  rw [normalizeFileReference] at h
  dsimp only at h
  split at h
  · cases h
  next hnull =>
  split at h
  · next hempty =>
    have hraw : clean value = [] := List.isEmpty_iff.mp hempty
    have hleft : leftover value root aliases = [] := by
      have hsuffix := withoutAlias_suffix aliases (parts [])
      rw [leftover, hraw]
      exact List.suffix_nil.mp hsuffix
    rw [hleft]
    refine ⟨fun _ hpart => absurd hpart List.not_mem_nil, ?_⟩
    split at h
    · exact (Except.ok.inj h).symm
    · cases h
  split at h
  · cases h
  split at h
  · cases h
  next hparent =>
  have hnamed : ∀ part ∈ parts (expanded (clean value)), Named part := by
    refine parts_named (fun hslash => ?_) (fun hnull' => ?_) fun hmem => hparent (List.contains_iff_mem.mpr hmem)
    · obtain hdot | hmem := mem_expanded hslash
      · exact absurd hdot (by decide)
      · exact mem_clean hmem rfl
    · obtain hdot | hmem := mem_expanded hnull'
      · exact absurd hdot (by decide)
      · exact hnull (List.contains_iff_mem.mpr hmem)
  rw [leftover]
  split at h
  · next habsolute =>
    rw [if_pos habsolute]
    refine ⟨fun part hpart => hnamed part (List.mem_of_mem_drop hpart), ?_⟩
    split at h
    · next hroot =>
      rw [Bool.and_eq_true] at hroot
      rw [List.isEmpty_iff.mp hroot.1, List.drop_nil, if_pos rfl]
      exact (Except.ok.inj h).symm
    · split at h
      · cases h
      · exact hfinished _ h
  · next habsolute =>
    rw [if_neg habsolute]
    exact ⟨fun part hpart => hnamed part ((withoutAlias_suffix _ _).subset hpart), hfinished _ h⟩

/-! ### Lengths -/

/-- What the components take with a separator behind each. -/
def weight (components : List Text) : Nat := (components.map fun part => part.length + 1).sum

theorem length_joined {components : List Text} (h : components ≠ []) :
    (joined components).length + 1 = weight components := by
  induction components with
  | nil => exact absurd rfl h
  | cons part rest ih =>
    cases rest with
    | nil => simp [joined, weight]
    | cons other more =>
      have hrest := ih (List.cons_ne_nil _ _)
      rw [joined, List.intercalate_cons_cons, List.length_append, List.length_append, weight,
        List.map_cons, List.sum_cons]
      rw [joined, weight] at hrest
      rw [← hrest, List.length_singleton]
      omega

theorem weight_splitOn (text : Text) : weight (text.splitOn '/') = text.length + 1 := by
  induction text with
  | nil => rfl
  | cons c rest ih =>
    rw [List.splitOn_cons_eq_if_modifyHead]
    split
    · rw [weight, List.map_cons, List.sum_cons]
      rw [weight] at ih
      rw [ih, List.length_nil, List.length_cons]
      omega
    · cases hsplit : rest.splitOn '/' with
      | nil => exact absurd hsplit (List.splitOn_ne_nil _ _)
      | cons head more =>
        rw [hsplit, weight, List.map_cons, List.sum_cons] at ih
        rw [List.modifyHead_cons, weight, List.map_cons, List.sum_cons, List.length_cons, List.length_cons]
        omega

theorem weight_sublist {xs ys : List Text} (h : xs.Sublist ys) : weight xs ≤ weight ys :=
  List.Sublist.sum_le_sum (h.map fun part : Text => part.length + 1) fun _ _ => Nat.zero_le _

theorem weight_parts_le (raw : Text) : weight (parts raw) ≤ raw.length + 1 :=
  (weight_sublist List.filter_sublist).trans (weight_splitOn raw).le

/-! ### Reading a path again -/

theorem windowsDrive_eq_true {raw : Text} (h : windowsDrive raw = true) :
    ∃ c post, raw = c :: ':' :: '/' :: post ∧ c.isAlpha = true := by
  unfold windowsDrive at h
  split at h
  · next c post => exact ⟨c, post, rfl, h⟩
  · cases h

theorem mem_joined {components : List Text} {c : Char} (h : c ∈ joined components) :
    c = '/' ∨ ∃ part ∈ components, c ∈ part := by
  have hpath : c ∈ path components false := by rwa [path, Bool.false_and, if_neg Bool.false_ne_true, List.append_nil]
  exact mem_path hpath

section Again
variable {components : List Text} (hnamed : ∀ part ∈ components, Named part)

include hnamed

theorem splitOn_joined (hne : components ≠ []) : (joined components).splitOn '/' = components :=
  List.splitOn_intercalate '/' (fun part hpart => (hnamed part hpart).separator) hne

theorem joined_ne_nil (hne : components ≠ []) : joined components ≠ [] := by
  intro hnil
  have hsplit := splitOn_joined hnamed hne
  rw [hnil, List.splitOn_nil] at hsplit
  exact (hnamed [] (hsplit ▸ List.mem_singleton_self _)).nonempty rfl

theorem parts_joined (hne : components ≠ []) : parts (joined components) = components := by
  rw [parts, splitOn_joined hnamed hne]
  refine List.filter_eq_self.mpr fun part hpart => ?_
  simp [(hnamed part hpart).nonempty, (hnamed part hpart).notDot]

theorem head_joined {part : Text} {rest : List Text} (h : components = part :: rest) :
    (joined components).head? = part.head? := by
  subst h
  have hnonempty := (hnamed part List.mem_cons_self).nonempty
  cases part with
  | nil => exact absurd rfl hnonempty
  | cons c more =>
    cases rest with
    | nil => rw [joined, List.intercalate_singleton]
    | cons other others =>
      rw [joined, List.intercalate_cons_cons]
      rfl

theorem getLast_joined {part : Text} (h : components.getLast? = some part) :
    (joined components).getLast? = part.getLast? := by
  induction components with
  | nil => cases h
  | cons first rest ih =>
    cases rest with
    | nil =>
      obtain rfl : first = part := Option.some.inj h
      rw [joined, List.intercalate_singleton]
    | cons other others =>
      have hrest : (other :: others).getLast? = some part := by rwa [List.getLast?_cons_cons] at h
      have htail : ∀ p ∈ other :: others, Named p := fun p hp => hnamed p (List.mem_cons_of_mem _ hp)
      rw [joined, List.intercalate_cons_cons, List.getLast?_append, ← joined, ih htail hrest]
      have hpart := (htail part (List.mem_of_getLast? hrest)).nonempty
      rw [Option.or_of_isSome]
      rw [List.getLast?_isSome]
      exact hpart

theorem clean_joined (hfirst : ∀ part ∈ components.head?, ∀ c ∈ part.head?, isSpace c = false)
    (hlast : ∀ part ∈ components.getLast?, ∀ c ∈ part.getLast?, isSpace c = false) :
    clean (joined components) = joined components := by
  have hstrip : stripOf isSpace (joined components) = joined components := by
    cases hcomponents : components with
    | nil => rfl
    | cons part rest =>
      rw [← hcomponents]
      refine strip_of_ends ?_ ?_
      · rw [head_joined hnamed hcomponents]
        exact hfirst part (by rw [hcomponents]; rfl)
      · obtain ⟨final, hfinal⟩ : ∃ final, components.getLast? = some final :=
          Option.isSome_iff_exists.mp (List.getLast?_isSome.mpr (by rw [hcomponents]; exact List.cons_ne_nil _ _))
        rw [getLast_joined hnamed hfinal]
        exact hlast final hfinal
  rw [clean, hstrip]
  refine List.map_congr_left (fun c hc => ?_) |>.trans (List.map_id _)
  rw [if_neg]
  · rfl
  · rintro rfl
    obtain hslash | ⟨part, hpart, hmem⟩ := mem_joined hc
    · exact absurd hslash (by decide)
    · exact (hnamed part hpart).backslash hmem

theorem absolute_joined (hne : components ≠ []) : absolute (joined components) = false := by
  cases hcomponents : components with
  | nil => exact absurd hcomponents hne
  | cons part rest =>
    have hpart := hnamed part (hcomponents ▸ List.mem_cons_self)
    rw [absolute, ← hcomponents, head_joined hnamed hcomponents]
    cases part with
    | nil => exact absurd rfl hpart.nonempty
    | cons c more =>
      rw [beq_eq_false_iff_ne]
      intro heq
      exact hpart.separator (Option.some.inj heq ▸ List.mem_cons_self)

/-- A path of components has no two separators in a row. -/
theorem uriPrefix_joined (hne : components ≠ []) : uriPrefix (joined components) = false := by
  cases hjoined : joined components with
  | nil => rfl
  | cons c rest =>
    rw [uriPrefix, Bool.and_eq_false_iff]
    by_contra huri
    rw [not_or] at huri
    obtain ⟨hletter, hmarker⟩ := huri
    rw [Bool.not_eq_false] at hletter hmarker
    obtain ⟨post, hpost⟩ := List.isPrefixOf_iff_prefix.mp hmarker
    have hscheme : '/' ∉ c :: (rest.takeWhile schemeChar ++ [':']) := by
      intro hmem
      obtain rfl | hmem := List.mem_cons.mp hmem
      · exact absurd hletter (by decide)
      · obtain hmem | hcolon := List.mem_append.mp hmem
        · exact absurd (List.mem_takeWhile_imp hmem : schemeChar '/' = true) (by decide)
        · exact absurd (List.mem_singleton.mp hcolon) (by decide)
    have hshape : joined components = (c :: (rest.takeWhile schemeChar ++ [':'])) ++ '/' :: ('/' :: post) := by
      have hrest : rest = rest.takeWhile schemeChar ++ ("://".toList ++ post) := by
        rw [hpost, List.takeWhile_append_dropWhile]
      rw [hjoined]
      exact (congrArg (c :: ·) hrest).trans (by simp)
    have hsplit := splitOn_joined hnamed hne
    rw [hshape, List.splitOn_append_cons_self_of_not_mem hscheme,
      List.splitOn_cons_eq_if_modifyHead, if_pos (beq_self_eq_true _)] at hsplit
    exact (hnamed [] (hsplit ▸ List.mem_cons_of_mem _ List.mem_cons_self)).nonempty rfl

theorem windowsDrive_joined (hne : components ≠ [])
    (hdrive : ∀ c next rest, components = [c, ':'] :: next :: rest → c.isAlpha = false) :
    windowsDrive (joined components) = false := by
  have hsplit := splitOn_joined hnamed hne
  rw [Bool.eq_false_iff]
  intro htrue
  obtain ⟨c, post, hshape, hletter⟩ := windowsDrive_eq_true htrue
  have hc : '/' ∉ [c, ':'] := by
    intro hmem
    obtain rfl | hmem := List.mem_cons.mp hmem
    · exact absurd hletter (by decide)
    · exact absurd (List.mem_singleton.mp hmem) (by decide)
  have hcut : ([c, ':'] ++ '/' :: post).splitOn '/' = [c, ':'] :: post.splitOn '/' :=
      List.splitOn_append_cons_self_of_not_mem hc post
  rw [hshape] at hsplit
  cases hpost : post.splitOn '/' with
  | nil => exact absurd hpost (List.splitOn_ne_nil _ _)
  | cons next rest =>
    rw [hpost] at hcut
    exact absurd hletter (by rw [hdrive c next rest (hsplit.symm.trans hcut)]; decide)

theorem expanded_joined (hne : components ≠ []) (hhome : components.head? ≠ some ['~']) :
    expanded (joined components) = joined components := by
  have hsplit := splitOn_joined hnamed hne
  have hother : joined components ≠ ['~'] := by
    intro heq
    rw [heq] at hsplit
    exact hhome (by rw [← hsplit]; rfl)
  rw [expanded, if_neg hother, if_neg]
  intro hstart
  obtain ⟨post, hpost⟩ := List.isPrefixOf_iff_prefix.mp hstart
  rw [← hpost] at hsplit
  have hcut : (['~'] ++ '/' :: post).splitOn '/' = ['~'] :: post.splitOn '/' :=
    List.splitOn_append_cons_self_of_not_mem (show '/' ∉ ['~'] by decide) post
  exact hhome (by rw [← hsplit]; exact congrArg List.head? hcut)

end Again

/-! ### What is read again is shorter -/

theorem head_of_length_dropWhile {p : Char → Bool} {text : Text}
    (h : text.length ≤ (text.dropWhile p).length) : ∀ c ∈ text.head?, p c = false := by
  cases text with
  | nil => exact nofun
  | cons c rest =>
    intro d hd
    obtain rfl : c = d := Option.some.inj hd
    by_contra hp
    rw [List.dropWhile_cons_of_pos (Bool.not_eq_false _ |>.mp hp)] at h
    have hle := (List.dropWhile_suffix (l := rest) p).length_le
    rw [List.length_cons] at h
    omega

/-- Where stripping takes nothing, the ends stay. -/
theorem ends_of_length_strip {p : Char → Bool} {text : Text} (h : text.length ≤ (stripOf p text).length) :
    (∀ c ∈ text.head?, p c = false) ∧ ∀ c ∈ text.getLast?, p c = false := by
  rw [stripOf, List.length_reverse] at h
  have hright := (List.dropWhile_suffix (l := (text.dropWhile p).reverse) p).length_le
  rw [List.length_reverse] at hright
  have hhead := head_of_length_dropWhile (h.trans hright)
  rw [dropWhile_of_head hhead] at h
  have hreverse : text.reverse.length ≤ (text.reverse.dropWhile p).length := by rwa [List.length_reverse]
  have hlast := head_of_length_dropWhile hreverse
  rw [List.head?_reverse] at hlast
  exact ⟨hhead, hlast⟩

theorem length_clean (value : Text) : (clean value).length = (stripOf isSpace value).length := List.length_map _

theorem length_expanded_le (raw : Text) : (expanded raw).length ≤ raw.length := by
  rw [expanded]
  split
  · next h =>
    rw [h]
    decide
  · split
    · rw [List.length_drop]
      omega
    · exact le_refl _

theorem leftover_sublist (value root : Text) (aliases : List Text) :
    (leftover value root aliases).Sublist (parts (expanded (clean value))) := by
  rw [leftover]
  split
  · exact List.drop_sublist _ _
  · exact (withoutAlias_suffix _ _).sublist

theorem mem_aliasParts {aliases : List Text} {start : List Text} :
    start ∈ aliasParts aliases ↔ ∃ name ∈ aliases, parts (clean name) = start := by
  rw [aliasParts, List.mem_insertionSort, List.mem_map]

theorem withoutAlias_eq_self_iff {aliases components : List Text} :
    withoutAlias aliases components = components ↔ ∀ name ∈ aliases, parts (clean name) ≠ [] →
        ¬parts (clean name) <+: components := by
  rw [withoutAlias]
  constructor
  · intro h name hname hne hprefix
    split at h
    case h_1 start hfind =>
      have hstart := List.find?_some hfind
      rw [Bool.and_eq_true, Bool.not_eq_true'] at hstart
      have hle := (List.isPrefixOf_iff_prefix.mp hstart.2).length_le
      have hlength := congrArg List.length h
      rw [List.length_drop] at hlength
      have hpos : 0 < start.length := List.length_pos_of_ne_nil fun heq => by
          rw [heq] at hstart; exact absurd hstart.1 (by decide)
      omega
    case h_2 hfind =>
      have hnone := List.find?_eq_none.mp hfind _ (mem_aliasParts.mpr ⟨name, hname, rfl⟩)
      rw [Bool.and_eq_true, Bool.not_eq_true', List.isEmpty_eq_false_iff] at hnone
      exact hnone ⟨hne, List.isPrefixOf_iff_prefix.mpr hprefix⟩
  · intro h
    split
    case h_1 start hfind =>
      have hstart := List.find?_some hfind
      rw [Bool.and_eq_true, Bool.not_eq_true', List.isEmpty_eq_false_iff] at hstart
      obtain ⟨name, hname, rfl⟩ := mem_aliasParts.mp (List.mem_of_find?_eq_some hfind)
      exact absurd (List.isPrefixOf_iff_prefix.mp hstart.2) (h name hname hstart.1)
    case h_2 => rfl

section Fixed
variable {root : Text} {aliases : List Text} {allowRoot : Bool} {components : List Text}
    (hnamed : ∀ part ∈ components, Named part)

include hnamed

/-- A path that is settled comes back as it is. -/
theorem normalizeFileReference_joined (h : Settled aliases components) :
    normalizeFileReference (joined components) root aliases allowRoot = .ok (joined components) := by
  have hempty : (joined components).isEmpty = false := List.isEmpty_eq_false_iff.mpr (joined_ne_nil hnamed h.nonempty)
  have hnull : (joined components).contains '\x00' = false := by
    rw [← Bool.not_eq_true, List.contains_iff_mem]
    intro hmem
    obtain hslash | ⟨part, hpart, hc⟩ := mem_joined hmem
    · exact absurd hslash (by decide)
    · exact (hnamed part hpart).null hc
  have hparent : components.contains ['.', '.'] = false := by
    rw [← Bool.not_eq_true, List.contains_iff_mem]
    exact fun hmem => (hnamed _ hmem).notParent rfl
  have hfinished : finished (joined components) allowRoot components = .ok (joined components) := by
    rw [finished, List.isEmpty_eq_false_iff.mpr h.nonempty, if_neg Bool.false_ne_true]
  rw [normalizeFileReference]
  dsimp only
  rw [clean_joined hnamed h.first h.last, hnull, hempty, expanded_joined hnamed h.nonempty h.home,
    absolute_joined hnamed h.nonempty,
    uriPrefix_joined hnamed h.nonempty, windowsDrive_joined hnamed h.nonempty h.drive,
      parts_joined hnamed h.nonempty, hparent,
    withoutAlias_eq_self_iff.mpr h.aliases]
  exact hfinished

/-- A path that comes back as it is, is settled: whatever is taken from it makes it shorter. -/
theorem settled_of_fixed (hne : components ≠ []) (h : normalizeFileReference
    (joined components) root aliases allowRoot = .ok (joined components)) :
    Settled aliases components := by
  obtain ⟨hagain, hresult⟩ := normalizeFileReference_eq_ok h
  have hleft : leftover (joined components) root aliases ≠ [] := by
    intro hnil
    rw [if_pos hnil] at hresult
    have hsplit := splitOn_joined hnamed hne
    rw [hresult] at hsplit
    exact (hnamed ['.'] (by rw [← hsplit]; exact List.mem_singleton_self _)).notDot rfl
  rw [if_neg hleft] at hresult
  have hlength : (joined components).length ≤ (expanded (clean (joined components))).length := by
    have hweight := (weight_sublist (leftover_sublist (joined components) root aliases)).trans (weight_parts_le _)
    rw [← length_joined hleft, ← hresult] at hweight
    omega
  have hexpanded := length_expanded_le (clean (joined components))
  have hclean := length_clean (joined components)
  have hstripped : (joined components).length ≤ (stripOf isSpace (joined components)).length := by omega
  obtain ⟨hhead, hlast⟩ := ends_of_length_strip hstripped
  have hfirst : ∀ part ∈ components.head?, ∀ c ∈ part.head?, isSpace c = false := by
    intro part hpart c hc
    obtain ⟨rest, hrest⟩ : ∃ rest, components = part :: rest := List.head?_eq_some_iff.mp hpart
    exact hhead c (by rw [head_joined hnamed hrest]; exact hc)
  have hfinal : ∀ part ∈ components.getLast?, ∀ c ∈ part.getLast?, isSpace c = false := fun part hpart c hc =>
    hlast c (by rw [getLast_joined hnamed hpart]; exact hc)
  have hsame : clean (joined components) = joined components := clean_joined hnamed hfirst hfinal
  rw [hsame] at hlength
  have hhome : components.head? ≠ some ['~'] := by
    intro heq
    obtain ⟨rest, hrest⟩ := List.head?_eq_some_iff.mp heq
    cases rest with
    | nil =>
      have htilde : joined components = ['~'] := by rw [hrest, joined, List.intercalate_singleton]
      have hnil : leftover (joined components) root aliases = [] := by
        have hsub := leftover_sublist (joined components) root aliases
        rw [hsame, htilde] at hsub
        rw [htilde]
        exact List.sublist_nil.mp hsub
      exact hleft hnil
    | cons other more =>
      have hshape : joined components = '~' :: '/' :: joined (other :: more) := by
        rw [hrest, joined, List.intercalate_cons_cons]
        rfl
      rw [hshape, expanded, if_neg (by simp), if_pos (by simp), List.length_drop] at hlength
      simp only [List.length_cons] at hlength
      omega
  have hself : expanded (joined components) = joined components := expanded_joined hnamed hne hhome
  have habsolute := absolute_joined hnamed hne
  have haliases : withoutAlias aliases components = components := by
    rw [leftover, hsame, hself, habsolute, if_neg Bool.false_ne_true, parts_joined hnamed hne] at hresult hleft
    have hsub : ∀ part ∈ withoutAlias aliases components, Named part :=
        fun part hpart => hnamed part ((withoutAlias_suffix _ _).subset hpart)
    have hsplit := splitOn_joined hsub hleft
    rw [← hresult, splitOn_joined hnamed hne] at hsplit
    exact hsplit.symm
  refine ⟨hne, hhome, fun c next rest hdrive => ?_, hfirst, hfinal, withoutAlias_eq_self_iff.mp haliases⟩
  by_contra hletter
  have hshape : joined components = c :: ':' :: '/' :: joined (next :: rest) := by
    rw [hdrive, joined, List.intercalate_cons_cons]
    rfl
  have hwindows : windowsDrive (joined components) = true := by
    rw [hshape]
    exact Bool.not_eq_false _ |>.mp hletter
  rw [normalizeFileReference] at h
  dsimp only at h
  rw [hsame, hself, habsolute, hwindows, Bool.or_true] at h
  split at h
  · cases h
  · split at h
    · rw [List.isEmpty_iff] at *
      exact joined_ne_nil hnamed hne ‹_›
    · cases h

end Fixed

/-- The path that is returned is relative, without empty components, `.` and `..`, and comes back as it is,
just where something is left of the reference and nothing at the ends of it is read again. -/
theorem normalizeFileReference_settled {value root result : Text} {aliases : List Text} {allowRoot : Bool}
    (h : normalizeFileReference value root aliases allowRoot = .ok result) :
    (Canonical result ∧ normalizeFileReference result root aliases allowRoot = .ok result) ↔
    Settled aliases (leftover value root aliases) := by
  obtain ⟨hnamed, hresult⟩ := normalizeFileReference_eq_ok h
  by_cases hne : leftover value root aliases = []
  · rw [if_pos hne] at hresult
    subst hresult
    constructor
    · rintro ⟨⟨-, hparts⟩, -⟩
      exact absurd rfl (hparts ['.'] (by decide)).2.1
    · exact fun hsettled => absurd hne hsettled.nonempty
  · rw [if_neg hne] at hresult
    subst hresult
    refine ⟨fun ⟨_, hfixed⟩ => settled_of_fixed hnamed hne hfixed, fun hsettled =>
      ⟨⟨absolute_joined hnamed hne, ?_⟩, normalizeFileReference_joined hnamed hsettled⟩⟩
    rw [splitOn_joined hnamed hne]
    exact fun part hpart => ⟨(hnamed part hpart).nonempty, (hnamed part hpart).notDot, (hnamed part hpart).notParent⟩

theorem normalizeFileReference_settled_report :
    (Canonical "notes/a b.txt".toList ∧ normalizeFileReference "notes/a b.txt".toList []
      ["workspace".toList] false = .ok "notes/a b.txt".toList) ↔
      Settled ["workspace".toList] (leftover "workspace/./notes//a b.txt ".toList [] ["workspace".toList]) :=
  normalizeFileReference_settled (by decide)

/-- A directory that has the name of the alias: the path that is returned for its file names another one
when it comes back. -/
theorem alias_read_twice : ¬∀ (value root result : Text) (aliases : List Text) (allowRoot : Bool),
    normalizeFileReference value root aliases allowRoot = .ok result →
      Canonical result ∧ normalizeFileReference result root aliases allowRoot = .ok result := by
  intro h
  have hagain := (h "workspace/workspace/a.txt".toList [] "workspace/a.txt".toList
      ["workspace".toList] false (by decide)).2
  exact absurd hagain (by decide)

end Galaris.FileShare.PathNormalization
