import Galaris.Base.Results
import Galaris.Process.Values
import Mathlib.Algebra.BigOperators.Group.List.Basic
import Mathlib.Algebra.Order.BigOperators.Group.List
import Mathlib.Algebra.Order.Ring.Nat

/-! The value codec of Datasets (`document/data/values.py`).

External JSON is wrapped in envelopes by the type that is declared for it, what is nested by the type it has
(`wrapExternal`), and `unwrap` takes the envelopes away again. `normalize` completes named values by what is
declared. What it returns passes the same checks again: the limit on the items is shared by all values of an
object, and a value is never longer than the object that holds it. -/
namespace Galaris.Document.DataValues

open Process Results

/-! ### How long the JSON text is -/

/-- How many bytes a character takes in a JSON string. -/
def escapedSize (c : Char) : Nat :=
  if c = '"' || c = '\\' || c = '\n' || c = '\r' || c = '\t' || c.toNat = 8 || c.toNat = 12 then 2
  else if c.toNat < 32 then 6
  else c.utf8Size

def quotedSize (s : String) : Nat := 2 + (s.toList.map escapedSize).sum

/-- What separators take between so many parts. -/
def separators (parts : Nat) : Nat := 2 * (parts - 1)

section Size
variable (repr : Rat → String)

mutual

/-- The size in bytes of `json.dumps(value, ensure_ascii=False)`; `repr` is the text of a float. -/
def dumpsSize : Json → Nat
  | .null => 4
  | .bool b => if b then 4 else 5
  | .int n => (toString n).utf8ByteSize
  | .float x => (repr x).utf8ByteSize
  | .str s => quotedSize s
  | .arr items => 2 + itemsSize items + separators items.length
  | .obj entries => 2 + entriesSize entries + separators entries.length

def itemsSize : List Json → Nat
  | [] => 0
  | item :: rest => dumpsSize item + itemsSize rest

def entriesSize : List (String × Json) → Nat
  | [] => 0
  | (key, value) :: rest => quotedSize key + 2 + dumpsSize value + entriesSize rest

end

end Size

/-- What the codec calls besides: the parser of resource URIs, and the texts of floats. -/
structure Outside where
  parseResourceUri : String → Except String ResourceUri
  repr : Rat → String

def Outside.boundary (O : Outside) : Boundary := ⟨O.parseResourceUri, dumpsSize O.repr⟩

/-! ### The codec -/

section Codec
variable (O : Outside)

/-- An envelope. -/
def typed (kind : ValueType) (raw : Json) : Json := .obj [("type", .str kind.name), ("value", raw)]

/-- `validate_value`, which returns a copy. -/
def validateValue (path : String) (value : Json) : Except String Json := do
  codecValidateValue O.boundary path value
  return value

/-- `validate_values`. -/
def validateValues (path : String) (values : List (String × Json)) : Except String (List (String × Json)) :=
  values.foldlM (fun rest (key, value) =>
      validate O.boundary (maxDepth + 1) value (path ++ "." ++ key) rest) maxNodes >>= fun _ =>
    if O.boundary.jsonSize (.obj values) > maxValueBytes
      then .error (valueError path "values exceed the JSON size limit") else .ok values

/-- One declaration is checked, against the names before it. -/
def declare (path : String) (names : List String) (v : Variable) : Except String (List String) :=
  if (Variable.load O.boundary v.dump).isNone then .error (valueError v.name "invalid declaration")
  else if v.name ∈ names then .error (valueError path ("duplicate variable " ++ v.name))
  else .ok (v.name :: names)

/-- `validate_declarations`. -/
def validateDeclarations (path : String) (declared : List Variable) : Except String Unit :=
  if declared.length > 500 then .error (valueError path "too many declared variables")
  else declared.foldlM (declare O path) [] >>= fun _ => .ok ()

/-- `value["type"]` and `value["value"]`, of an envelope. -/
def kindOf (value : Json) : Option Json := (envelope value).map (·.1)

def rawOf (value : Json) : Option Json := (envelope value).map (·.2)

def isKind (kind : Option Json) (expected : ValueType) : Bool :=
  match kind with
  | some (.str name) => name == expected.name
  | _ => false

/-- The value that a variable is given, or its default. -/
def valueOf (location : String) (source : List (String × Json)) (v : Variable) : Except String Json :=
  match source.lookup v.name with
  | some value => validateValue O location value
  | none =>
    match v.default with
    | some d => .ok d.dump
    | none =>
      if v.nullable then .ok (typed v.type .null)
        else .error (valueError location "missing notnull variable without a default")

/-- A value agrees with its declaration. -/
def checkOne (location : String) (v : Variable) (value : Json) : Except String (String × Json) :=
  if !isKind (kindOf value) v.type then .error (valueError location ("expected type " ++ v.type.name))
  else if (rawOf value).any Json.isNull && !v.nullable then .error (valueError location "null is not allowed")
  else .ok (v.name, value)

def normalizeOne (path : String) (source : List (String × Json)) (v : Variable) : Except String (String × Json) :=
  valueOf O (path ++ "." ++ v.name) source v >>= checkOne (path ++ "." ++ v.name) v

/-- Values that nobody declared. -/
def undeclared (declared : List Variable) (source : List (String × Json)) : List String :=
  (source.map (·.1)).filter fun name => !(declared.map (·.name)).contains name

def checkUndeclared (path : String) (allowExtra : Bool) : List String → Except String Unit
  | [] => .ok ()
  | name :: _ => if allowExtra then .ok () else .error (valueError path ("undeclared variable " ++ name))

/-- `normalize`. -/
def normalize (declared : List Variable) (values : Json) (path : String) (allowExtra : Bool) :
    Except String (List (String × Json)) :=
  validateDeclarations O path declared >>= fun _ =>
    match values with
    | .obj source =>
      checkUndeclared path allowExtra (undeclared declared source) >>= fun _ =>
        declared.mapM (normalizeOne O path source) >>= validateValues O path
    | _ => .error (valueError path "expected an object of named typed values")

/-- The type of a nested value. -/
def inferred : Json → Option ValueType
  | .null => none
  | .bool _ => some .bool
  | .int _ => some .int
  | .float _ => some .float
  | .str _ => some .string
  | .arr _ => some .array
  | .obj _ => some .object

/-- The end of `wrap_external`. -/
def wrapped (kind : ValueType) (value : Json) : Except String Json := validateValue O "value" (typed kind value)

mutual

/-- `wrap_external`. -/
def wrapExternal (kind : ValueType) : Json → Except String Json
  | .arr items =>
    if kind = .array then do
      let items ← nestedItems items
      wrapped O kind (.arr items)
    else wrapped O kind (.arr items)
  | .obj entries =>
    if kind = .object then do
      let entries ← nestedEntries entries
      wrapped O kind (.obj entries)
    else wrapped O kind (.obj entries)
  | raw => wrapped O kind raw

def nestedItems : List Json → Except String (List Json)
  | [] => .ok []
  | item :: rest =>
    (match inferred item with
      | none => .error (valueError "output" "a nested null requires an explicit typed output mapping")
      | some kind => wrapExternal kind item) >>= fun item => nestedItems rest >>= fun rest => pure (item :: rest)

def nestedEntries : List (String × Json) → Except String (List (String × Json))
  | [] => .ok []
  | (key, item) :: rest =>
    (match inferred item with
      | none => .error (valueError "output" "a nested null requires an explicit typed output mapping")
      | some kind =>
        wrapExternal kind item) >>= fun item => nestedEntries rest >>= fun rest =>
          pure ((key, item) :: rest)

end

/-- The fields of an external object that are declared, wrapped. -/
def selected (values : List (String × Json)) : List Variable → Except String (List (String × Json))
  | [] => .ok []
  | v :: rest =>
    match values.lookup v.name with
    | none => selected values rest
    | some raw =>
      wrapExternal O v.type raw >>= fun value => selected values rest >>= fun others =>
        pure ((v.name, value) :: others)

/-- `external_outputs`. -/
def externalOutputs (declared : List Variable) (raw : Json) (path : String) (typedValues : Bool) :
    Except String (List (String × Json)) :=
  if typedValues then normalize O declared raw path false
  else
    match raw with
    | .obj values => selected O values declared >>= fun chosen => normalize O declared (.obj chosen) path false
    | _ => .error (valueError path "external output needs an object or an explicit output mapping")

end Codec

mutual

/-- `unwrap`, of a value that the validation accepts. -/
def unwrap : Json → Json
  | .obj entries => unwrapValue (entries.lookup "type") entries
  | value => value

/-- The raw value among the fields of an envelope. -/
def unwrapValue (kind : Option Json) : List (String × Json) → Json
  | [] => .null
  | (key, raw) :: rest => if key = "value" then unwrapRaw kind raw else unwrapValue kind rest

def unwrapRaw (kind : Option Json) : Json → Json
  | .arr items => if isKind kind .array then .arr (unwrapItems items) else .arr items
  | .obj entries => if isKind kind .object then .obj (unwrapEntries entries) else .obj entries
  | raw => raw

def unwrapItems : List Json → List Json
  | [] => []
  | item :: rest => unwrap item :: unwrapItems rest

def unwrapEntries : List (String × Json) → List (String × Json)
  | [] => []
  | (key, item) :: rest => (key, unwrap item) :: unwrapEntries rest

end

/-! ### Wrapping and unwrapping -/

section Roundtrip
variable {O : Outside}

theorem isKind_name (kind expected : ValueType) : isKind (some (.str kind.name)) expected = true ↔ kind = expected := by
  constructor
  · intro h
    have h : (kind.name == expected.name) = true := h
    cases kind <;> cases expected <;> first | rfl | exact absurd h (by decide)
  · rintro rfl
    exact beq_self_eq_true _

theorem validateValue_eq_ok {path : String} {value w : Json} (h : validateValue O path value = .ok w) :
    codecValidateValue O.boundary path value = .ok () ∧ w = value := by
  rw [validateValue, bind_eq_ok] at h
  obtain ⟨_, hchecked, hreturned⟩ := h
  exact ⟨hchecked, (pure_eq_ok.mp hreturned).symm⟩

theorem wrapped_eq_ok {kind : ValueType} {value w : Json} (h : wrapped O kind value = .ok w) :
    w = typed kind value := (validateValue_eq_ok h).2

theorem unwrap_typed (kind : ValueType) (raw : Json) :
    unwrap (typed kind raw) = unwrapRaw (some (.str kind.name)) raw := rfl

theorem wrapExternal_scalar (kind : ValueType) (raw : Json) (harr : ∀ items, raw ≠ .arr items)
    (hobj : ∀ entries, raw ≠ .obj entries) :
    wrapExternal O kind raw = wrapped O kind raw := wrapExternal.eq_3 O kind raw harr hobj

mutual

/-- What is wrapped is unwrapped to itself, whatever type it was declared with. -/
theorem unwrap_wrapExternal :
    ∀ {raw : Json} {kind : ValueType} {w : Json}, wrapExternal O kind raw = .ok w → unwrap w = raw
  | .null, kind, w, h => by
    rw [wrapExternal_scalar kind .null nofun nofun] at h
    rw [wrapped_eq_ok h, unwrap_typed]
    rfl
  | .bool b, kind, w, h => by
    rw [wrapExternal_scalar kind (.bool b) nofun nofun] at h
    rw [wrapped_eq_ok h, unwrap_typed]
    rfl
  | .int n, kind, w, h => by
    rw [wrapExternal_scalar kind (.int n) nofun nofun] at h
    rw [wrapped_eq_ok h, unwrap_typed]
    rfl
  | .float x, kind, w, h => by
    rw [wrapExternal_scalar kind (.float x) nofun nofun] at h
    rw [wrapped_eq_ok h, unwrap_typed]
    rfl
  | .str s, kind, w, h => by
    rw [wrapExternal_scalar kind (.str s) nofun nofun] at h
    rw [wrapped_eq_ok h, unwrap_typed]
    rfl
  | .arr items, kind, w, h => by
    rw [wrapExternal] at h
    split at h
    case isTrue hkind =>
      rw [bind_eq_ok] at h
      obtain ⟨items', hitems, hwrapped⟩ := h
      rw [wrapped_eq_ok hwrapped, unwrap_typed, unwrapRaw, if_pos ((isKind_name _ _).mpr hkind),
        unwrapItems_nestedItems hitems]
    case isFalse hkind =>
      rw [wrapped_eq_ok h, unwrap_typed, unwrapRaw, if_neg fun heq => hkind ((isKind_name _ _).mp heq)]
  | .obj entries, kind, w, h => by
    rw [wrapExternal] at h
    split at h
    case isTrue hkind =>
      rw [bind_eq_ok] at h
      obtain ⟨entries', hentries, hwrapped⟩ := h
      rw [wrapped_eq_ok hwrapped, unwrap_typed, unwrapRaw, if_pos ((isKind_name _ _).mpr hkind),
        unwrapEntries_nestedEntries hentries]
    case isFalse hkind =>
      rw [wrapped_eq_ok h, unwrap_typed, unwrapRaw, if_neg fun heq => hkind ((isKind_name _ _).mp heq)]

theorem unwrapItems_nestedItems :
    ∀ {items items' : List Json}, nestedItems O items = .ok items' → unwrapItems items' = items
  | [], items', h => by
    rw [nestedItems] at h
    cases h
    rfl
  | item :: rest, items', h => by
    simp only [nestedItems, bind_eq_ok, pure_eq_ok] at h
    obtain ⟨item', hitem, rest', hrest, rfl⟩ := h
    split at hitem
    case h_1 => cases hitem
    case h_2 => rw [unwrapItems, unwrap_wrapExternal hitem, unwrapItems_nestedItems hrest]

theorem unwrapEntries_nestedEntries : ∀ {entries entries' : List (String × Json)},
    nestedEntries O entries = .ok entries' → unwrapEntries entries' = entries
  | [], entries', h => by
    rw [nestedEntries] at h
    cases h
    rfl
  | (key, item) :: rest, entries', h => by
    simp only [nestedEntries, bind_eq_ok, pure_eq_ok] at h
    obtain ⟨item', hitem, rest', hrest, rfl⟩ := h
    split at hitem
    case h_1 => cases hitem
    case h_2 => rw [unwrapEntries, unwrap_wrapExternal hitem, unwrapEntries_nestedEntries hrest]

end

end Roundtrip

/-! ### The checks pass again -/

section Again
variable {O : Outside}

/-- A value that is valid with some items left is so with more, and under another path. -/
theorem validate_more {B : Boundary} (k : Nat) : ∀ {fuel : Nat} {value : Json} {path path' : String} {a b : Nat},
    validate B fuel value path a = .ok b → validate B fuel value path' (a + k) = .ok (b + k)
  | 0, _, _, _, _, _, h => nomatch h
  | fuel + 1, value, path, path', 0, b, h => by
    rw [validate] at h
    cases h
  | fuel + 1, value, path, path', a + 1, b, h => by
    rw [show a + 1 + k = (a + k) + 1 by omega]
    unfold validate at h ⊢
    split at h
    case h_2 => cases h
    case h_1 entries =>
      dsimp only at h ⊢
      split at h
      case h_1 => cases h
      case h_2 kind raw henvelope =>
        split at h
        case h_1 => cases h
        case h_2 type htype =>
          split at h
          · cases h
            rfl
          · obtain ⟨e, he, rfl⟩ := foldlM_simulates (R := fun a d => d = a + k)
              (fun x a b d hR hchild => ⟨b + k, hR ▸ validate_more k hchild, rfl⟩) rfl h
            exact he
          · cases h
          · obtain ⟨e, he, rfl⟩ := foldlM_simulates (R := fun a d => d = a + k)
              (fun x a b d hR hchild => ⟨b + k, hR ▸ validate_more k hchild, rfl⟩) rfl h
            exact he
          · cases h
          · split at h
            · cases h
            · cases h
              rfl

theorem validate_le {B : Boundary} {fuel : Nat} {value : Json} {path path' : String} {a b c : Nat}
    (h : validate B fuel value path a = .ok b) (hle : a ≤ c) :
    ∃ d, validate B fuel value path' c = .ok d := by
  obtain ⟨k, rfl⟩ := Nat.exists_eq_add_of_le hle
  exact ⟨_, validate_more k h⟩

/-- Validation takes items, and gives none back. -/
theorem foldlM_le {α : Type} {f : Nat → α → Except String Nat} (hf : ∀ a x b, f a x = .ok b → b ≤ a)
    {xs : List α} {a b : Nat} (h : xs.foldlM f a = .ok b) : b ≤ a := by
  induction xs generalizing a with
  | nil =>
    cases h
    exact le_refl _
  | cons x rest ih =>
    rw [List.foldlM_cons, bind_eq_ok] at h
    obtain ⟨mid, hfirst, hrest⟩ := h
    exact (ih hrest).trans (hf a x mid hfirst)

theorem validate_takes {B : Boundary} : ∀ {fuel : Nat} {value : Json} {path : String} {a b : Nat},
    validate B fuel value path a = .ok b → b ≤ a
  | 0, _, _, _, _, h => nomatch h
  | fuel + 1, value, path, 0, b, h => by
    rw [validate] at h
    cases h
  | fuel + 1, value, path, a + 1, b, h => by
    unfold validate at h
    split at h
    case h_2 => cases h
    case h_1 entries =>
      split at h
      case h_1 => cases h
      case h_2 kind raw henvelope =>
        split at h
        case h_1 => cases h
        case h_2 type htype =>
          split at h
          · cases h
            omega
          · exact (foldlM_le (fun _ _ _ h => validate_takes h) h).trans (Nat.le_succ a)
          · cases h
          · exact (foldlM_le (fun _ _ _ h => validate_takes h) h).trans (Nat.le_succ a)
          · cases h
          · split at h
            · cases h
            · cases h
              omega

/-- Each value of an object that is valid as a whole is so by itself. -/
theorem validate_of_foldlM {B : Boundary} {path : String} {values : List (String × Json)} {a b : Nat}
    (h : values.foldlM (fun rest (key, value) =>
      validate B (maxDepth + 1) value (path ++ "." ++ key) rest) a = .ok b) (ha : a ≤ maxNodes) :
    ∀ key value, (key, value) ∈ values → ∀ path', ∃ c, validate B (maxDepth + 1) value path' maxNodes = .ok c := by
  induction values generalizing a with
  | nil => exact fun _ _ hmem => absurd hmem List.not_mem_nil
  | cons entry rest ih =>
    rw [List.foldlM_cons, bind_eq_ok] at h
    obtain ⟨mid, hfirst, hrest⟩ := h
    intro key value hmem path'
    obtain rfl | hmem := List.mem_cons.mp hmem
    · exact validate_le hfirst ha
    · exact ih hrest ((validate_takes hfirst).trans ha) key value hmem path'

theorem entriesSize_of_mem {repr : Rat → String} {entries : List (String × Json)} {key : String}
    {value : Json} (h : (key, value) ∈ entries) :
    dumpsSize repr value ≤ entriesSize repr entries := by
  induction entries with
  | nil => exact absurd h List.not_mem_nil
  | cons entry rest ih =>
    rw [entriesSize]
    obtain rfl | hmem := List.mem_cons.mp h
    · exact Nat.le_trans (Nat.le_add_left _ _) (Nat.le_add_right _ _)
    · exact (ih hmem).trans (Nat.le_add_left _ _)

theorem validateValues_eq_ok {path : String} {values result : List (String × Json)}
    (h : validateValues O path values = .ok result) :
    (∃ rest, values.foldlM (fun rest (key, value) =>
      validate O.boundary (maxDepth + 1) value (path ++ "." ++ key) rest) maxNodes = .ok rest) ∧
      O.boundary.jsonSize (.obj values) ≤ maxValueBytes ∧ values = result := by
  rw [validateValues, bind_eq_ok] at h
  obtain ⟨rest, hfold, hsize⟩ := h
  split at hsize
  · cases hsize
  · next hle => exact ⟨⟨rest, hfold⟩, Nat.le_of_not_lt hle, Except.ok.inj hsize⟩

/-- A value of an object that passes the checks passes them by itself. -/
theorem validateValue_of_validateValues {path : String} {values result : List (String × Json)}
    (h : validateValues O path values = .ok result)
    {key : String} {value : Json} (hmem : (key, value) ∈ values) (path' : String) :
    validateValue O path' value = .ok value := by
  obtain ⟨⟨rest, hfold⟩, hle, -⟩ := validateValues_eq_ok h
  obtain ⟨c, hc⟩ := validate_of_foldlM hfold (le_refl _) key value hmem path'
  have hpart : O.boundary.jsonSize value ≤ O.boundary.jsonSize (.obj values) := by
    show dumpsSize O.repr value ≤ 2 + entriesSize O.repr values + separators values.length
    have hentry : dumpsSize O.repr value ≤ entriesSize O.repr values := entriesSize_of_mem hmem
    omega
  simp only [validateValue, codecValidateValue, bind_eq_ok, pure_eq_ok, and_true]
  refine ⟨(), c, hc, ?_⟩
  rw [if_neg (Nat.not_lt.mpr (hpart.trans hle))]
  rfl

theorem validateValues_again {path path' : String} {values result : List (String × Json)}
    (h : validateValues O path values = .ok result) :
    validateValues O path' values = .ok values := by
  obtain ⟨⟨rest, hfold⟩, hle, -⟩ := validateValues_eq_ok h
  obtain ⟨e, he, -⟩ := foldlM_simulates (R := Eq) (g :=
    fun rest (key, value) => validate O.boundary (maxDepth + 1) value (path' ++ "." ++ key) rest)
    (fun x a b d hR hchild => ⟨b, hR ▸ validate_more 0 hchild, rfl⟩) rfl hfold
  rw [validateValues, he]
  exact if_neg (Nat.not_lt.mpr hle)

/-! ### What is declared -/

theorem declare_eq_ok {path : String} {names names' : List String} {v : Variable} :
    declare O path names v = .ok names' ↔ (Variable.load O.boundary v.dump).isNone = false ∧
        v.name ∉ names ∧ v.name :: names = names' := by
  unfold declare
  split_ifs with hload hmem
  · exact iff_of_false nofun fun h => absurd (hload.symm.trans h.1) nofun
  · exact iff_of_false nofun fun h => h.2.1 hmem
  · exact ⟨fun h => ⟨Bool.eq_false_iff.mpr hload, hmem, Except.ok.inj h⟩, fun h => congrArg Except.ok h.2.2⟩

/-- The names that are declared, last first, are those before and no name twice. -/
theorem nodup_of_declare {path : String} {declared : List Variable} {names names' : List String}
    (h : declared.foldlM (declare O path) names = .ok names')
    (hnodup : names.Nodup) : (names.reverse ++ declared.map (·.name)).Nodup := by
  induction declared generalizing names with
  | nil => simpa using hnodup
  | cons v rest ih =>
    rw [List.foldlM_cons, bind_eq_ok] at h
    obtain ⟨mid, hfirst, hrest⟩ := h
    obtain ⟨-, hfresh, rfl⟩ := declare_eq_ok.mp hfirst
    have := ih hrest (List.nodup_cons.mpr ⟨hfresh, hnodup⟩)
    simpa using this

theorem validateDeclarations_eq_ok {path : String} {declared : List Variable} {u : Unit}
    (h : validateDeclarations O path declared = .ok u) :
    (declared.map (·.name)).Nodup ∧ ∀ path', validateDeclarations O path' declared = .ok () := by
  unfold validateDeclarations at h ⊢
  split at h
  case isTrue => cases h
  case isFalse hlength =>
    rw [bind_eq_ok] at h
    obtain ⟨names, hnames, -⟩ := h
    refine ⟨by simpa using nodup_of_declare hnames List.nodup_nil, fun path' => ?_⟩
    obtain ⟨e, he, -⟩ := foldlM_simulates (R := Eq) (g := declare O path')
      (fun v a b d hR hstep => ⟨b, hR ▸ declare_eq_ok.mpr (declare_eq_ok.mp hstep), rfl⟩) rfl hnames
    rw [if_neg hlength, he]
    rfl

/-! ### Values that are normalized -/

theorem checkOne_eq_ok {location : String} {v : Variable} {value : Json} {entry : String × Json}
    (h : checkOne location v value = .ok entry) :
    entry = (v.name, value) ∧ ∀ location', checkOne location' v value = .ok (v.name, value) := by
  unfold checkOne at h ⊢
  split_ifs at h with hkind hnull
  refine ⟨(Except.ok.inj h).symm, fun location' => ?_⟩
  rw [if_neg hkind, if_neg hnull]

/-- The value of a variable before it is checked: what is given, or the default, or null. -/
def givenOr (source : List (String × Json)) (v : Variable) : Json :=
  (source.lookup v.name).getD ((v.default.map TypedValue.dump).getD (typed v.type .null))

theorem valueOf_eq_ok {location : String} {source : List (String × Json)} {v : Variable}
    {value : Json} (h : valueOf O location source v = .ok value) :
    value = givenOr source v := by
  unfold valueOf at h
  unfold givenOr
  split at h
  case h_1 given hgiven =>
    rw [hgiven, (validateValue_eq_ok h).2]
    rfl
  case h_2 hgiven =>
    rw [hgiven]
    split at h
    case h_1 d hd =>
      cases h
      rw [hd]
      rfl
    case h_2 hd =>
      split_ifs at h with hnullable
      cases h
      rw [hd]
      rfl

theorem normalizeOne_eq_ok {path : String} {source : List (String × Json)} {v : Variable}
    {entry : String × Json} (h : normalizeOne O path source v = .ok entry) :
    entry = (v.name, givenOr source v) ∧ ∀ location,
        checkOne location v (givenOr source v) = .ok (v.name, givenOr source v) := by
  rw [normalizeOne, bind_eq_ok] at h
  obtain ⟨value, hvalue, hchecked⟩ := h
  rw [valueOf_eq_ok hvalue] at hchecked
  exact checkOne_eq_ok hchecked

/-- What `normalize` returns: each declared variable once, in order. -/
theorem normalize_eq_ok {declared : List Variable} {values : Json} {path : String}
    {allowExtra : Bool} {result : List (String × Json)}
    (h : normalize O declared values path allowExtra = .ok result) :
    ∃ source, values = .obj source ∧ validateDeclarations O path declared = .ok () ∧
    result = declared.map (fun v => (v.name, givenOr source v)) ∧
      (∀ v ∈ declared, ∀ location, checkOne location v (givenOr source v) =
        .ok (v.name, givenOr source v)) ∧ validateValues O path result = .ok result := by
  unfold normalize at h
  rw [bind_eq_ok] at h
  obtain ⟨⟨⟩, hdeclared, h⟩ := h
  cases values with
  | null | bool | int | float | str | arr => cases h
  | obj source =>
    simp only [bind_eq_ok] at h
    obtain ⟨-, -, entries, hentries, hchecked⟩ := h
    obtain ⟨-, -, rfl⟩ := validateValues_eq_ok hchecked
    have heach := mapM_each hentries
    refine ⟨source, rfl, hdeclared, ?_, ?_, hchecked⟩
    · exact mapM_eq_map (fun v entry h => (normalizeOne_eq_ok h).1) hentries
    · intro v hv
      obtain ⟨entry, hone⟩ := heach v hv
      exact (normalizeOne_eq_ok hone).2

/-- Normalizing again changes nothing. -/
theorem normalize_again {declared : List Variable} {values : Json} {path : String}
    {allowExtra : Bool} {result : List (String × Json)}
    (h : normalize O declared values path allowExtra = .ok result) (path' : String) (allowExtra' : Bool) :
    normalize O declared (.obj result) path' allowExtra' = .ok result := by
  obtain ⟨source, -, hdeclared, hresult, hagree, hchecked⟩ := normalize_eq_ok h
  obtain ⟨hnodup, hagain⟩ := validateDeclarations_eq_ok hdeclared
  have hnames : Json.keys result = declared.map (·.name) := by
    rw [hresult, Json.keys, List.map_map]
    rfl
  have hundeclared : undeclared declared result = [] := by
    rw [undeclared, List.filter_eq_nil_iff]
    intro name hname
    rw [show result.map (·.1) = declared.map (·.name) from hnames] at hname
    simpa using hname
  have hone : ∀ v ∈ declared, normalizeOne O path' result v = .ok (v.name, givenOr source v) := by
    intro v hv
    have hmem : (v.name, givenOr source v) ∈ result := hresult ▸ List.mem_map.mpr ⟨v, hv, rfl⟩
    rw [normalizeOne, bind_eq_ok]
    refine ⟨givenOr source v, ?_, hagree v hv _⟩
    rw [valueOf, Json.lookup_eq_some_of_mem (hnames ▸ hnodup) hmem]
    exact validateValue_of_validateValues hchecked hmem _
  rw [normalize, hagain path']
  show (checkUndeclared path' allowExtra' (undeclared declared result) >>= fun _ =>
        declared.mapM (normalizeOne O path' result) >>= validateValues O path') = .ok result
  rw [hundeclared]
  show declared.mapM (normalizeOne O path' result) >>= validateValues O path' = .ok result
  rw [bind_eq_ok]
  refine ⟨result, ?_, validateValues_again hchecked⟩
  rw [mapM_eq_ok]
  conv => rhs; rw [hresult]
  rw [List.forall₂_map_right_iff, List.forall₂_same]
  exact hone

end Again

/-! ### Outputs from outside -/

section Outputs
variable {O : Outside}

/-- What an external object says of a variable, as plain JSON: its field, or the default, or null. -/
def fieldOf (typedValues : Bool) (source : List (String × Json)) (v : Variable) : Json :=
  match source.lookup v.name with
  | some raw => if typedValues then unwrap raw else raw
  | none =>
    match v.default with
    | some d => unwrap d.dump
    | none => .null

theorem unwrapEntries_eq_map (entries : List (String × Json)) :
    unwrapEntries entries = entries.map fun entry => (entry.1, unwrap entry.2) := by
  induction entries with
  | nil => rfl
  | cons entry rest ih => rw [unwrapEntries, ih, List.map_cons]

theorem unwrap_givenOr (source : List (String × Json)) (v : Variable) :
    unwrap (givenOr source v) = fieldOf true source v := by
  unfold givenOr fieldOf
  cases source.lookup v.name with
  | some value => rfl
  | none =>
    cases v.default with
    | some d => rfl
    | none => rfl

theorem selected_fresh {values chosen : List (String × Json)} {declared : List Variable}
    (h : selected O values declared = .ok chosen) {name : String}
    (hname : name ∉ declared.map (·.name)) : chosen.lookup name = none := by
  induction declared generalizing chosen with
  | nil =>
    cases h
    rfl
  | cons v rest ih =>
    rw [List.map_cons, List.mem_cons, not_or] at hname
    rw [selected] at h
    split at h
    case h_1 => exact ih h hname.2
    case h_2 raw hraw =>
      simp only [bind_eq_ok, pure_eq_ok] at h
      obtain ⟨value, -, others, hothers, rfl⟩ := h
      rw [List.lookup_cons, beq_eq_false_iff_ne.mpr hname.1]
      exact ih hothers hname.2

/-- What is selected for a variable is its field, wrapped. -/
theorem selected_field {values chosen : List (String × Json)} {declared : List Variable}
    (h : selected O values declared = .ok chosen)
    (hnodup : (declared.map (·.name)).Nodup) {v : Variable} (hv : v ∈ declared) :
    fieldOf true chosen v = fieldOf false values v := by
  induction declared generalizing chosen with
  | nil => exact absurd hv List.not_mem_nil
  | cons w rest ih =>
    rw [List.map_cons, List.nodup_cons] at hnodup
    rw [selected] at h
    split at h
    case h_1 hnone =>
      obtain rfl | hrest := List.mem_cons.mp hv
      · simp only [fieldOf, selected_fresh h hnodup.1, hnone]
      · exact ih h hnodup.2 hrest
    case h_2 raw hraw =>
      simp only [bind_eq_ok, pure_eq_ok] at h
      obtain ⟨value, hvalue, others, hothers, rfl⟩ := h
      obtain rfl | hrest := List.mem_cons.mp hv
      · simp only [fieldOf, List.lookup_cons_self, hraw, if_true, unwrap_wrapExternal hvalue]
        rfl
      · have hne : v.name ≠ w.name := fun heq => hnodup.1 (heq ▸ List.mem_map.mpr ⟨v, hrest, rfl⟩)
        rw [← ih hothers hnodup.2 hrest]
        simp only [fieldOf, List.lookup_cons, beq_eq_false_iff_ne.mpr hne]

/-- A normalized object holds, unwrapped, what its source says of every variable. -/
theorem normalize_fields {declared : List Variable} {values : Json} {path : String}
    {allowExtra : Bool} {result : List (String × Json)}
    (h : normalize O declared values path allowExtra = .ok result) :
    ∃ source, values = .obj source ∧ (declared.map (·.name)).Nodup ∧
    unwrapEntries result = declared.map fun v => (v.name, fieldOf true source v) := by
  obtain ⟨source, hsource, hdeclared, hresult, -, -⟩ := normalize_eq_ok h
  refine ⟨source, hsource, (validateDeclarations_eq_ok hdeclared).1, ?_⟩
  rw [unwrapEntries_eq_map, hresult, List.map_map]
  exact List.map_congr_left fun v _ => by rw [Function.comp_apply, unwrap_givenOr]

/-- Wrapping undoes itself, and outputs from outside keep the declared fields. -/
theorem external_roundtrip (O : Outside) :
    (∀ kind raw value, wrapExternal O kind raw = .ok value → unwrap value = raw) ∧
      ∀ declared raw path typedValues result, externalOutputs O declared raw path typedValues = .ok result →
        (∃ source, raw = .obj source ∧
          unwrapEntries result = declared.map fun v => (v.name, fieldOf typedValues source v)) ∧
          ∀ path' allowExtra, normalize O declared (.obj result) path' allowExtra = .ok result := by
  refine ⟨fun kind raw value h => unwrap_wrapExternal h, fun declared raw path typedValues result h => ?_⟩
  cases typedValues with
  | true =>
    have h : normalize O declared raw path false = .ok result := h
    obtain ⟨source, hsource, -, hfields⟩ := normalize_fields h
    exact ⟨⟨source, hsource, hfields⟩, normalize_again h⟩
  | false =>
    cases raw with
    | null | bool | int | float | str | arr => cases h
    | obj values =>
      have h : (selected O values declared >>=
          fun chosen => normalize O declared (.obj chosen) path false) = .ok result := h
      rw [bind_eq_ok] at h
      obtain ⟨chosen, hchosen, h⟩ := h
      obtain ⟨source, hsource, hnodup, hfields⟩ := normalize_fields h
      cases hsource
      refine ⟨⟨values, rfl, ?_⟩, normalize_again h⟩
      rw [hfields]
      exact List.map_congr_left fun v hv => by rw [selected_field hchosen hnodup hv]

end Outputs

end Galaris.Document.DataValues
