import Galaris.Base.Texts
import Mathlib.Data.Rat.Defs
import Mathlib.Data.List.Nodup
import Mathlib.Data.List.Perm.Subperm
import Mathlib.Algebra.Order.Ring.Int
import Mathlib.Algebra.Order.Ring.Nat

/-! JSON values and the typed envelopes of the data contract (`values.py`).

`Json` is what Python's `json` module reads and writes. Objects are association lists
whose keys are distinct at every level (`Json.WellFormed`), and `Json.same` is Python's
`==`, under which `True`, `1` and `1.0` are equal and the order of keys does not count.
An envelope `{"type": …, "value": …}` is checked by `validateValue` against the bounds
and the type it names. -/
namespace Galaris.Process

/-- A JSON value. A float is finite and stands for its exact value. -/
inductive Json
  | null
  | bool (b : Bool)
  | int (n : Int)
  | float (x : Rat)
  | str (s : String)
  | arr (items : List Json)
  | obj (entries : List (String × Json))
  deriving Inhabited

namespace Json

/-! ### Python's equality -/

/-- The number a value compares as; Python's booleans are integers. -/
def number : Json → Option Rat
  | .bool b => some (if b then 1 else 0)
  | .int n => some n
  | .float x => some x
  | _ => none

mutual

/-- Python's `==`. -/
def same : Json → Json → Bool
  | .null, .null => true
  | .str s, .str t => s == t
  | .arr xs, .arr ys => sameItems xs ys
  | .obj xs, .obj ys => xs.length == ys.length && sameEntries xs ys
  | .bool b, y => (Json.bool b).number == y.number
  | .int n, y => (Json.int n).number == y.number
  | .float x, y => (Json.float x).number == y.number
  | _, _ => false

def sameItems : List Json → List Json → Bool
  | [], [] => true
  | x :: xs, y :: ys => x.same y && sameItems xs ys
  | _, _ => false

/-- Every entry has its counterpart; with as many keys on both sides that is `==` of dicts. -/
def sameEntries : List (String × Json) → List (String × Json) → Bool
  | [], _ => true
  | (key, x) :: xs, ys =>
    (match ys.lookup key with
      | some y => x.same y
      | none => false) && sameEntries xs ys

end

def keys (entries : List (String × Json)) : List String := entries.map (·.1)

mutual

/-- The keys of every object are distinct, as those of a Python `dict` are. -/
def WellFormed : Json → Prop
  | .arr items => WellFormedItems items
  | .obj entries => (keys entries).Nodup ∧ WellFormedEntries entries
  | _ => True

def WellFormedItems : List Json → Prop
  | [] => True
  | x :: xs => x.WellFormed ∧ WellFormedItems xs

def WellFormedEntries : List (String × Json) → Prop
  | [] => True
  | (_, x) :: xs => x.WellFormed ∧ WellFormedEntries xs

end

/-! ### The equality is an equivalence -/

theorem lookup_eq_some_of_mem {entries : List (String × Json)} (hnodup : (keys entries).Nodup)
    {key : String} {x : Json} (h : (key, x) ∈ entries) : entries.lookup key = some x := by
  induction entries with
  | nil => cases h
  | cons entry rest ih =>
    obtain ⟨k, y⟩ := entry
    simp only [keys, List.map_cons, List.nodup_cons] at hnodup
    rcases List.mem_cons.mp h with heq | hrest
    · cases heq
      simp
    · have hne : (key == k) = false := by
        rw [beq_eq_false_iff_ne]
        rintro rfl
        exact hnodup.1 (List.mem_map.mpr ⟨_, hrest, rfl⟩)
      rw [List.lookup_cons, hne]
      exact ih hnodup.2 hrest

theorem sameEntries_iff (xs ys : List (String × Json)) :
    sameEntries xs ys = true ↔ ∀ key x, (key, x) ∈ xs → ∃ y, ys.lookup key = some y ∧ x.same y = true := by
  induction xs with
  | nil => simp [sameEntries]
  | cons entry rest ih =>
    obtain ⟨k, v⟩ := entry
    rw [sameEntries, Bool.and_eq_true, ih]
    constructor
    · rintro ⟨hhead, hrest⟩ key x hmem
      rcases List.mem_cons.mp hmem with heq | hmem
      · cases heq
        cases hlookup : ys.lookup k with
        | none => simp [hlookup] at hhead
        | some y => exact ⟨y, rfl, by simpa [hlookup] using hhead⟩
      · exact hrest key x hmem
    · intro h
      refine ⟨?_, fun key x hmem => h key x (List.mem_cons_of_mem _ hmem)⟩
      obtain ⟨y, hlookup, hsame⟩ := h k v List.mem_cons_self
      simpa [hlookup] using hsame

theorem wellFormedEntries_iff (xs : List (String × Json)) :
    WellFormedEntries xs ↔ ∀ key x, (key, x) ∈ xs → x.WellFormed := by
  induction xs with
  | nil => simp [WellFormedEntries]
  | cons entry rest ih =>
    obtain ⟨k, v⟩ := entry
    rw [WellFormedEntries, ih]
    constructor
    · rintro ⟨hhead, hrest⟩ key x hmem
      rcases List.mem_cons.mp hmem with heq | hmem
      · cases heq; exact hhead
      · exact hrest key x hmem
    · exact fun h => ⟨h k v List.mem_cons_self, fun key x hmem => h key x (List.mem_cons_of_mem _ hmem)⟩

mutual

theorem same_refl : ∀ {x : Json}, x.WellFormed → x.same x = true
  | .null, _ => rfl
  | .bool _, _ => by simp [same]
  | .int _, _ => by simp [same]
  | .float _, _ => by simp [same]
  | .str _, _ => by simp [same]
  | .arr items, h => by
    rw [same]
    exact sameItems_refl h
  | .obj entries, h => by
    rw [same, Bool.and_eq_true]
    exact ⟨by simp, (sameEntries_iff _ _).mpr fun key x hmem =>
      ⟨x, lookup_eq_some_of_mem h.1 hmem, same_refl_of_mem h.2 hmem⟩⟩

theorem sameItems_refl : ∀ {xs : List Json}, WellFormedItems xs → sameItems xs xs = true
  | [], _ => rfl
  | x :: xs, h => by
    rw [sameItems, Bool.and_eq_true]
    exact ⟨same_refl h.1, sameItems_refl h.2⟩

theorem same_refl_of_mem : ∀ {xs : List (String × Json)} {key : String} {x : Json},
    WellFormedEntries xs → (key, x) ∈ xs → x.same x = true
  | (k, y) :: rest, key, x, h, hmem => by
    rcases List.mem_cons.mp hmem with heq | hmem
    · cases heq
      exact same_refl h.1
    · exact same_refl_of_mem h.2 hmem

end

/-- A number equals exactly the values that compare as the same number. -/
theorem same_of_number {x : Json} {q : Rat} (hx : x.number = some q) (y : Json) :
    x.same y = (y.number == some q) ∧ y.same x = (y.number == some q) := by
  have hleft : x.same y = (x.number == y.number) := by cases x <;> first | rfl | cases hx
  have hright : y.same x = (y.number == x.number) := by cases x <;> cases y <;> first | rfl | cases hx
  rw [hleft, hright, hx]
  exact ⟨BEq.comm, rfl⟩

theorem number_trans {x y z : Json} {q : Rat} (hx : x.number = some q) (h : x.same y = true)
    (k : y.same z = true) : x.same z = true := by
  rw [(same_of_number hx y).1, beq_iff_eq] at h
  rw [(same_of_number h z).1] at k
  rw [(same_of_number hx z).1]
  exact k

theorem mem_of_lookup {entries : List (String × Json)} {key : String} {x : Json}
    (h : entries.lookup key = some x) : (key, x) ∈ entries := by
  induction entries with
  | nil => cases h
  | cons entry rest ih =>
    obtain ⟨k, y⟩ := entry
    rw [List.lookup_cons] at h
    cases hkey : key == k with
    | true =>
      rw [hkey] at h
      cases h
      rw [beq_iff_eq] at hkey
      exact hkey ▸ List.mem_cons_self
    | false =>
      rw [hkey] at h
      exact List.mem_cons_of_mem _ (ih h)

/-- With as many keys on both sides, one side's keys are the other's. -/
theorem keys_subset {xs ys : List (String × Json)} (hnodup : (keys xs).Nodup)
    (hlength : xs.length = ys.length) (hsub : keys xs ⊆ keys ys) : keys ys ⊆ keys xs := by
  have hperm : (keys xs).Perm (keys ys) :=
    (List.subperm_of_subset hnodup hsub).perm_of_length_le (by simp [keys, hlength])
  exact hperm.symm.subset

mutual

theorem same_symm : ∀ {x y : Json}, x.WellFormed → y.WellFormed → x.same y = true → y.same x = true
  | .null, y, _, _, h => by cases y <;> first | rfl | cases h
  | .bool b, y, _, _, h => by rw [(same_of_number rfl y).1] at h; rw [(same_of_number rfl y).2]; exact h
  | .int n, y, _, _, h => by rw [(same_of_number rfl y).1] at h; rw [(same_of_number rfl y).2]; exact h
  | .float q, y, _, _, h => by rw [(same_of_number rfl y).1] at h; rw [(same_of_number rfl y).2]; exact h
  | .str s, y, _, _, h => by
    cases y <;> first | cases h | skip
    simp only [same, beq_iff_eq] at h ⊢
    exact h.symm
  | .arr xs, y, hx, hy, h => by
    cases y <;> first | cases h | skip
    exact sameItems_symm hx hy h
  | .obj xs, y, hx, hy, h => by
    cases y <;> first | cases h | skip
    next ys =>
    rw [same, Bool.and_eq_true, beq_iff_eq, sameEntries_iff] at h ⊢
    refine ⟨h.1.symm, fun key y hmem => ?_⟩
    have hsub : keys xs ⊆ keys ys := by
      intro key hkey
      obtain ⟨⟨_, x⟩, hmem, rfl⟩ := List.mem_map.mp hkey
      obtain ⟨y, hlookup, -⟩ := h.2 _ x hmem
      exact List.mem_map.mpr ⟨_, mem_of_lookup hlookup, rfl⟩
    have hkey : key ∈ keys xs := keys_subset hx.1 h.1 hsub (List.mem_map.mpr ⟨_, hmem, rfl⟩)
    obtain ⟨⟨_, x⟩, hmemx, rfl⟩ := List.mem_map.mp hkey
    obtain ⟨y', hlookup, hsame⟩ := h.2 _ x hmemx
    obtain rfl : y' = y := Option.some.inj (hlookup.symm.trans (lookup_eq_some_of_mem hy.1 hmem))
    exact ⟨x, lookup_eq_some_of_mem hx.1 hmemx,
      same_symm_of_mem hx.2 hmemx ((wellFormedEntries_iff ys).mp hy.2 _ _ hmem) hsame⟩

theorem sameItems_symm : ∀ {xs ys : List Json}, WellFormedItems xs → WellFormedItems ys →
    sameItems xs ys = true → sameItems ys xs = true
  | [], [], _, _, _ => rfl
  | x :: xs, y :: ys, hx, hy, h => by
    rw [sameItems, Bool.and_eq_true] at h ⊢
    exact ⟨same_symm hx.1 hy.1 h.1, sameItems_symm hx.2 hy.2 h.2⟩

theorem same_symm_of_mem : ∀ {xs : List (String × Json)} {key : String} {x y : Json},
    WellFormedEntries xs → (key, x) ∈ xs → y.WellFormed → x.same y = true → y.same x = true
  | (k, v) :: rest, key, x, y, h, hmem, hy, hsame => by
    rcases List.mem_cons.mp hmem with heq | hmem
    · cases heq
      exact same_symm h.1 hy hsame
    · exact same_symm_of_mem h.2 hmem hy hsame

end

mutual

theorem same_trans : ∀ {x y z : Json}, x.same y = true → y.same z = true → x.same z = true
  | .null, y, z, h, k => by cases y <;> first | exact k | cases h
  | .bool b, y, z, h, k => number_trans rfl h k
  | .int n, y, z, h, k => number_trans rfl h k
  | .float q, y, z, h, k => number_trans rfl h k
  | .str s, y, z, h, k => by
    cases y <;> first | cases h | skip
    simp only [same, beq_iff_eq] at h
    exact h ▸ k
  | .arr xs, y, z, h, k => by
    cases y <;> first | cases h | skip
    cases z <;> first | cases k | skip
    exact sameItems_trans h k
  | .obj xs, y, z, h, k => by
    cases y <;> first | cases h | skip
    cases z <;> first | cases k | skip
    rw [same, Bool.and_eq_true, beq_iff_eq, sameEntries_iff] at h k ⊢
    refine ⟨h.1.trans k.1, fun key x hmem => ?_⟩
    obtain ⟨y, hlookup, hxy⟩ := h.2 key x hmem
    obtain ⟨z, hlookup', hyz⟩ := k.2 key y (mem_of_lookup hlookup)
    exact ⟨z, hlookup', same_trans_of_mem hmem hxy hyz⟩

theorem sameItems_trans : ∀ {xs ys zs : List Json}, sameItems xs ys = true → sameItems ys zs = true →
    sameItems xs zs = true
  | [], [], zs, _, k => k
  | x :: xs, y :: ys, z :: zs, h, k => by
    rw [sameItems, Bool.and_eq_true] at h k ⊢
    exact ⟨same_trans h.1 k.1, sameItems_trans h.2 k.2⟩

theorem same_trans_of_mem : ∀ {xs : List (String × Json)} {key : String} {x y z : Json},
    (key, x) ∈ xs → x.same y = true → y.same z = true → x.same z = true
  | (k, v) :: rest, key, x, y, z, hmem, h, h' => by
    rcases List.mem_cons.mp hmem with heq | hmem
    · cases heq
      exact same_trans h h'
    · exact same_trans_of_mem hmem h h'

end

end Json

/-- The values that variables hold: JSON whose objects are dicts. -/
structure Value where
  json : Json
  wellFormed : json.WellFormed

instance : BEq Value := ⟨fun x y => x.json.same y.json⟩

instance : EquivBEq Value where
  rfl {x} := Json.same_refl x.wellFormed
  symm {x y} h := Json.same_symm x.wellFormed y.wellFormed h
  trans h k := Json.same_trans h k

/-! ### Typed envelopes -/

/-- `VALUE_TYPES`. -/
inductive ValueType
  | int | float | string | bool | agent | file | user | document | dataset | array | object
  deriving DecidableEq, Repr

def ValueType.all : List ValueType :=
  [.int, .float, .string, .bool, .agent, .file, .user, .document, .dataset, .array, .object]

def ValueType.name : ValueType → String
  | .int => "int"
  | .float => "float"
  | .string => "string"
  | .bool => "bool"
  | .agent => "Agent"
  | .file => "File"
  | .user => "User"
  | .document => "Document"
  | .dataset => "Dataset"
  | .array => "array"
  | .object => "object"

def ValueType.ofName (name : String) : Option ValueType := ValueType.all.find? fun kind => kind.name == name

def maxInteger : Nat := 2 ^ 53 - 1
def maxValueBytes : Nat := 2000000
def maxDepth : Nat := 32
def maxNodes : Nat := 20000

/-- A parsed resource URI, with the identity of a `file://` one. -/
structure ResourceUri where
  text : String
  scheme : String := ""
  segments : Nat := 1
  isCollection : Bool := false
  fileId : Option String := none
  deriving DecidableEq

/-- What the data contract calls: `parse_resource_uri`, and the size in bytes of what
`json.dumps` writes. -/
structure Boundary where
  parseResourceUri : String → Except String ResourceUri
  jsonSize : Json → Nat

/-- `_error`: the text of a `ValueContractError`. -/
def valueError (path message : String) : String := (path.take 500).toString ++ ": " ++ message

section Contract
variable (B : Boundary)

def checkInteger (kind : ValueType) (raw : Json) : Option String :=
  match raw with
  | .int n =>
    if n.natAbs > maxInteger then some (kind.name ++ " requires an exact safe integer")
    else if kind != .int && n ≤ 0 then some (kind.name ++ " requires a positive identifier")
    else none
  | _ => some (kind.name ++ " requires an exact safe integer")

def checkFloat : Json → Option String
  | .int n =>
    if n.natAbs > maxInteger then some "integer representation exceeds the exact transport range" else none
  | .float _ => none
  | _ => some "float requires a finite number"

def checkResource (kind : ValueType) : Json → Option String
  | .str raw =>
    match B.parseResourceUri raw with
    | .error _ => some "invalid resource URI"
    | .ok uri =>
      if uri.text != raw || uri.isCollection then
        some "a resource reference requires an exact canonical resource URI"
      else if kind == .document && (uri.scheme != "document" || uri.segments != 1) then
        some "Document requires document://<uuid>"
      else if kind == .dataset && (uri.scheme != "data" || uri.segments != 1) then
        some "Dataset requires data://<uuid>"
      else none
  | _ => some "a resource reference requires a canonical URI"

/-- The check of a value that is not null and holds no envelopes. -/
def checkScalar (kind : ValueType) (raw : Json) : Option String :=
  match kind with
  | .int | .agent | .user => checkInteger kind raw
  | .float => checkFloat raw
  | .bool =>
    match raw with
    | .bool _ => none
    | _ => some "bool requires a JSON boolean"
  | .string =>
    match raw with
    | .str _ => none
    | _ => some "string requires text"
  | .file | .document | .dataset => checkResource B kind raw
  | .array | .object => none

/-- The two entries of an envelope, in either order. -/
def envelope : Json → Option (Json × Json)
  | .obj [("type", kind), ("value", raw)] => some (kind, raw)
  | .obj [("value", raw), ("type", kind)] => some (kind, raw)
  | _ => none

/-- `_validate`, at depth `maxDepth + 1 - fuel`: the items that remain, or the error. -/
def validate : Nat → Json → String → Nat → Except String Nat
  | 0, _, path, _ => .error (valueError path "typed values exceed the depth or item limit")
  | _ + 1, _, path, 0 => .error (valueError path "typed values exceed the depth or item limit")
  | fuel + 1, value, path, remaining + 1 =>
    match value with
    | .obj _ =>
      match envelope value with
      | none => .error (valueError path "an envelope requires exactly type and value")
      | some (kind, raw) =>
        match (match kind with | .str name => ValueType.ofName name | _ => none) with
        | none => .error (valueError path "unknown value type")
        | some kind =>
          match kind, raw with
          | _, .null => .ok remaining
          | .array, .arr items =>
            items.zipIdx.foldlM
              (fun rest (child, index) => validate fuel child (path ++ "[" ++ toString index ++ "]") rest) remaining
          | .array, _ => .error (valueError path "array requires a JSON array")
          | .object, .obj entries =>
            entries.foldlM (fun rest (key, child) => validate fuel child (path ++ "." ++ key) rest) remaining
          | .object, _ => .error (valueError path "object requires a JSON object")
          | kind, raw =>
            match checkScalar B kind raw with
            | some message => .error (valueError path message)
            | none => .ok remaining
    | _ => .error (valueError path "expected a typed {type, value} envelope")

/-- Some envelope below names the type `Dataset`. -/
def mentionsDataset : Nat → Json → Bool
  | 0, _ => false
  | fuel + 1, value =>
    match envelope value with
    | some (.str kind, raw) =>
      kind == "Dataset" ||
        match kind, raw with
        | "array", .arr items => items.any (mentionsDataset fuel)
        | "object", .obj entries => entries.any fun entry => mentionsDataset fuel entry.2
        | _, _ => false
    | _ => false

/-- `codec.validate_value`. -/
def codecValidateValue (path : String) (value : Json) : Except String Unit := do
  let _ ← validate B (maxDepth + 1) value path maxNodes
  if B.jsonSize value > maxValueBytes then throw (valueError path "value exceeds the JSON size limit")

/-- `validate_value` of the Process profile. -/
def validateValue (path : String) (value : Json) : Except String Unit := do
  codecValidateValue B path value
  if mentionsDataset (maxDepth + 1) value then
    throw (path ++ ": Dataset references require an explicit newer Process profile")

/-- `validate_values` of the Process profile. -/
def validateValues (path : String) (values : List (String × Json)) : Except String Unit := do
  let _ ← values.foldlM (fun rest (key, value) => validate B (maxDepth + 1) value (path ++ "." ++ key) rest) maxNodes
  if B.jsonSize (.obj values) > maxValueBytes then throw (valueError path "values exceed the JSON size limit")
  values.forM fun (key, value) => validateValue B (path ++ "." ++ key) value

end Contract

/-! ### Declarations -/

/-- `not s.strip()`. -/
def isBlank (s : String) : Bool := s.toList.all Texts.isSpace

/-- `s == s.strip()`. -/
def isTrimmed (s : String) : Bool := s.toList.head?.all (!Texts.isSpace ·) && s.toList.getLast?.all (!Texts.isSpace ·)

def Json.isNull : Json → Bool
  | .null => true
  | _ => false

structure TypedValue where
  type : ValueType
  value : Json

def TypedValue.dump (v : TypedValue) : Json := .obj [("type", .str v.type.name), ("value", v.value)]

structure Variable where
  name : String
  type : ValueType
  nullable : Bool
  default : Option TypedValue := none

/-- `model_dump(mode="json")`: a default that is not set is left out. -/
def Variable.dump (v : Variable) : Json :=
  .obj ([("name", .str v.name), ("type", .str v.type.name), ("nullable", .bool v.nullable)] ++
    v.default.toList.map fun d => ("default", d.dump))

section Declarations
variable (B : Boundary)

/-- `TypedValue.model_validate`. -/
def TypedValue.load (json : Json) : Option TypedValue :=
  match codecValidateValue B "value" json, envelope json with
  | .ok (), some (.str kind, raw) => (ValueType.ofName kind).map fun type => ⟨type, raw⟩
  | _, _ => none

/-- The constraints on the fields of a declaration, `check_default` among them. -/
def Variable.valid (v : Variable) : Bool :=
  decide (1 ≤ v.name.length) && decide (v.name.length ≤ 200) && isTrimmed v.name &&
    v.default.all fun d => d.type == v.type && (v.nullable || !d.value.isNull)

/-- A default that is given must be an envelope, even for null. -/
def loadDefault : Option Json → Option (Option TypedValue)
  | none => some none
  | some json => (TypedValue.load B json).map some

/-- `Variable.model_validate`, `none` where it raises. -/
def Variable.load (json : Json) : Option Variable :=
  match json with
  | .obj entries =>
    if (Json.keys entries).all fun key => ["name", "type", "nullable", "default"].contains key then
      match entries.lookup "name", entries.lookup "type", entries.lookup "nullable",
          loadDefault B (entries.lookup "default") with
      | some (.str name), some (.str kind), some (.bool nullable), some default =>
        ((ValueType.ofName kind).map fun type => ⟨name, type, nullable, default⟩).filter Variable.valid
      | _, _, _, _ => none
    else none
  | _ => none

/-- `validate_declarations` of the Process profile. -/
def validateDeclarations (path : String) (declared : List Variable) : Except String Unit := do
  if declared.length > 500 then throw (valueError path "too many declared variables")
  let _ ← declared.foldlM (fun names v => do
    if (Variable.load B v.dump).isNone then throw (valueError v.name "invalid declaration")
    if names.contains v.name then throw (valueError path ("duplicate variable " ++ v.name))
    return v.name :: names) ([] : List String)
  declared.forM fun v => do
    if v.type == .dataset then throw (path ++ "." ++ v.name ++ ": unsupported type in Process v2")
    match v.default with
    | some d => validateValue B (path ++ "." ++ v.name ++ ".default") d.dump
    | none => return ()

/-! ### A declaration is read back as it was written -/

theorem ValueType.ofName_name (kind : ValueType) : ValueType.ofName kind.name = some kind := by
  cases kind <;> rfl

variable {B}

theorem TypedValue.load_dump {d d' : TypedValue} (h : TypedValue.load B d.dump = some d') : d' = d := by
  unfold load at h
  split at h
  · next kind raw _ henvelope =>
    cases henvelope
    rw [ValueType.ofName_name] at h
    cases h
    rfl
  · cases h

theorem Variable.load_dump {v v' : Variable} (h : Variable.load B v.dump = some v') : v' = v := by
  obtain ⟨name, type, nullable, default⟩ := v
  cases default with
  | none =>
    change ((ValueType.ofName type.name).map fun type => Variable.mk name type nullable none).filter
      valid = some v' at h
    rw [ValueType.ofName_name] at h
    exact (Option.some.inj (Option.filter_eq_some_iff.mp h).1).symm
  | some d =>
    have hlookup : loadDefault B (some d.dump) = (TypedValue.load B d.dump).map some := rfl
    unfold load dump at h
    change (if true = true then (match some (Json.str name), some (Json.str type.name), some (Json.bool nullable),
      loadDefault B (some d.dump) with
      | some (.str name), some (.str kind), some (.bool nullable), some default =>
        ((ValueType.ofName kind).map fun type => ⟨name, type, nullable, default⟩).filter Variable.valid
      | _, _, _, _ => none) else none) = some v' at h
    rw [hlookup] at h
    cases hd : TypedValue.load B d.dump with
    | none => rw [hd] at h; cases h
    | some d' =>
      obtain rfl := TypedValue.load_dump hd
      rw [hd] at h
      simp only [if_true, Option.map_some, ValueType.ofName_name] at h
      exact (Option.some.inj (Option.filter_eq_some_iff.mp h).1).symm

end Declarations

end Galaris.Process
