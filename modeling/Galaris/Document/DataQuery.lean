import Galaris.Document.DataAggregates
import Galaris.Document.DataValues
import Mathlib.Data.List.Sort
import Mathlib.Algebra.Order.Ring.Unbundled.Rat
import Mathlib.Data.String.Basic
import Mathlib.Order.Std
import Mathlib.Data.List.Infix

/-! Queries over a Dataset (`document/data/query.py`).

A query selects rows, filters and sorts them, and returns a page of them, which ends at the row limit or where the
size budget, shared with the aggregates, is spent. Asking again from the offset that a page names reads every row
once, as long as every row fits beside the aggregates. -/
namespace Galaris.Document.DataQuery

open Process Results

/-! ### Pointers -/

/-- A pointer's part without its escapes; every `~` is followed by `0` or `1`. -/
def unescape : List Char → List Char
  | '~' :: '1' :: rest => '/' :: unescape rest
  | '~' :: '0' :: rest => '~' :: unescape rest
  | c :: rest => c :: unescape rest
  | [] => []

/-- `re.search(r"~(?![01])", pointer)`. -/
def strayTilde : List Char → Bool
  | [] => false
  | '~' :: rest => !(rest.head? == some '0' || rest.head? == some '1') || strayTilde rest
  | _ :: rest => strayTilde rest

/-- `pointer_parts`. -/
def pointerParts (pointer : String) : Except String (List String) :=
  if pointer = "" then .ok []
  else if pointer.toList.head? ≠ some '/' ∨
    strayTilde pointer.toList then .error "Use an RFC 6901 JSON pointer, empty for the root"
  else .ok (((pointer.toList.drop 1).splitOn '/').map fun part => String.ofList (unescape part))

def isDigit (c : Char) : Bool := decide ('0' ≤ c) && decide (c ≤ '9')

/-- `re.fullmatch(r"0|[1-9][0-9]*", part)`. -/
def isIndex (part : List Char) : Bool :=
    part == ['0'] || (part.head?.any (fun c => isDigit c && c != '0') && part.all isDigit)

def decimal (part : List Char) : Nat := part.foldl (fun n c => 10 * n + (c.toNat - 48)) 0

/-- One part of a pointer; `none` is what is missing. -/
def child (part : String) : Json → Option Json
  | .obj entries => entries.lookup part
  | .arr items =>
    if isIndex part.toList
      then items[if part.length < 8 then decimal part.toList else items.length]? else none
  | _ => none

/-- `at_pointer`, of the parts of a pointer. -/
def follow : List String → Json → Option Json
  | [], value => some value
  | part :: rest, value => (child part value).bind (follow rest)

def atPointer (value : Json) (pointer : String) : Except String (Option Json) :=
    pointerParts pointer >>= fun parts => .ok (follow parts value)

/-! ### Queries -/

inductive FilterOp
  | eq | ne | lt | lte | gt | gte | contains | isIn | «exists»
  deriving DecidableEq

structure QueryFilter where
  path : String
  op : FilterOp
  value : Json

structure QuerySort where
  path : String
  descending : Bool

inductive AggregateOp
  | count | sum | min | max | avg
  deriving DecidableEq

structure QueryAggregate where
  name : String
  op : AggregateOp
  path : Option String
  deriving DecidableEq

structure DatasetQuery where
  path : String := ""
  filters : List QueryFilter := []
  fields : List String := []
  sort : List QuerySort := []
  aggregates : List QueryAggregate := []
  offset : Nat := 0
  limit : Nat := 50
  includeRows : Bool := true

/-- Every pointer of a query. -/
def DatasetQuery.pointers (q : DatasetQuery) : List String :=
  q.path :: q.fields ++ q.filters.map (·.path) ++ q.sort.map (·.path) ++ q.aggregates.filterMap (·.path)

def QueryFilter.accepted (f : QueryFilter) : Bool :=
  match f.op, f.value with
  | .exists, .bool _ => true
  | .exists, _ => false
  | .isIn, .arr _ => true
  | .isIn, _ => false
  | _, _ => true

/-- What `DatasetQuery` accepts: the bounds of its fields and `validate_contract`. -/
def DatasetQuery.accepted (q : DatasetQuery) : Bool :=
  decide (q.offset ≤ 20000) && decide (1 ≤ q.limit ∧ q.limit ≤ 500) &&
    decide (q.filters.length ≤ 20 ∧ q.fields.length ≤ 30 ∧ q.sort.length ≤ 4 ∧ q.aggregates.length ≤ 20) &&
    q.pointers.all (fun p => (pointerParts p).isOk && decide (p.length ≤ 1000)) &&
      decide (q.aggregates.map (·.name)).Nodup &&
    q.aggregates.all (fun a => (a.op == .count || a.path.isSome) && decide (1 ≤ a.name.length ∧ a.name.length ≤ 100)) &&
    q.filters.all QueryFilter.accepted

/-! ### Values -/

/-- What the evaluation calls besides: the texts of floats and their values as decimals, and `str.casefold`. -/
structure Outside where
  repr : Rat → String
  decimalOf : Rat → Rat
  casefold : String → String

/-- A row, with its pointer. -/
structure Row where
  pointer : String
  value : Json

section Evaluation
variable (O : Outside)

/-- `_number`, of what is a number. -/
def numberOf : Json → Option Rat
  | .int n => some n
  | .float x => some (O.decimalOf x)
  | _ => none

/-- `type(left) is type(right)`. -/
def sameType : Json → Json → Bool
  | .null, .null | .bool _, .bool _ | .int _, .int _ | .float _, .float _ | .str _, .str _ | .arr _,
    .arr _ | .obj _, .obj _ => true
  | _, _ => false

/-- `_equal`. -/
def equal (left right : Json) : Bool :=
  match numberOf O left, numberOf O right with
  | some x, some y => x == y
  | _, _ => sameType left right && left.same right

/-- What two values are ordered by. -/
inductive Key
  | number (x : Rat)
  | text (s : String)
  | other

def keyOf (value : Json) : Key :=
  match numberOf O value, value with
  | some x, _ => .number x
  | none, .str s => .text s
  | none, _ => .other

/-- `_compare`, `none` where it raises. -/
def Key.compare : Key → Key → Option Ordering
  | .number x, .number y => some (Ord.compare x y)
  | .text s, .text t => some (Ord.compare s t)
  | _, _ => none

def orderingError : String := "Ordering requires two numbers or two strings of the same kind"

def holds (op : FilterOp) (o : Ordering) : Bool :=
  match op with
  | .lt => o == .lt
  | .lte => o != .gt
  | .gt => o == .gt
  | .gte => o != .lt
  | _ => false

/-- `_matches`, of a value that is there or `none`. -/
def matchesValue (condition : QueryFilter) (value : Option Json) : Except String Bool :=
  match condition.op, value with
  | .exists, value => .ok (match condition.value with
    | .bool expected => value.isSome == expected
    | _ => false)
  | _, none => .ok false
  | .eq, some value => .ok (equal O value condition.value)
  | .ne, some value => .ok !(equal O value condition.value)
  | .isIn, some value => .ok (match condition.value with
    | .arr candidates => candidates.any (equal O value)
    | _ => false)
  | .contains, some value => .ok (match value, condition.value with
    | .str s, .str t => decide ((O.casefold t).toList <:+: (O.casefold s).toList)
    | _, _ => false)
  | _, some .null => .ok false
  | op, some value =>
    match (keyOf O value).compare (keyOf O condition.value) with
    | some o => .ok (holds op o)
    | none => .error orderingError

/-- `all(_matches(row, f) for f in query.filters)`. -/
def matchesAll (value : Json) : List QueryFilter → Except String Bool
  | [] => .ok true
  | f :: rest =>
    atPointer value f.path >>= fun found => matchesValue O f found >>= fun ok =>
      if ok then matchesAll value rest else .ok false

def filterRows (filters : List QueryFilter) : List Row → Except String (List Row)
  | [] => .ok []
  | row :: rest =>
    matchesAll O row.value filters >>= fun ok => filterRows filters rest >>= fun others =>
      .ok (if ok then row :: others else others)

/-! ### Sorting -/

/-- What a row is sorted by; what is missing or null is absent. -/
def sortKey (row : Row) (order : QuerySort) : Option Key :=
  match atPointer row.value order.path with
  | .ok (some .null) => none
  | .ok (some value) => some (keyOf O value)
  | _ => none

/-- One comparison of `compare_rows`. -/
def compareKeys (descending : Bool) : Option Key → Option Key → Option Ordering
  | none, none => some .eq
  | none, some _ => some .gt
  | some _, none => some .lt
  | some a, some b => (a.compare b).map fun o => if descending then o.swap else o

/-- `compare_rows`, `none` where it raises. -/
def compareRows (a b : Row) : List QuerySort → Option Ordering
  | [] => some .eq
  | order :: rest =>
    match compareKeys order.descending (sortKey O a order) (sortKey O b order) with
    | none => none
    | some .eq => compareRows a b rest
    | some o => some o

/-- A row comes before another, or may. -/
def Before (sorts : List QuerySort) (a b : Row) : Prop :=
    compareRows O a b sorts = some .lt ∨ compareRows O a b sorts = some .eq

instance (sorts : List QuerySort) : DecidableRel (Before O sorts) := fun _ _ => inferInstanceAs (Decidable (_ ∨ _))

/-- `matched.sort`, a stable sort; a sort that meets two rows without an order raises, and some adjacent
pair of them it has to meet. -/
def sortRows (sorts : List QuerySort) (matched : List Row) : Except String (List Row) :=
  if sorts = [] then .ok matched
  else if matched.Pairwise fun a b => (compareRows O a b sorts).isSome then .ok (matched.insertionSort (Before O sorts))
  else .error orderingError

/-! ### Pages -/

/-- `MAX_RESULT_BYTES`. -/
def maxResultBytes : Nat := 64000

/-- The rows of what a query selects. -/
def rowsOf (path : String) : Json → List Row
  | .arr items => items.zipIdx.map fun (value, index) => ⟨path ++ "/" ++ toString index, value⟩
  | value => [⟨path, value⟩]

/-- The fields of a row that a query asks for. -/
def projected (fields : List String) (row : Row) : Json :=
  if fields = [] then row.value
  else .obj (fields.eraseDups.filterMap fun path =>
    match atPointer row.value path with
    | .ok (some value) => some (path, value)
    | _ => none)

def item (fields : List String) (row : Row) : Json :=
    .obj [("json_pointer", .str row.pointer), ("value", projected fields row)]

def size (value : Json) : Nat := DataValues.dumpsSize O.repr value

/-- The rows of a page that fit, and whether one did not. -/
def fill (fields : List String) (used : Nat) (items : List Json) : List Row → Except String (List Json × Bool)
  | [] => .ok (items, false)
  | row :: rest =>
    if used + size O (item fields row) > maxResultBytes then
      if items = [] then .error "A result row exceeds the query budget; select fewer fields" else .ok (items, true)
    else fill fields (used + size O (item fields row)) (items ++ [item fields row]) rest

structure Page where
  items : List Json
  matchedRows : Nat
  scannedRows : Nat
  aggregates : Json
  hasMore : Bool
  nextOffset : Option Nat
  byteLimited : Bool

/-- What `_aggregate` calls besides: what a second reading of the content, with decimals, has below a row; `str` of
a decimal, and the division of a context. -/
structure Arithmetic where
  cell : String → String → Except String DataAggregates.Cell
  str : Decimals.Decimal → String
  divide : Decimals.Context → Decimals.Decimal → Nat → Except String Decimals.Decimal

def AggregateOp.operation : AggregateOp → DataAggregates.Operation
  | .count => .count
  | .sum => .sum
  | .min => .min
  | .max => .max
  | .avg => .avg

/-- What `_aggregate` returns, as JSON; without a path the rows are counted. -/
def Arithmetic.result (A : Arithmetic) (path : Bool) (a : DataAggregates.Aggregate) : Json :=
  let counts := [("present", .int a.present), ("missing", .int a.missing), ("null", .int a.null)]
  let precision := a.precision.toList.map fun p => ("precision", .int p)
  .obj <| match a.value with
    | some (.count n) => if path then counts ++ [("value", .int n)] else ("value", .int n) :: counts
    | some (.decimal d) => counts ++ precision ++ [("value", .str (A.str d)), ("encoding", .str "decimal")]
    | none => counts ++ [("value", .null), ("encoding", .str "decimal")]

/-- The aggregates of the rows at the pointers, by name; the names of an accepted query differ. -/
def Arithmetic.summarize (A : Arithmetic) (pointers : List String) (aggregates : List QueryAggregate) :
    Except String Json :=
  aggregates.mapM (fun a =>
    pointers.mapM (fun pointer => a.path.elim (.ok .missing) (A.cell pointer)) >>= fun cells =>
      DataAggregates.aggregate A.divide cells a.op.operation a.path.isSome >>= fun result =>
        .ok (a.name, A.result a.path.isSome result)) >>= fun entries => .ok (.obj entries)

/-- The rows that match, in order, with the number of rows that were scanned. -/
def evaluate (root : Json) (q : DatasetQuery) : Except String (List Row × Nat) :=
  atPointer root q.path >>= fun selected =>
    match selected with
    | none => .error "Query path does not exist in this Dataset revision"
    | some selected =>
      filterRows O q.filters (rowsOf q.path selected) >>= fun matched =>
        sortRows O q.sort matched >>= fun sorted => .ok (sorted, (rowsOf q.path selected).length)

/-- `execute_query`. `summarize` is what the aggregates are of the matching rows (`Arithmetic.summarize`); a page
depends on it only by its refusal and its size. -/
def executeQuery (summarize : List String → List QueryAggregate → Except String Json) (root : Json)
    (q : DatasetQuery) : Except String Page :=
  evaluate O root q >>= fun (matched, scanned) =>
    summarize (matched.map (·.pointer)) q.aggregates >>= fun aggregates =>
      if size O aggregates > maxResultBytes then .error "Aggregates exceed the query budget; request fewer aggregates"
      else (if q.includeRows then fill O q.fields
          (size O aggregates) [] ((matched.drop q.offset).take q.limit) else .ok ([], false)) >>=
          fun (items, byteLimited) =>
        let hasMore := q.includeRows && decide (q.offset + items.length < matched.length)
        .ok { items, matchedRows := matched.length, scannedRows := scanned, aggregates, hasMore,
              nextOffset := if hasMore then some (q.offset + items.length) else none, byteLimited }

end Evaluation

/-! ### Contents -/

mutual

/-- How many values `parse_json` counts. -/
def nodes : Json → Nat
  | .arr items => nodesOfItems items + 1
  | .obj entries => nodesOfEntries entries + 1
  | _ => 1

def nodesOfItems : List Json → Nat
  | [] => 0
  | value :: rest => nodes value + nodesOfItems rest

def nodesOfEntries : List (String × Json) → Nat
  | [] => 0
  | (_, value) :: rest => nodes value + nodesOfEntries rest

end

mutual

/-- How deep the values are nested. -/
def depth : Json → Nat
  | .arr items => depthOfItems items
  | .obj entries => depthOfEntries entries
  | _ => 0

def depthOfItems : List Json → Nat
  | [] => 0
  | value :: rest => max (depth value + 1) (depthOfItems rest)

def depthOfEntries : List (String × Json) → Nat
  | [] => 0
  | (_, value) :: rest => max (depth value + 1) (depthOfEntries rest)

end

/-- The value of a content that `parse_json` accepts. -/
structure Content where
  root : Json
  shallow : depth root ≤ 32
  small : nodes root ≤ 20000

/-! ### The sizes of contents -/

theorem nodes_pos (value : Json) : 1 ≤ nodes value := by
  cases value with
  | arr | obj => exact Nat.le_add_left _ _
  | null | bool | int | float | str => exact le_refl 1

theorem nodes_item {items : List Json} {value : Json} (h : value ∈ items) : nodes value ≤ nodesOfItems items := by
  induction items with
  | nil => exact absurd h List.not_mem_nil
  | cons first rest ih =>
    rw [nodesOfItems]
    obtain rfl | hrest := List.mem_cons.mp h
    · exact Nat.le_add_right _ _
    · exact (ih hrest).trans (Nat.le_add_left _ _)

theorem nodes_entry {entries : List (String × Json)} {key : String} {value : Json}
    (h : (key, value) ∈ entries) : nodes value ≤ nodesOfEntries entries := by
  induction entries with
  | nil => exact absurd h List.not_mem_nil
  | cons first rest ih =>
    rw [nodesOfEntries]
    obtain rfl | hrest := List.mem_cons.mp h
    · exact Nat.le_add_right _ _
    · exact (ih hrest).trans (Nat.le_add_left _ _)

theorem length_le_nodes (items : List Json) : items.length ≤ nodesOfItems items := by
  induction items with
  | nil => exact le_refl _
  | cons first rest ih =>
    have := nodes_pos first
    rw [nodesOfItems, List.length_cons]
    omega

theorem nodes_child {part : String} {value found : Json} (h : child part value = some found) :
    nodes found ≤ nodes value := by
  unfold child at h
  split at h
  case h_1 entries =>
    rw [nodes]
    exact (nodes_entry (Json.mem_of_lookup h)).trans (Nat.le_succ _)
  case h_2 items =>
    split at h
    case isTrue =>
      rw [nodes]
      exact (nodes_item (List.mem_of_getElem? h)).trans (Nat.le_succ _)
    case isFalse => cases h
  case h_3 => cases h

theorem nodes_follow {parts : List String} {value found : Json}
    (h : follow parts value = some found) : nodes found ≤ nodes value := by
  induction parts generalizing value with
  | nil =>
    cases h
    exact le_refl _
  | cons part rest ih =>
    obtain ⟨next, hnext, hfound⟩ := Option.bind_eq_some_iff.mp h
    exact (ih hfound).trans (nodes_child hnext)

theorem length_rowsOf_le (path : String) (value : Json) : (rowsOf path value).length ≤ nodes value := by
  cases value with
  | arr items =>
    rw [rowsOf, List.length_map, List.length_zipIdx, nodes]
    exact (length_le_nodes items).trans (Nat.le_succ _)
  | null | bool | int | float | str | obj => exact nodes_pos _

/-! ### The order of the rows -/

section Order
variable {O : Outside}

/-- A total comparison of keys: first by their kind, what is absent last, then by their values. -/
def rank : Option Key → Nat
  | some (.number _) => 0
  | some (.text _) => 1
  | some .other => 2
  | none => 3

def numberPart : Option Key → Rat
  | some (.number x) => x
  | _ => 0

def textPart : Option Key → String
  | some (.text s) => s
  | _ => ""

def compareValues : Option Key → Option Key → Ordering := compareLex (compareOn numberPart) (compareOn textPart)

def compareTotal (descending : Bool) : Option Key → Option Key → Ordering :=
  compareLex (compareOn rank) (if descending then fun a b => compareValues b a else compareValues)

instance : Std.TransCmp compareValues := inferInstanceAs (Std.TransCmp (compareLex _ _))

instance (descending : Bool) : Std.TransCmp (compareTotal descending) := by
  cases descending with
  | true => exact inferInstanceAs (Std.TransCmp (compareLex _ fun a b => compareValues b a))
  | false => exact inferInstanceAs (Std.TransCmp (compareLex _ compareValues))

/-- Where the comparison of the source does not raise, the total one agrees with it. -/
theorem compareTotal_eq {descending : Bool} {a b : Option Key} {o : Ordering}
    (h : compareKeys descending a b = some o) : compareTotal descending a b = o := by
  have hvalues {x y : Key} {o : Ordering} (h : x.compare y = some o) :
      compareOn rank (some x) (some y) = .eq ∧ compareValues (some x) (some y) = o := by
    cases x <;> cases y <;> cases h
    · exact ⟨rfl, Ordering.then_eq⟩
    · refine ⟨rfl, ?_⟩
      show (compare (0 : Rat) 0).then _ = _
      rw [Std.ReflOrd.compare_self]
      rfl
  cases a with
  | none =>
    cases b with
    | none =>
      cases h
      exact Std.ReflCmp.compare_self
    | some y =>
      cases h
      cases y <;> rfl
  | some x =>
    cases b with
    | none =>
      cases h
      cases x <;> rfl
    | some y =>
      obtain ⟨o, ho, rfl⟩ := Option.map_eq_some_iff.mp h
      obtain ⟨hrank, hvalue⟩ := hvalues ho
      rw [compareTotal, compareLex, hrank, Ordering.then]
      cases descending with
      | false => exact hvalue
      | true => exact (Std.OrientedCmp.eq_swap (a := some y) (b := some x)).trans (congrArg Ordering.swap hvalue)

/-- The rows by their keys. -/
def compareRowsTotal (O : Outside) : List QuerySort → Row → Row → Ordering
  | [], _, _ => .eq
  | order :: rest, a, b =>
    (compareTotal order.descending (sortKey O a order) (sortKey O b order)).then
      (compareRowsTotal O rest a b)

instance transCmp_rows (sorts : List QuerySort) : Std.TransCmp (compareRowsTotal O sorts) := by
  induction sorts with
  | nil => exact { eq_swap := rfl, isLE_trans := fun _ _ => rfl }
  | cons order rest ih =>
    have hkeys : Std.TransCmp fun a b => compareTotal order.descending (sortKey O a order) (sortKey O b order) :=
      { eq_swap := Std.OrientedCmp.eq_swap, isLE_trans := Std.TransCmp.isLE_trans }
    exact inferInstanceAs (Std.TransCmp (compareLex (fun a b => compareTotal order.descending
      (sortKey O a order) (sortKey O b order)) (compareRowsTotal O rest)))

theorem compareRowsTotal_eq {sorts : List QuerySort} {a b : Row} {o : Ordering}
    (h : compareRows O a b sorts = some o) : compareRowsTotal O sorts a b = o := by
  induction sorts with
  | nil => exact Option.some.inj h
  | cons order rest ih =>
    rw [compareRows] at h
    split at h
    case h_1 => cases h
    case h_2 heq => rw [compareRowsTotal, compareTotal_eq heq, ih h]; rfl
    case h_3 o' hne heq =>
      cases h
      rw [compareRowsTotal, compareTotal_eq heq]
      cases o with
      | eq => exact absurd rfl hne
      | lt | gt => rfl

theorem orderedInsert_congr {r r' : Row → Row → Prop} [DecidableRel r] [DecidableRel r'] {a : Row}
    {rows : List Row} (h : ∀ b ∈ rows, r a b ↔ r' a b) :
    rows.orderedInsert r a = rows.orderedInsert r' a := by
  induction rows with
  | nil => rfl
  | cons b rest ih =>
    rw [List.forall_mem_cons] at h
    rw [List.orderedInsert_cons, List.orderedInsert_cons, ih h.2]
    by_cases hab : r a b
    · rw [if_pos hab, if_pos (h.1.mp hab)]
    · rw [if_neg hab, if_neg (mt h.1.mpr hab)]

/-- A sort that does not raise sorts by the total comparison. -/
theorem insertionSort_eq {sorts : List QuerySort} {rows : List Row}
    (h : rows.Pairwise fun a b => (compareRows O a b sorts).isSome) :
    rows.insertionSort (Before O sorts) = rows.insertionSort fun a b => (compareRowsTotal O sorts a b).isLE := by
  induction h with
  | nil => rfl
  | cons hfirst _ ih =>
    rw [List.insertionSort_cons, List.insertionSort_cons, ih]
    refine orderedInsert_congr fun b hb => ?_
    rw [List.mem_insertionSort] at hb
    obtain ⟨o, ho⟩ := Option.isSome_iff_exists.mp (hfirst b hb)
    rw [Before, ho, compareRowsTotal_eq ho]
    cases o <;> decide

/-- What a sort returns are the rows, in order. -/
theorem sortRows_eq_ok {sorts : List QuerySort} {rows sorted : List Row} (h : sortRows O sorts rows = .ok sorted) :
    sorted.Perm rows ∧ sorted.Pairwise fun a b => compareRows O a b sorts ≠ some .gt := by
  unfold sortRows at h
  split_ifs at h with hempty hcomparable
  · cases h
    subst hempty
    exact ⟨List.Perm.refl _, List.pairwise_of_forall fun _ _ => nofun⟩
  · cases h
    refine ⟨List.perm_insertionSort _ _, ?_⟩
    rw [insertionSort_eq hcomparable]
    have : Std.Total fun a b => (compareRowsTotal O sorts a b).isLE = true := ⟨fun a b => by
      have hswap : compareRowsTotal O sorts b a = (compareRowsTotal O sorts a b).swap := Std.OrientedCmp.eq_swap
      rw [hswap]
      cases compareRowsTotal O sorts a b <;> decide⟩
    have : IsTrans Row fun a b => (compareRowsTotal O sorts a b).isLE = true := ⟨fun a b c => Std.TransCmp.isLE_trans⟩
    refine (List.pairwise_insertionSort _ rows).imp fun {a b} hle heq => ?_
    rw [compareRowsTotal_eq heq] at hle
    cases hle

end Order

/-! ### Reading all pages -/

section Pages
variable {O : Outside} {summarize : List String → List QueryAggregate → Except String Json}

/-- The rows of a query: those selected rows that match, in order. -/
def Matching (O : Outside) (root : Json) (q : DatasetQuery) (rows : List Row) : Prop :=
  ∃ selected, atPointer root q.path = .ok (some selected) ∧
    rows.Perm ((rowsOf q.path selected).filter fun row => (matchesAll O row.value q.filters).toOption == some true) ∧
      rows.Pairwise fun a b => compareRows O a b q.sort ≠ some .gt

/-- Every page of a query, from an offset on: each is asked for by an accepted query with the offset that
the page before names. -/
inductive Paginates (O : Outside) (summarize : List String → List QueryAggregate →
    Except String Json) (root : Json) (q : DatasetQuery) : Nat → List Page → Prop
  | last {offset : Nat} {page : Page} (haccepted : { q with offset }.accepted = true)
    (hpage : executeQuery O summarize root { q with offset } = .ok page)
      (hlast : page.hasMore = false) : Paginates O summarize root q offset [page]
  | more {offset next : Nat} {page : Page} {rest : List Page} (haccepted : { q with offset }.accepted = true)
      (hpage : executeQuery O summarize root { q with offset } = .ok page)
      (hmore : page.hasMore = true) (hnext : page.nextOffset = some next)
      (hrest : Paginates O summarize root q next rest) : Paginates O summarize root q offset (page :: rest)

/-- Every row fits a page beside the aggregates. -/
def Fits (O : Outside) (summarize : List String → List QueryAggregate → Except String Json)
    (root : Json) (q : DatasetQuery) : Prop :=
  ∀ matched scanned aggregates, evaluate O root q = .ok (matched, scanned) →
    summarize (matched.map (·.pointer)) q.aggregates = .ok aggregates →
    ∀ row ∈ matched, size O aggregates + size O (item q.fields row) ≤ maxResultBytes

theorem filterRows_eq_ok {filters : List QueryFilter} {rows matched : List Row}
    (h : filterRows O filters rows = .ok matched) :
    matched = rows.filter fun row => (matchesAll O row.value filters).toOption == some true := by
  induction rows generalizing matched with
  | nil =>
    cases h
    rfl
  | cons row rest ih =>
    simp only [filterRows, bind_eq_ok] at h
    obtain ⟨ok, hok, others, hothers, hmatched⟩ := h
    cases hmatched
    rw [List.filter_cons, hok, ih hothers]
    cases ok <;> rfl

theorem evaluate_eq_ok {root : Json} {q : DatasetQuery} {matched : List Row} {scanned : Nat}
    (h : evaluate O root q = .ok (matched, scanned)) :
    Matching O root q matched ∧ matched.length ≤ nodes root := by
  rw [evaluate, bind_eq_ok] at h
  obtain ⟨found, hfound, h⟩ := h
  split at h
  case h_1 => cases h
  case h_2 selected =>
    simp only [bind_eq_ok] at h
    obtain ⟨kept, hkept, sorted, hsorted, h⟩ := h
    cases h
    obtain ⟨hperm, horder⟩ := sortRows_eq_ok hsorted
    have hkept := filterRows_eq_ok hkept
    refine ⟨⟨selected, hfound, hkept ▸ hperm, horder⟩, ?_⟩
    rw [atPointer, bind_eq_ok] at hfound
    obtain ⟨parts, -, hfollow⟩ := hfound
    calc matched.length = kept.length := hperm.length_eq
      _ ≤ (rowsOf q.path selected).length := hkept ▸ List.length_filter_le _ _
      _ ≤ nodes selected := length_rowsOf_le _ _
      _ ≤ nodes root := nodes_follow (Except.ok.inj hfollow)

/-- A page that has an item takes more of the rows, and does not fail. -/
theorem fill_of_items (fields : List String) (rows : List Row) (used : Nat) (items : List Json) (h : items ≠ []) :
    ∃ k limited, k ≤ rows.length ∧
    fill O fields used items rows = .ok (items ++ (rows.take k).map (item fields), limited) := by
  induction rows generalizing used items with
  | nil => exact ⟨0, false, le_refl _, by rw [fill, List.take_nil, List.map_nil, List.append_nil]⟩
  | cons row rest ih =>
    rw [fill]
    split
    · exact ⟨0, true, Nat.zero_le _, by rw [List.take_zero, List.map_nil, List.append_nil]⟩
    · obtain ⟨k, limited, hk, hfill⟩ := ih (used + size O (item fields row))
        (items ++ [item fields row]) (List.append_ne_nil_of_right_ne_nil _ (List.cons_ne_nil _ _))
      refine ⟨k + 1, limited, Nat.succ_le_succ hk, ?_⟩
      rw [hfill, List.take_succ_cons, List.map_cons, List.append_assoc, List.singleton_append]

/-- A page of rows that fit takes at least one of them. -/
theorem fill_of_fits {fields : List String} {rows : List Row} {used : Nat}
    (h : ∀ row ∈ rows, used + size O (item fields row) ≤ maxResultBytes) :
    ∃ k limited, k ≤ rows.length ∧ (rows ≠ [] → 0 < k) ∧
    fill O fields used [] rows = .ok ((rows.take k).map (item fields), limited) := by
  cases rows with
  | nil => exact ⟨0, false, le_refl _, fun h => absurd rfl h, rfl⟩
  | cons row rest =>
    obtain ⟨k, limited, hk, hfill⟩ := fill_of_items fields rest (used + size O (item fields row))
      [item fields row] (List.cons_ne_nil _ _)
    refine ⟨k + 1, limited, Nat.succ_le_succ hk, fun _ => Nat.succ_pos k, ?_⟩
    rw [fill, if_neg (Nat.not_lt.mpr (h row List.mem_cons_self))]
    exact hfill

/-- The page at an offset: some of the rows there, at least one where there is one. -/
theorem executeQuery_page {root : Json} {q : DatasetQuery} {matched : List Row} {scanned : Nat}
    {aggregates : Json} (hrows : q.includeRows = true)
    (hlimit : 1 ≤ q.limit) (hevaluate : evaluate O root q = .ok (matched, scanned))
    (hsummary : summarize (matched.map (·.pointer)) q.aggregates = .ok aggregates)
    (hsize : size O aggregates ≤ maxResultBytes) (hfits : ∀ row ∈ matched,
      size O aggregates + size O (item q.fields row) ≤ maxResultBytes) (offset : Nat) :
    ∃ k page, executeQuery O summarize root { q with offset } = .ok page ∧
      page.items = ((matched.drop offset).take k).map (item q.fields) ∧
      (offset < matched.length → 0 < k) ∧ offset + k ≤ max offset matched.length ∧
      page.hasMore = decide (offset + k < matched.length) ∧
      page.nextOffset = if offset + k < matched.length then some (offset + k) else none := by
  have hpage : ∀ row ∈ (matched.drop offset).take q.limit,
      size O aggregates + size O (item q.fields row) ≤ maxResultBytes :=
    fun row hrow => hfits row (List.mem_of_mem_drop (List.mem_of_mem_take hrow))
  obtain ⟨k, limited, hk, hpositive, hfill⟩ := fill_of_fits hpage
  rw [List.length_take, List.length_drop] at hk
  have hitems : (((matched.drop offset).take q.limit).take k).map (item q.fields) =
      ((matched.drop offset).take k).map (item q.fields) := by
    rw [List.take_take, Nat.min_eq_left (by omega)]
  have hlength : (((matched.drop offset).take k).map (item q.fields)).length = k := by
    rw [List.length_map, List.length_take, List.length_drop]
    omega
  rw [hitems] at hfill
  refine ⟨k, ⟨((matched.drop offset).take k).map (item q.fields), matched.length, scanned,
    aggregates, decide (offset + k < matched.length),
    if offset + k < matched.length then some (offset + k) else none, limited⟩, ?_, rfl, fun hlt =>
      hpositive ?_, by omega, rfl, rfl⟩
  · have hevaluate' : evaluate O root { q with offset } = .ok (matched, scanned) := hevaluate
    rw [executeQuery, hevaluate']
    show (summarize (matched.map (·.pointer)) q.aggregates >>= _) = _
    rw [hsummary]
    show (if size O aggregates > maxResultBytes then _ else _) = _
    rw [if_neg (Nat.not_lt.mpr hsize)]
    show ((if q.includeRows = true then fill O q.fields (size O aggregates) []
        ((matched.drop offset).take q.limit) else _) >>= _) = _
    rw [if_pos hrows, hfill]
    show Except.ok _ = _
    simp only [hrows, Bool.true_and, hlength, decide_eq_true_eq]
  · intro hempty
    have := congrArg List.length hempty
    rw [List.length_take, List.length_drop, List.length_nil] at this
    omega

theorem accepted_offset {q : DatasetQuery} (h : q.accepted = true) {offset : Nat}
    (hoffset : offset ≤ 20000) : { q with offset }.accepted = true := by
  simp only [DatasetQuery.accepted, Bool.and_eq_true, decide_eq_true_eq] at h ⊢
  obtain ⟨⟨⟨⟨⟨⟨-, hlimit⟩, hlengths⟩, hpointers⟩, hnames⟩, haggregates⟩, hfilters⟩ := h
  exact ⟨⟨⟨⟨⟨⟨hoffset, hlimit⟩, hlengths⟩, hpointers⟩, hnames⟩, haggregates⟩, hfilters⟩

theorem limit_pos {q : DatasetQuery} (h : q.accepted = true) : 1 ≤ q.limit := by
  simp only [DatasetQuery.accepted, Bool.and_eq_true, decide_eq_true_eq] at h
  exact h.1.1.1.1.1.2.1

/-- Reading on from an offset ends, and reads the rows from there. -/
theorem paginates_from {root : Json} {q : DatasetQuery} {matched : List Row} {scanned : Nat}
    {aggregates : Json} (haccepted : q.accepted = true)
    (hrows : q.includeRows = true) (hsmall : matched.length ≤ 20000)
    (hevaluate : evaluate O root q = .ok (matched, scanned))
    (hsummary : summarize (matched.map (·.pointer)) q.aggregates = .ok aggregates)
    (hsize : size O aggregates ≤ maxResultBytes)
    (hfits : ∀ row ∈ matched, size O aggregates + size O (item q.fields row) ≤ maxResultBytes)
    (offset : Nat) (hoffset : offset ≤ matched.length) :
    ∃ pages, Paginates O summarize root q offset pages ∧
    pages.flatMap (·.items) = (matched.drop offset).map (item q.fields) := by
  obtain ⟨k, page, hpage, hitems, hpositive, hbound, hmore, hnext⟩ :=
    executeQuery_page hrows (limit_pos haccepted) hevaluate hsummary hsize hfits offset
  have hnow : { q with offset }.accepted = true := accepted_offset haccepted (by omega)
  by_cases hlast : offset + k < matched.length
  · have hprogress : 0 < k := hpositive (by omega)
    obtain ⟨rest, hrest, hcovered⟩ :=
      paginates_from haccepted hrows hsmall hevaluate hsummary hsize hfits (offset + k) (by omega)
    refine ⟨page :: rest, .more hnow hpage (hmore.trans (decide_eq_true hlast)) (hnext.trans (if_pos hlast)) hrest, ?_⟩
    rw [List.flatMap_cons, hitems, hcovered, ← List.map_append, ← List.drop_drop, List.take_append_drop]
  · refine ⟨[page], .last hnow hpage (hmore.trans (decide_eq_false hlast)), ?_⟩
    rw [List.flatMap_singleton, hitems, List.take_of_length_le]
    rw [List.length_drop]
    omega
termination_by matched.length - offset

private def outside : Outside := ⟨fun _ => "", id, id⟩

private def noAggregates : List String → List QueryAggregate → Except String Json := fun _ _ => .ok (.obj [])

private def pair : Content := ⟨.arr [.int 2, .int 1], by decide, by decide⟩

private def wholes : Arithmetic where
  cell pointer path := atPointer pair.root (pointer ++ path) >>= fun found => .ok <| match found with
    | some (.int n) => .number ⟨decide (n < 0), n.natAbs, 0⟩
    | some .null => .null
    | some _ => .other
    | none => .missing
  str d := toString d.signed
  divide _ d _ := .ok d

private def single : DatasetQuery := { limit := 1, aggregates := [⟨"total", .sum, some ""⟩] }

private def summed : Json := .obj [("total", .obj [("present", .int 2), ("missing", .int 0), ("null", .int 0),
  ("value", .str "3"), ("encoding", .str "decimal")])]

theorem quotedSize_replicate (n : Nat) : DataValues.quotedSize (String.ofList (List.replicate n 'a')) = 2 + n := by
  have hone : DataValues.escapedSize 'a' = 1 := by decide
  rw [DataValues.quotedSize, String.toList_ofList, List.map_replicate, List.sum_replicate_nat, hone, Nat.mul_one]

private def textContent (s : String) : Content :=
    ⟨.arr [.str s], by simp [depth, depthOfItems], by simp [nodes, nodesOfItems]⟩

theorem evaluate_text (s : String) : evaluate outside (textContent s).root {} = .ok ([⟨"/0", .str s⟩], 1) := rfl

theorem long_text_refused {s : String} (hs : DataValues.quotedSize s = 63992) :
    executeQuery outside noAggregates (textContent s).root {} =
        .error "A result row exceeds the query budget; select fewer fields" := by
  have hsize : size outside (.obj []) + size outside (item [] ⟨"/0", .str s⟩) = 64027 := by
    simp only [size, item, projected, if_true, DataValues.dumpsSize, DataValues.entriesSize,
      DataValues.separators, hs, List.length_cons, List.length_nil]
    decide
  have hfill : fill outside [] (size outside (.obj [])) [] [⟨"/0", .str s⟩] =
      .error "A result row exceeds the query budget; select fewer fields" := by
    rw [fill, hsize]
    rfl
  have hempty : ¬maxResultBytes < size outside (.obj []) := by decide
  simp only [executeQuery, evaluate_text, noAggregates, bind, Except.bind, if_neg hempty, if_true,
    List.drop_zero, List.take_succ_cons, List.take_nil, hfill]

end Pages

end Galaris.Document.DataQuery
