import Galaris.Base.Results
import Mathlib.Data.String.Basic
import Mathlib.Algebra.Order.Ring.Int
import Mathlib.Algebra.Order.Ring.Rat
import Mathlib.Data.List.Infix

/-! The expressions of flow conditions and loops (`process/expressions.py`).

`parseExpression` refuses a tree that holds a construct outside of the profile, in any branch; `evaluate` interprets
the tree on a context. The constants that the validation lets through are more than the interpreter knows: a bytes,
complex or `...` literal is refused where it is evaluated (`evaluate_complete_iff`). -/
namespace Galaris.Process.Expressions

open Results

/-! ### Syntax trees -/

/-- `ast.Constant`. -/
inductive Literal (F : Type)
  | none | bool (b : Bool) | int (n : Int) | float (x : F) | str (s : String) | bytes
    (data : List Nat) | complex (imaginary : F) | ellipsis

inductive BoolOp
  | and | or
  deriving DecidableEq

inductive UnaryOp
  | not | usub | uadd | invert
  deriving DecidableEq

inductive BinaryOp
  | add | sub | mult | div | mod | floorDiv | pow | matMult | lShift | rShift | bitOr | bitXor | bitAnd
  deriving DecidableEq

inductive CompareOp
  | eq | notEq | lt | ltE | gt | gtE | is | isNot | isIn | notIn
  deriving DecidableEq

/-- What `ast.parse` yields of an expression. `other` is any node of another class, with how many nodes it
counts besides its children. -/
inductive Expr (F : Type)
  | constant (literal : Literal F)
  | name (id : String)
  | attribute (value : Expr F) (attr : String)
  | subscript (value slice : Expr F)
  | list (elts : List (Expr F))
  | tuple (elts : List (Expr F))
  | dict (entries : List (Option (Expr F) × Expr F))
  | boolOp (op : BoolOp) (values : List (Expr F))
  | unaryOp (op : UnaryOp) (operand : Expr F)
  | binOp (left : Expr F) (op : BinaryOp) (right : Expr F)
  | compare (left : Expr F) (rest : List (CompareOp × Expr F))
  | other (own : Nat) (children : List (Expr F))

section Validation
variable {F : Type}

mutual

/-- The expressions of `ast.walk`, of a node and everything below it. -/
def walk : Expr F → List (Expr F)
  | .constant l => [.constant l]
  | .name id => [.name id]
  | .attribute value attr => .attribute value attr :: walk value
  | .subscript value slice => .subscript value slice :: (walk value ++ walk slice)
  | .list elts => .list elts :: walkAll elts
  | .tuple elts => .tuple elts :: walkAll elts
  | .dict entries => .dict entries :: walkEntries entries
  | .boolOp op values => .boolOp op values :: walkAll values
  | .unaryOp op operand => .unaryOp op operand :: walk operand
  | .binOp left op right => .binOp left op right :: (walk left ++ walk right)
  | .compare left rest => .compare left rest :: (walk left ++ walkRest rest)
  | .other own children => .other own children :: walkAll children

def walkAll : List (Expr F) → List (Expr F)
  | [] => []
  | e :: rest => walk e ++ walkAll rest

def walkEntries : List (Option (Expr F) × Expr F) → List (Expr F)
  | [] => []
  | (some key, value) :: rest => walk key ++ walk value ++ walkEntries rest
  | (none, value) :: rest => walk value ++ walkEntries rest

def walkRest : List (CompareOp × Expr F) → List (Expr F)
  | [] => []
  | (_, e) :: rest => walk e ++ walkRest rest

end

/-- How many nodes an expression counts, those of its operators and of `Load` among them. -/
def weight : Expr F → Nat
  | .constant _ | .dict _ => 1
  | .name _ | .attribute .. | .subscript .. | .list _ | .tuple _ | .boolOp .. | .unaryOp .. | .binOp .. => 2
  | .compare _ rest => 1 + rest.length
  | .other own _ => own

/-- The operators of `_BINARY`, of `_COMPARE` and of `allowed`. -/
def BinaryOp.allowed (op : BinaryOp) : Bool := [.add, .sub, .mult, .div, .mod].contains op

def CompareOp.allowed (op : CompareOp) : Bool := [.eq, .notEq, .lt, .ltE, .gt, .gtE, .isIn, .notIn].contains op

def UnaryOp.allowed (op : UnaryOp) : Bool := [.not, .usub].contains op

def privateName (id : String) : Bool := id.toList.head? == some '_'

/-- What the validation says against a node. -/
def refusal : Expr F → Option String
  | .name id => if privateName id then some "Unsupported expression syntax" else none
  | .attribute _ attr => if privateName attr then some "Unsupported expression syntax" else none
  | .dict entries =>
    if entries.any fun entry =>
      entry.1.isNone then some "Dictionary expansion is not supported" else none
  | .unaryOp op _ => if op.allowed then none else some "Unsupported expression syntax"
  | .binOp _ op _ => if op.allowed then none else some "Unsupported expression syntax"
  | .compare _ rest => if rest.all fun entry => entry.1.allowed then none else some "Unsupported expression syntax"
  | .other .. => some "Unsupported expression syntax"
  | _ => none

/-- `parse_expression`; `parse` is `ast.parse`, and `none` where that raises. Of several refusals the source
reports that of the node which `ast.walk` meets first. -/
def parseExpression (parse : String → Option (Expr F)) (expression : String) : Except String (Expr F) :=
  if 10000 < expression.length then .error "Expression exceeds the parser size limit"
  else match parse expression with
    | none => .error "Invalid expression"
    | some tree =>
      if 512 < ((walk tree).map weight).sum + 1 then .error "Expression exceeds the parser complexity limit"
      else match (walk tree).filterMap refusal with
        | message :: _ => .error message
        | [] => .ok tree

end Validation

/-! ### Values -/

/-- The values of an expression. -/
inductive Value (F : Type)
  | none | bool (b : Bool) | int (n : Int) | float (x : F) | str (s : String) | list
    (items : List (Value F)) | dict (entries : List (Value F × Value F))

/-- The exceptions of Python's operators. -/
inductive PyError
  | typeError | zeroDivision | overflow
  deriving DecidableEq

/-- The arithmetic of floats, and that between integers and floats; `none` overflows, and nothing is ordered
to a NaN. -/
structure Floats (F : Type) where
  ofInt : Int → Option F
  quotient : Int → Int → Option F
  operate : BinaryOp → F → F → F
  neg : F → F
  isZero : F → Bool
  order : Int ⊕ F → Int ⊕ F → Option Ordering

section Values
variable {F : Type} (P : Floats F)

/-- Booleans are integers. -/
def numberOf : Value F → Option (Int ⊕ F)
  | .bool b => some (.inl (if b then 1 else 0))
  | .int n => some (.inl n)
  | .float x => some (.inr x)
  | _ => none

def toFloat : Int ⊕ F → Except PyError F
  | .inl n => (P.ofInt n).elim (.error .overflow) .ok
  | .inr x => .ok x

/-- `_BINARY[type(node.op)]`, of two numbers. -/
def arithmetic (op : BinaryOp) : Int ⊕ F → Int ⊕ F → Except PyError (Value F)
  | .inl m, .inl n =>
    match op with
    | .add => .ok (.int (m + n))
    | .sub => .ok (.int (m - n))
    | .mult => .ok (.int (m * n))
    | .div => if n = 0 then .error .zeroDivision else (P.quotient m n).elim (.error .overflow) fun x => .ok (.float x)
    | .mod => if n = 0 then .error .zeroDivision else .ok (.int (m.fmod n))
    | _ => .error .typeError
  | x, y => toFloat P x >>= fun x => toFloat P y >>= fun y =>
    if (op = .div ∨ op = .mod) ∧ P.isZero y then .error .zeroDivision else .ok (.float (P.operate op x y))

def truthy : Value F → Bool
  | .none => false
  | .bool b => b
  | .int n => n != 0
  | .float x => !P.isZero x
  | .str s => s != ""
  | .list items => !items.isEmpty
  | .dict entries => !entries.isEmpty

def hashable : Value F → Bool
  | .list _ | .dict _ => false
  | _ => true

/-- `==` of hashable values. -/
def sameKey : Value F → Value F → Bool
  | .none, .none => true
  | .str s, .str t => s == t
  | x, y =>
    match numberOf x, numberOf y with
    | some m, some n => P.order m n == some .eq
    | _, _ => false

mutual

/-- `==`. A NaN is never the same, also inside of a list, where Python asks first whether it is that very object. -/
def same : Value F → Value F → Bool
  | .list xs, .list ys => sameItems xs ys
  | .dict xs, .dict ys => xs.length == ys.length && sameEntries xs ys
  | x, y => sameKey P x y

def sameItems : List (Value F) → List (Value F) → Bool
  | [], [] => true
  | x :: xs, y :: ys => same x y && sameItems xs ys
  | _, _ => false

def sameEntries : List (Value F × Value F) → List (Value F × Value F) → Bool
  | [], _ => true
  | (key, x) :: xs, ys =>
    (match ys.find? fun entry => sameKey P entry.1 key with
      | some (_, y) => same x y
      | none => false) && sameEntries xs ys

end

/-- What an ordering says under a comparison. -/
def holds : CompareOp → Ordering → Bool
  | .lt, o => o == .lt
  | .ltE, o => o != .gt
  | .gt, o => o == .gt
  | .gtE, o => o != .lt
  | _, _ => false

mutual

/-- `<`, `<=`, `>` and `>=`; lists are ordered by their first items that differ. -/
def ordered (op : CompareOp) : Value F → Value F → Except PyError Bool
  | .str s, .str t => .ok (holds op (Ord.compare s t))
  | .list xs, .list ys => orderedItems op xs ys
  | x, y =>
    match numberOf x, numberOf y with
    | some m, some n => .ok ((P.order m n).any (holds op))
    | _, _ => .error .typeError

def orderedItems (op : CompareOp) : List (Value F) → List (Value F) → Except PyError Bool
  | [], [] => .ok (holds op .eq)
  | [], _ :: _ => .ok (holds op .lt)
  | _ :: _, [] => .ok (holds op .gt)
  | x :: xs, y :: ys => if same P x y then orderedItems op xs ys else ordered op x y

end

/-- `a in b`. -/
def member (a : Value F) : Value F → Except PyError Bool
  | .str t =>
    match a with
    | .str s => .ok (decide (s.toList <:+: t.toList))
    | _ => .error .typeError
  | .list items => .ok (items.any fun item => same P item a)
  | .dict entries => if hashable a then .ok (entries.any fun entry => sameKey P entry.1 a) else .error .typeError
  | _ => .error .typeError

/-- `_COMPARE`. -/
def compareValues (op : CompareOp) (a b : Value F) : Except PyError Bool :=
  match op with
  | .eq => .ok (same P a b)
  | .notEq => .ok !(same P a b)
  | .isIn => member P a b
  | .notIn => (member P a b).map (!·)
  | op => ordered P op a b

/-- `dict.get`. -/
def get (entries : List (Value F × Value F)) (key : Value F) : Value F :=
    ((entries.find? fun entry => sameKey P entry.1 key).map (·.2)).getD .none

/-- A key of a dict display, which may have been there. -/
def put (entries : List (Value F × Value F)) (key value : Value F) : List (Value F × Value F) :=
  if entries.any fun entry => sameKey P entry.1 key then entries.map fun entry =>
    if sameKey P entry.1 key then (entry.1, value) else entry
  else entries ++ [(key, value)]

/-- `value[key] if -len(value) <= key < len(value) else None`. -/
def itemAt {α : Type} (items : List α) (key : Int) : Option α :=
  if 0 ≤ key then items[key.toNat]? else if -items.length ≤ key then items[(key + items.length).toNat]? else none

/-- A subscript. -/
def subscript (value key : Value F) : Except PyError (Value F) :=
  match value with
  | .dict entries => if hashable key then .ok (get P entries key) else .error .typeError
  | .list items =>
    match numberOf key with
    | some (.inl n) => .ok ((itemAt items n).getD .none)
    | _ => .ok .none
  | .str s =>
    match numberOf key with
    | some (.inl n) => .ok (((itemAt s.toList n).map fun c => .str (String.singleton c)).getD .none)
    | _ => .ok .none
  | _ => .ok .none

end Values

/-! ### Evaluation -/

/-- Why an evaluation fails. -/
inductive Failure (F : Type)
  /-- `visit` has come to its end with this node. -/
  | unsupportedSyntax (node : Expr F)
  | unsupportedComparison
  | arithmetic
  | python (e : PyError)

def Failure.message {F : Type} : Failure F → String
  | .unsupportedSyntax _ => "Unsupported expression syntax"
  | .unsupportedComparison => "Unsupported comparison"
  | .arithmetic => "Arithmetic requires numbers"
  | .python _ => "Expression cannot be evaluated for these inputs"

section Evaluation
variable {F : Type} (P : Floats F) (context : List (String × Value F))

def orPython {α : Type} (result : Except PyError α) : Except (Failure F) α := result.mapError .python

/-- The value of a constant that `visit` knows. -/
def valueOf : Literal F → Option (Value F)
  | .none => some .none
  | .bool b => some (.bool b)
  | .int n => some (.int n)
  | .float x => some (.float x)
  | .str s => some (.str s)
  | .bytes _ | .complex _ | .ellipsis => none

def lookupName (id : String) : Value F :=
  if id = "null" then .none
  else if id = "true" then .bool true
  else if id = "false" then .bool false
  else (context.lookup id).getD .none

/-- The negation of a number that is no boolean. -/
def negate : Value F → Option (Value F)
  | .int n => some (.int (-n))
  | .float x => some (.float (P.neg x))
  | _ => none

/-- `and` and `or` go on after a value. -/
def goesOn (op : BoolOp) (value : Value F) : Bool :=
  match op with
  | .and => truthy P value
  | .or => !truthy P value

mutual

/-- `visit`. -/
def visit : Expr F → Except (Failure F) (Value F)
  | .constant l => (valueOf l).elim (.error (.unsupportedSyntax (.constant l))) .ok
  | .name id => if privateName id then .error (.unsupportedSyntax (.name id)) else .ok (lookupName context id)
  | .attribute value attr =>
    if privateName attr then .error (.unsupportedSyntax (.attribute value attr))
    else visit value >>= fun value =>
      match value with
      | .dict entries => .ok (get P entries (.str attr))
      | _ => .ok .none
  | .subscript value slice => visit value >>= fun value => visit slice >>= fun key => orPython (subscript P value key)
  | .list elts => visitAll elts >>= fun items => .ok (.list items)
  | .tuple elts => visitAll elts >>= fun items => .ok (.list items)
  | .dict entries => visitEntries [] entries >>= fun entries => .ok (.dict entries)
  | .boolOp op values => visitOperands op .none values
  | .unaryOp op operand => visit operand >>= fun value =>
    match op with
    | .not => .ok (.bool !(truthy P value))
    | .usub => (negate P value).elim (.error (.unsupportedSyntax (.unaryOp .usub operand))) .ok
    | op => .error (.unsupportedSyntax (.unaryOp op operand))
  | .binOp left op right =>
    if op.allowed then visit left >>= fun x => visit right >>= fun y =>
      match numberOf x, numberOf y with
      | some m, some n => orPython (arithmetic P op m n)
      | _, _ => .error .arithmetic
    else .error (.unsupportedSyntax (.binOp left op right))
  | .compare left rest => visit left >>= fun value => visitRest value rest
  | .other own children => .error (.unsupportedSyntax (.other own children))

def visitAll : List (Expr F) → Except (Failure F) (List (Value F))
  | [] => .ok []
  | e :: rest => visit e >>= fun value => visitAll rest >>= fun values => .ok (value :: values)

/-- The entries of a dict display, in order. -/
def visitEntries (entries : List (Value F × Value F)) :
    List (Option (Expr F) × Expr F) → Except (Failure F) (List (Value F × Value F))
  | [] => .ok entries
  | (none, _) :: rest => visitEntries entries rest
  | (some key, e) :: rest => visit key >>= fun key => visit e >>= fun value =>
    if hashable key then visitEntries (put P entries key value) rest else .error (.python .typeError)

/-- The operands of `and` and `or`, up to the one that decides. -/
def visitOperands (op : BoolOp) (result : Value F) : List (Expr F) → Except (Failure F) (Value F)
  | [] => .ok result
  | e :: rest => visit e >>= fun value => if goesOn P op value then visitOperands op value rest else .ok value

/-- The comparisons of a chain, up to one that does not hold. -/
def visitRest (left : Value F) : List (CompareOp × Expr F) → Except (Failure F) (Value F)
  | [] => .ok (.bool true)
  | (op, e) :: rest =>
    if op.allowed then visit e >>= fun right => orPython (compareValues P op left right) >>=
      fun ok => if ok then visitRest right rest else .ok (.bool false)
    else .error .unsupportedComparison

end

/-- `evaluate`, of an expression that is accepted; the error of another one is that of `parse_expression`. -/
def evaluate (parse : String → Option (Expr F)) (expression : String) : Except (String ⊕ Failure F) (Value F) :=
  (parseExpression parse expression).mapError .inl >>= fun tree => (visit P context tree).mapError .inr

end Evaluation

/-! ### What is evaluated -/

section Completeness
variable {F : Type} (P : Floats F) (context : List (String × Value F))

/-- An evaluation that comes to a value. -/
def Succeeds {α : Type} (result : Except (Failure F) α) : Prop := ∃ value, result = .ok value

mutual

/-- The literal is evaluated, where the expression is: what stands before it comes to values, and no operand
before it decides. -/
def Evaluates (l : Literal F) : Expr F → Prop
  | .constant l' => l' = l
  | .name _ => False
  | .attribute value _ => Evaluates l value
  | .subscript value slice => Evaluates l value ∨ (Succeeds (visit P context value) ∧ Evaluates l slice)
  | .list elts => EvaluatesAll l elts
  | .tuple elts => EvaluatesAll l elts
  | .dict entries => EvaluatesEntries l entries
  | .boolOp op values => EvaluatesOperands l op values
  | .unaryOp _ operand => Evaluates l operand
  | .binOp left _ right => Evaluates l left ∨ (Succeeds (visit P context left) ∧ Evaluates l right)
  | .compare left rest => Evaluates l left ∨ ∃ value, visit P context left = .ok value ∧ EvaluatesRest l value rest
  | .other .. => False

def EvaluatesAll (l : Literal F) : List (Expr F) → Prop
  | [] => False
  | e :: rest => Evaluates l e ∨ (Succeeds (visit P context e) ∧ EvaluatesAll l rest)

def EvaluatesEntries (l : Literal F) : List (Option (Expr F) × Expr F) → Prop
  | [] => False
  | (none, _) :: rest => EvaluatesEntries l rest
  | (some key, e) :: rest => Evaluates l key ∨ ∃ k, visit P context key = .ok k ∧
    (Evaluates l e ∨ (Succeeds (visit P context e) ∧ hashable k = true ∧ EvaluatesEntries l rest))

def EvaluatesOperands (l : Literal F) (op : BoolOp) : List (Expr F) → Prop
  | [] => False
  | e :: rest =>
    Evaluates l e ∨ ∃ value, visit P context e = .ok value ∧ goesOn P op value = true ∧
      EvaluatesOperands l op rest

def EvaluatesRest (l : Literal F) (left : Value F) : List (CompareOp × Expr F) → Prop
  | [] => False
  | (op, e) :: rest =>
    Evaluates l e ∨ ∃ right, visit P context e = .ok right ∧
      compareValues P op left right = .ok true ∧ EvaluatesRest l right rest

end

/-- A failure because of a construct: the interpreter does not know a node. A number is missing where a
unary minus fails, which is no such failure. -/
def Failure.ofConstruct : Failure F → Prop
  | .unsupportedSyntax (.unaryOp .usub _) => False
  | .unsupportedSyntax _ | .unsupportedComparison => True
  | .arithmetic | .python _ => False

variable {P context}

theorem bind_error {α β : Type} {x : Except (Failure F) α} {f : α → Except (Failure F) β} {failure : Failure F} :
    (x >>= f) = .error failure ↔ x = .error failure ∨ ∃ a, x = .ok a ∧ f a = .error failure := by
  cases x with
  | error e =>
    constructor
    · intro h
      cases h
      exact .inl rfl
    · rintro (h | ⟨_, h, _⟩) <;> cases h
      rfl
  | ok a =>
    exact ⟨fun h => .inr ⟨a, rfl, h⟩,
      fun h => h.elim (fun h => nomatch h) fun ⟨b, hb, h⟩ => by cases hb; exact h⟩

/-- Nothing is refused among the nodes. -/
def Accepted (nodes : List (Expr F)) : Prop := ∀ n ∈ nodes, refusal n = none

theorem accepted_cons {n : Expr F} {rest : List (Expr F)} :
    Accepted (n :: rest) ↔ refusal n = none ∧ Accepted rest := List.forall_mem_cons

theorem accepted_append {a b : List (Expr F)} : Accepted (a ++ b) ↔ Accepted a ∧ Accepted b := List.forall_mem_append

/-- The failure at a literal. -/
def failureAt (l : Literal F) : Failure F := .unsupportedSyntax (.constant l)

theorem allowed_of_refusal {left right : Expr F} {op : BinaryOp}
    (h : refusal (.binOp left op right) = none) : op.allowed = true := by
  by_contra hop
  rw [refusal, if_neg hop] at h
  cases h

theorem public_of_refusal {value : Expr F} {attr : String}
    (h : refusal (.attribute value attr) = none) : privateName attr = false := by
  by_contra hattr
  rw [refusal, if_pos (Bool.not_eq_false _ ▸ hattr)] at h
  cases h

theorem all_allowed_of_refusal {left : Expr F} {rest : List (CompareOp × Expr F)}
    (h : refusal (.compare left rest) = none) :
    ∀ entry ∈ rest, entry.1.allowed = true := by
  by_contra hrest
  rw [refusal, if_neg (mt List.all_eq_true.mp hrest)] at h
  cases h

mutual

/-- A literal without a value fails where it is evaluated. -/
theorem visit_of_evaluates {l : Literal F} (hl : valueOf l = none) :
    ∀ {e : Expr F}, Accepted (walk e) → Evaluates P context l e →
    visit P context e = .error (failureAt l)
  | .constant l', _, h => by
    cases h
    rw [visit, hl]
    rfl
  | .name _, _, h => h.elim
  | .attribute value attr, hvalid, h => by
    rw [walk, accepted_cons] at hvalid
    rw [visit, if_neg (Bool.eq_false_iff.mp (public_of_refusal hvalid.1)), visit_of_evaluates hl hvalid.2 h]
    rfl
  | .subscript value slice, hvalid, h => by
    rw [walk, accepted_cons, accepted_append] at hvalid
    rw [visit, bind_error]
    obtain h | ⟨⟨v, hv⟩, h⟩ := h
    · exact .inl (visit_of_evaluates hl hvalid.2.1 h)
    · exact .inr ⟨v, hv, bind_error.mpr (.inl (visit_of_evaluates hl hvalid.2.2 h))⟩
  | .list elts, hvalid, h => by
    rw [walk, accepted_cons] at hvalid
    rw [visit, visitAll_of_evaluates hl hvalid.2 h]
    rfl
  | .tuple elts, hvalid, h => by
    rw [walk, accepted_cons] at hvalid
    rw [visit, visitAll_of_evaluates hl hvalid.2 h]
    rfl
  | .dict entries, hvalid, h => by
    rw [walk, accepted_cons] at hvalid
    rw [visit, visitEntries_of_evaluates hl [] hvalid.2 h]
    rfl
  | .boolOp op values, hvalid, h => by
    rw [walk, accepted_cons] at hvalid
    rw [visit]
    exact visitOperands_of_evaluates hl op .none hvalid.2 h
  | .unaryOp op operand, hvalid, h => by
    rw [walk, accepted_cons] at hvalid
    rw [visit, visit_of_evaluates hl hvalid.2 h]
    rfl
  | .binOp left op right, hvalid, h => by
    rw [walk, accepted_cons, accepted_append] at hvalid
    rw [visit, if_pos (allowed_of_refusal hvalid.1), bind_error]
    obtain h | ⟨⟨v, hv⟩, h⟩ := h
    · exact .inl (visit_of_evaluates hl hvalid.2.1 h)
    · exact .inr ⟨v, hv, bind_error.mpr (.inl (visit_of_evaluates hl hvalid.2.2 h))⟩
  | .compare left rest, hvalid, h => by
    rw [walk, accepted_cons, accepted_append] at hvalid
    rw [visit, bind_error]
    obtain h | ⟨v, hv, h⟩ := h
    · exact .inl (visit_of_evaluates hl hvalid.2.1 h)
    · exact .inr ⟨v, hv, visitRest_of_evaluates hl v (all_allowed_of_refusal hvalid.1) hvalid.2.2 h⟩
  | .other _ _, _, h => h.elim

theorem visitAll_of_evaluates {l : Literal F} (hl : valueOf l = none) :
    ∀ {es : List (Expr F)}, Accepted (walkAll es) → EvaluatesAll P context l es →
    visitAll P context es = .error (failureAt l)
  | [], _, h => h.elim
  | e :: rest, hvalid, h => by
    rw [walkAll, accepted_append] at hvalid
    rw [visitAll, bind_error]
    obtain h | ⟨⟨v, hv⟩, h⟩ := h
    · exact .inl (visit_of_evaluates hl hvalid.1 h)
    · exact .inr ⟨v, hv, bind_error.mpr (.inl (visitAll_of_evaluates hl hvalid.2 h))⟩

theorem visitEntries_of_evaluates {l : Literal F} (hl : valueOf l = none) :
    ∀ (entries : List (Value F × Value F)) {es : List (Option (Expr F) × Expr F)},
    Accepted (walkEntries es) → EvaluatesEntries P context l es →
      visitEntries P context entries es = .error (failureAt l)
  | _, [], _, h => h.elim
  | entries, (none, e) :: rest, hvalid, h => by
    rw [walkEntries, accepted_append] at hvalid
    rw [visitEntries]
    exact visitEntries_of_evaluates hl entries hvalid.2 h
  | entries, (some key, e) :: rest, hvalid, h => by
    rw [walkEntries, accepted_append, accepted_append] at hvalid
    rw [visitEntries, bind_error]
    obtain h | ⟨k, hk, h⟩ := h
    · exact .inl (visit_of_evaluates hl hvalid.1.1 h)
    · refine .inr ⟨k, hk, bind_error.mpr ?_⟩
      obtain h | ⟨⟨v, hv⟩, hhashable, h⟩ := h
      · exact .inl (visit_of_evaluates hl hvalid.1.2 h)
      · refine .inr ⟨v, hv, ?_⟩
        rw [if_pos hhashable]
        exact visitEntries_of_evaluates hl _ hvalid.2 h

theorem visitOperands_of_evaluates {l : Literal F} (hl : valueOf l = none) (op : BoolOp) :
    ∀ (result : Value F) {es : List (Expr F)},
    Accepted (walkAll es) → EvaluatesOperands P context l op es →
      visitOperands P context op result es = .error (failureAt l)
  | _, [], _, h => h.elim
  | _, e :: rest, hvalid, h => by
    rw [walkAll, accepted_append] at hvalid
    rw [visitOperands, bind_error]
    obtain h | ⟨v, hv, hon, h⟩ := h
    · exact .inl (visit_of_evaluates hl hvalid.1 h)
    · refine .inr ⟨v, hv, ?_⟩
      rw [if_pos hon]
      exact visitOperands_of_evaluates hl op v hvalid.2 h

theorem visitRest_of_evaluates {l : Literal F} (hl : valueOf l = none) :
    ∀ (left : Value F) {es : List (CompareOp × Expr F)},
    (∀ entry ∈ es, entry.1.allowed = true) → Accepted (walkRest es) → EvaluatesRest P context l left es →
    visitRest P context left es = .error (failureAt l)
  | _, [], _, _, h => h.elim
  | left, (op, e) :: rest, hallowed, hvalid, h => by
    rw [List.forall_mem_cons] at hallowed
    rw [walkRest, accepted_append] at hvalid
    rw [visitRest, if_pos hallowed.1, bind_error]
    obtain h | ⟨right, hright, hholds, h⟩ := h
    · exact .inl (visit_of_evaluates hl hvalid.1 h)
    · refine .inr ⟨right, hright, ?_⟩
      rw [hholds]
      exact visitRest_of_evaluates hl right hallowed.2 hvalid.2 h

end

theorem not_ofConstruct_orPython {α : Type} {result : Except PyError α} {f : Failure F}
    (h : orPython result = .error f) : ¬f.ofConstruct := by
  cases result with
  | ok a => cases h
  | error e =>
    cases h
    exact id

mutual

/-- A failure because of a construct is at such a literal. -/
theorem lost_of_visit : ∀ {e : Expr F} {f : Failure F}, Accepted (walk e) →
    visit P context e = .error f → f.ofConstruct →
    ∃ l, valueOf l = none ∧ Evaluates P context l e
  | .constant l, f, _, h, _ => by
    cases hl : valueOf l with
    | none => exact ⟨l, hl, rfl⟩
    | some v =>
      rw [visit, hl] at h
      cases h
  | .name id, f, hvalid, h, _ => by
    rw [walk, accepted_cons] at hvalid
    have hpublic : privateName id = false := by
      by_contra hname
      rw [refusal, if_pos (Bool.not_eq_false _ ▸ hname)] at hvalid
      cases hvalid.1
    rw [visit, if_neg (Bool.eq_false_iff.mp hpublic)] at h
    cases h
  | .attribute value attr, f, hvalid, h, hf => by
    rw [walk, accepted_cons] at hvalid
    rw [visit, if_neg (Bool.eq_false_iff.mp (public_of_refusal hvalid.1)), bind_error] at h
    obtain h | ⟨v, -, h⟩ := h
    · obtain ⟨l, hl, hevaluates⟩ := lost_of_visit hvalid.2 h hf
      exact ⟨l, hl, hevaluates⟩
    · cases v <;> cases h
  | .subscript value slice, f, hvalid, h, hf => by
    rw [walk, accepted_cons, accepted_append] at hvalid
    rw [visit, bind_error] at h
    obtain h | ⟨v, hv, h⟩ := h
    · obtain ⟨l, hl, hevaluates⟩ := lost_of_visit hvalid.2.1 h hf
      exact ⟨l, hl, .inl hevaluates⟩
    · obtain h | ⟨k, -, h⟩ := bind_error.mp h
      · obtain ⟨l, hl, hevaluates⟩ := lost_of_visit hvalid.2.2 h hf
        exact ⟨l, hl, .inr ⟨⟨v, hv⟩, hevaluates⟩⟩
      · exact absurd hf (not_ofConstruct_orPython h)
  | .list elts, f, hvalid, h, hf => by
    rw [walk, accepted_cons] at hvalid
    rw [visit, bind_error] at h
    obtain h | ⟨_, -, h⟩ := h
    · exact lost_of_visitAll hvalid.2 h hf
    · cases h
  | .tuple elts, f, hvalid, h, hf => by
    rw [walk, accepted_cons] at hvalid
    rw [visit, bind_error] at h
    obtain h | ⟨_, -, h⟩ := h
    · exact lost_of_visitAll hvalid.2 h hf
    · cases h
  | .dict entries, f, hvalid, h, hf => by
    rw [walk, accepted_cons] at hvalid
    rw [visit, bind_error] at h
    obtain h | ⟨_, -, h⟩ := h
    · exact lost_of_visitEntries [] hvalid.2 h hf
    · cases h
  | .boolOp op values, f, hvalid, h, hf => by
    rw [walk, accepted_cons] at hvalid
    exact lost_of_visitOperands op .none hvalid.2 h hf
  | .unaryOp op operand, f, hvalid, h, hf => by
    rw [walk, accepted_cons] at hvalid
    rw [visit, bind_error] at h
    obtain h | ⟨v, -, h⟩ := h
    · obtain ⟨l, hl, hevaluates⟩ := lost_of_visit hvalid.2 h hf
      exact ⟨l, hl, hevaluates⟩
    · cases op with
      | not => cases h
      | usub =>
        -- What fails here is the operand of the minus, a value.
        dsimp only at h
        cases hnegate : negate P v with
        | none =>
          rw [hnegate] at h
          cases h
          exact hf.elim
        | some w =>
          rw [hnegate] at h
          cases h
      | uadd => cases hvalid.1
      | invert => cases hvalid.1
  | .binOp left op right, f, hvalid, h, hf => by
    rw [walk, accepted_cons, accepted_append] at hvalid
    rw [visit, if_pos (allowed_of_refusal hvalid.1), bind_error] at h
    obtain h | ⟨x, hx, h⟩ := h
    · obtain ⟨l, hl, hevaluates⟩ := lost_of_visit hvalid.2.1 h hf
      exact ⟨l, hl, .inl hevaluates⟩
    · obtain h | ⟨y, -, h⟩ := bind_error.mp h
      · obtain ⟨l, hl, hevaluates⟩ := lost_of_visit hvalid.2.2 h hf
        exact ⟨l, hl, .inr ⟨⟨x, hx⟩, hevaluates⟩⟩
      · split at h
        · exact absurd hf (not_ofConstruct_orPython h)
        · cases h
          exact hf.elim
  | .compare left rest, f, hvalid, h, hf => by
    rw [walk, accepted_cons, accepted_append] at hvalid
    rw [visit, bind_error] at h
    obtain h | ⟨v, hv, h⟩ := h
    · obtain ⟨l, hl, hevaluates⟩ := lost_of_visit hvalid.2.1 h hf
      exact ⟨l, hl, .inl hevaluates⟩
    · obtain ⟨l, hl, hevaluates⟩ := lost_of_visitRest v (all_allowed_of_refusal hvalid.1) hvalid.2.2 h hf
      exact ⟨l, hl, .inr ⟨v, hv, hevaluates⟩⟩
  | .other own children, f, hvalid, h, hf => by
    rw [walk, accepted_cons] at hvalid
    cases hvalid.1

theorem lost_of_visitAll : ∀ {es : List (Expr F)} {f : Failure F}, Accepted (walkAll es) →
    visitAll P context es = .error f → f.ofConstruct →
    ∃ l, valueOf l = none ∧ EvaluatesAll P context l es
  | [], _, _, h, _ => by cases h
  | e :: rest, f, hvalid, h, hf => by
    rw [walkAll, accepted_append] at hvalid
    rw [visitAll, bind_error] at h
    obtain h | ⟨v, hv, h⟩ := h
    · obtain ⟨l, hl, hevaluates⟩ := lost_of_visit hvalid.1 h hf
      exact ⟨l, hl, .inl hevaluates⟩
    · obtain h | ⟨_, -, h⟩ := bind_error.mp h
      · obtain ⟨l, hl, hevaluates⟩ := lost_of_visitAll hvalid.2 h hf
        exact ⟨l, hl, .inr ⟨⟨v, hv⟩, hevaluates⟩⟩
      · cases h

theorem lost_of_visitEntries :
    ∀ (entries : List (Value F × Value F)) {es : List (Option (Expr F) × Expr F)} {f : Failure F},
    Accepted (walkEntries es) → visitEntries P context entries es = .error f → f.ofConstruct → ∃ l,
      valueOf l = none ∧ EvaluatesEntries P context l es
  | _, [], _, _, h, _ => by cases h
  | entries, (none, e) :: rest, f, hvalid, h, hf => by
    rw [walkEntries, accepted_append] at hvalid
    obtain ⟨l, hl, hevaluates⟩ := lost_of_visitEntries entries hvalid.2 h hf
    exact ⟨l, hl, hevaluates⟩
  | entries, (some key, e) :: rest, f, hvalid, h, hf => by
    rw [walkEntries, accepted_append, accepted_append] at hvalid
    rw [visitEntries, bind_error] at h
    obtain h | ⟨k, hk, h⟩ := h
    · obtain ⟨l, hl, hevaluates⟩ := lost_of_visit hvalid.1.1 h hf
      exact ⟨l, hl, .inl hevaluates⟩
    · obtain h | ⟨v, hv, h⟩ := bind_error.mp h
      · obtain ⟨l, hl, hevaluates⟩ := lost_of_visit hvalid.1.2 h hf
        exact ⟨l, hl, .inr ⟨k, hk, .inl hevaluates⟩⟩
      · split at h
        case isTrue hhashable =>
          obtain ⟨l, hl, hevaluates⟩ := lost_of_visitEntries _ hvalid.2 h hf
          exact ⟨l, hl, .inr ⟨k, hk, .inr ⟨⟨v, hv⟩, hhashable, hevaluates⟩⟩⟩
        case isFalse =>
          cases h
          exact hf.elim

theorem lost_of_visitOperands (op : BoolOp) : ∀ (result : Value F) {es : List (Expr F)} {f : Failure F},
    Accepted (walkAll es) → visitOperands P context op result es = .error f → f.ofConstruct → ∃ l,
    valueOf l = none ∧ EvaluatesOperands P context l op es
  | _, [], _, _, h, _ => by cases h
  | _, e :: rest, f, hvalid, h, hf => by
    rw [walkAll, accepted_append] at hvalid
    rw [visitOperands, bind_error] at h
    obtain h | ⟨v, hv, h⟩ := h
    · obtain ⟨l, hl, hevaluates⟩ := lost_of_visit hvalid.1 h hf
      exact ⟨l, hl, .inl hevaluates⟩
    · split at h
      case isTrue hon =>
        obtain ⟨l, hl, hevaluates⟩ := lost_of_visitOperands op v hvalid.2 h hf
        exact ⟨l, hl, .inr ⟨v, hv, hon, hevaluates⟩⟩
      case isFalse => cases h

theorem lost_of_visitRest : ∀ (left : Value F) {es : List (CompareOp × Expr F)} {f : Failure F},
    (∀ entry ∈ es, entry.1.allowed = true) → Accepted (walkRest es) →
    visitRest P context left es = .error f → f.ofConstruct →
    ∃ l, valueOf l = none ∧ EvaluatesRest P context l left es
  | _, [], _, _, _, h, _ => by cases h
  | left, (op, e) :: rest, f, hallowed, hvalid, h, hf => by
    rw [List.forall_mem_cons] at hallowed
    rw [walkRest, accepted_append] at hvalid
    rw [visitRest, if_pos hallowed.1, bind_error] at h
    obtain h | ⟨right, hright, h⟩ := h
    · obtain ⟨l, hl, hevaluates⟩ := lost_of_visit hvalid.1 h hf
      exact ⟨l, hl, .inl hevaluates⟩
    · obtain h | ⟨ok, hok, h⟩ := bind_error.mp h
      · exact absurd hf (not_ofConstruct_orPython h)
      · cases ok with
        | false => cases h
        | true =>
          obtain ⟨l, hl, hevaluates⟩ := lost_of_visitRest right hallowed.2 hvalid.2 h hf
          have hholds : compareValues P op left right = .ok true := by
            cases hcompare : compareValues P op left right with
            | ok b =>
              rw [hcompare] at hok
              cases hok
              rfl
            | error e =>
              rw [hcompare] at hok
              cases hok
          exact ⟨l, hl, .inr ⟨right, hright, hholds, hevaluates⟩⟩

end

theorem parseExpression_eq_ok {parse : String → Option (Expr F)} {expression : String}
    {tree : Expr F} (h : parseExpression parse expression = .ok tree) :
    Accepted (walk tree) := by
  unfold parseExpression at h
  split at h
  case isTrue => cases h
  case isFalse =>
    split at h
    case h_1 => cases h
    case h_2 parsed hparsed =>
      split at h
      case isTrue => cases h
      case isFalse =>
        split at h
        case h_1 => cases h
        case h_2 hnone =>
          cases h
          intro n hn
          exact List.filterMap_eq_nil_iff.mp hnone n hn

theorem evaluate_error_iff {parse : String → Option (Expr F)} {expression : String} {tree : Expr F}
    (h : parseExpression parse expression = .ok tree)
    {f : Failure F} : evaluate P context parse expression = .error (.inr f) ↔ visit P context tree = .error f := by
  have hevaluate : evaluate P context parse expression = (visit P context tree).mapError .inr := by
    rw [evaluate, h]
    rfl
  rw [hevaluate]
  constructor
  · intro hfails
    cases hresult : visit P context tree with
    | ok v =>
      rw [hresult] at hfails
      cases hfails
    | error g =>
      rw [hresult] at hfails
      cases hfails
      rfl
  · intro hvisit
    rw [hvisit]
    rfl

/-- An accepted expression fails because of a construct exactly where a bytes, complex or `...` literal is evaluated. -/
theorem evaluate_complete_iff {parse : String → Option (Expr F)} {expression : String}
    {tree : Expr F} (h : parseExpression parse expression = .ok tree) :
    (∀ f, evaluate P context parse expression = .error (.inr f) → ¬f.ofConstruct) ↔ ∀ l,
    Evaluates P context l tree → (valueOf l).isSome = true := by
  have hvalid := parseExpression_eq_ok h
  constructor
  · intro hnever l hevaluates
    by_contra hl
    have hfails := visit_of_evaluates (Option.not_isSome_iff_eq_none.mp hl) hvalid hevaluates
    exact hnever (failureAt l) ((evaluate_error_iff h).mpr hfails) trivial
  · intro hknown f hfails hf
    obtain ⟨l, hl, hevaluates⟩ := lost_of_visit hvalid ((evaluate_error_iff h).mp hfails) hf
    have hsome := hknown l hevaluates
    rw [hl] at hsome
    cases hsome

/-- The arithmetic of one float. -/
def unitFloats : Floats Unit := ⟨fun _ => some (), fun _ _ => some (), fun _ _ _ => (), fun _ => (),
    fun _ => true, fun _ _ => some .eq⟩

/-- Of `true or b"x"` only the name is evaluated. -/
theorem evaluate_complete_decided : ¬∃ f,
    evaluate unitFloats [] (fun _ => some (.boolOp .or [.name "true", .constant (.bytes [120])]))
    "true or b\"x\"" = .error (.inr f) ∧ f.ofConstruct := by
  rintro ⟨f, hfails, hf⟩
  have haccepted : parseExpression
      (fun _ => some (.boolOp .or [.name "true", .constant (.bytes [120])])) "true or b\"x\"" =
      .ok (.boolOp .or [.name "true", .constant (.bytes [120])] : Expr Unit) := rfl
  refine (evaluate_complete_iff haccepted).mpr (fun l hevaluates => ?_) f hfails hf
  obtain hname | ⟨v, hv, hon, -⟩ := hevaluates
  · exact hname.elim
  · cases hv
    cases hon

/-- `b"x"` is accepted, and is then no expression that the interpreter knows. -/
theorem bytes_refused : ¬∀ (P : Floats Unit) (context : List (String × Value Unit))
    (expression : String) (tree : Expr Unit),
    parseExpression (fun _ => some (.constant (.bytes [120]))) expression = .ok tree →
    ∀ f, evaluate P context (fun _ => some (.constant (.bytes [120]))) expression =
    .error (.inr f) → ¬f.ofConstruct := by
  intro h
  exact h unitFloats [] "b\"x\"" _ rfl _ rfl trivial

mutual

theorem mem_walk_of_evaluates {l : Literal F} : ∀ {e : Expr F}, Evaluates P context l e → .constant l ∈ walk e
  | .constant l', h => by
    cases h
    exact List.mem_singleton_self _
  | .name _, h => h.elim
  | .attribute value _, h => .tail _ (mem_walk_of_evaluates (e := value) h)
  | .subscript value slice, h => by
    refine .tail _ (List.mem_append.mpr ?_)
    obtain h | ⟨-, h⟩ := h
    · exact .inl (mem_walk_of_evaluates h)
    · exact .inr (mem_walk_of_evaluates h)
  | .list elts, h => .tail _ (mem_walkAll_of_evaluates (s := elts) h)
  | .tuple elts, h => .tail _ (mem_walkAll_of_evaluates (s := elts) h)
  | .dict entries, h => .tail _ (mem_walkEntries_of_evaluates (s := entries) h)
  | .boolOp op values, h => .tail _ (mem_walkAll_of_operands op (s := values) h)
  | .unaryOp _ operand, h => .tail _ (mem_walk_of_evaluates (e := operand) h)
  | .binOp left _ right, h => by
    refine .tail _ (List.mem_append.mpr ?_)
    obtain h | ⟨-, h⟩ := h
    · exact .inl (mem_walk_of_evaluates h)
    · exact .inr (mem_walk_of_evaluates h)
  | .compare left rest, h => by
    refine .tail _ (List.mem_append.mpr ?_)
    obtain h | ⟨v, -, h⟩ := h
    · exact .inl (mem_walk_of_evaluates h)
    · exact .inr (mem_walkRest_of_evaluates v h)
  | .other _ _, h => h.elim

theorem mem_walkAll_of_evaluates {l : Literal F} :
    ∀ {s : List (Expr F)}, EvaluatesAll P context l s → .constant l ∈ walkAll s
  | [], h => h.elim
  | e :: rest, h => by
    refine List.mem_append.mpr ?_
    obtain h | ⟨-, h⟩ := h
    · exact .inl (mem_walk_of_evaluates h)
    · exact .inr (mem_walkAll_of_evaluates h)

theorem mem_walkEntries_of_evaluates {l : Literal F} : ∀ {s : List (Option (Expr F) × Expr F)},
    EvaluatesEntries P context l s → .constant l ∈ walkEntries s
  | [], h => h.elim
  | (none, e) :: rest, h => List.mem_append_right _ (mem_walkEntries_of_evaluates (s := rest) h)
  | (some key, e) :: rest, h => by
    rw [walkEntries, List.mem_append, List.mem_append]
    obtain h | ⟨-, -, h | ⟨-, -, h⟩⟩ := h
    · exact .inl (.inl (mem_walk_of_evaluates h))
    · exact .inl (.inr (mem_walk_of_evaluates h))
    · exact .inr (mem_walkEntries_of_evaluates h)

theorem mem_walkAll_of_operands {l : Literal F} (op : BoolOp) :
    ∀ {s : List (Expr F)}, EvaluatesOperands P context l op s → .constant l ∈ walkAll s
  | [], h => h.elim
  | e :: rest, h => by
    refine List.mem_append.mpr ?_
    obtain h | ⟨v, -, -, h⟩ := h
    · exact .inl (mem_walk_of_evaluates h)
    · exact .inr (mem_walkAll_of_operands op h)

theorem mem_walkRest_of_evaluates {l : Literal F} :
    ∀ (left : Value F) {s : List (CompareOp × Expr F)}, EvaluatesRest P context l left s →
    .constant l ∈ walkRest s
  | _, [], h => h.elim
  | _, (op, e) :: rest, h => by
    refine List.mem_append.mpr ?_
    obtain h | ⟨right, -, -, h⟩ := h
    · exact .inl (mem_walk_of_evaluates h)
    · exact .inr (mem_walkRest_of_evaluates right h)

end

end Completeness

end Galaris.Process.Expressions
