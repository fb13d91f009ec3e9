import Galaris.Base.JsonText
import Galaris.Base.Texts

/-! What is stored of the data of an external engine (`sanitizer.py`).

`sanitize` replaces what stands under a secret key before it looks at it, cuts what is nested too deep or too
long, and keeps a preview of what is still too large. Two values that differ only under secret keys are `Alike`:
cleaning takes them to one value (`walk_alike`), and all that follows is computed from that value. -/
namespace Galaris.Process.Sanitizer
open JsonText

/-- `UnicodeEncodeError`: a lone surrogate has no bytes. -/
inductive Refusal
  | surrogate
  deriving DecidableEq, Repr

/-- `SECRET_KEYS`. -/
def secretKeys : List Text :=
  ["token", "secret", "api_key", "apikey", "password", "authorization",
    "x-n8n-api-key", "cookie", "set-cookie", "bearer", "credential", "credentials",
    "private_key", "access_token", "refresh_token", "callback_token"].map text

/-- `TRUNCATED`. -/
def truncated : Text := text "...(truncated)"

/-- `replace("-", "_")`. -/
def underscored (s : Text) : Text := s.map fun c => if c = 45 then 95 else c

section Sanitize
variable (lower : Text → Text) (maxBytes maxDepth : Nat) (extra : List Text)

/-- `_secret_key`; `lower` is Python's `str.lower`. -/
def secretKey (key : Text) : Bool := ((secretKeys ++ extra).map underscored).contains
    (underscored (lower (Texts.stripOf Texts.isSpaceCode key)))

mutual

/-- `walk`. -/
def walk : Json → Nat → Except Refusal Json
  | value, depth =>
    if maxDepth ≤ depth then .ok (.str truncated)
    else
      match value with
      | .obj entries => (walkEntries entries depth).map .obj
      | .arr items => (walkItems items depth).map .arr
      | .str s =>
        match utf8Length s with
        | none => .error .surrogate
        | some size => .ok (.str (if size ≤ maxBytes then s else cut maxBytes s ++ truncated))
      | .null => .ok .null
      | .bool b => .ok (.bool b)
      | .number literal => .ok (.number literal)

def walkItems : List Json → Nat → Except Refusal (List Json)
  | [], _ => .ok []
  | item :: rest, depth => do
    let item ← walk item (depth + 1)
    let rest ← walkItems rest depth
    return item :: rest

def walkEntries : List (Text × Json) → Nat → Except Refusal (List (Text × Json))
  | [], _ => .ok []
  | (key, child) :: rest, depth => do
    let child ← if secretKey lower extra key then pure (.str (text "***")) else walk child (depth + 1)
    let rest ← walkEntries rest depth
    return (key, child) :: rest

end

/-- `sanitize`, with its default limits as `65536` and `10`. -/
def sanitize (value : Json) : Except Refusal Json := do
  let cleaned ← walk lower maxBytes maxDepth extra value 0
  match utf8Length (dumps cleaned) with
  | none => .error .surrogate
  | some size =>
    if size ≤ maxBytes then .ok cleaned
    else
      match cleaned with
      | .str s => .ok (.str (s.take maxBytes ++ truncated))
      | _ =>
        .ok (.obj [(text "_truncated", .bool true),
          (text "preview", .str (cut maxBytes (dumps cleaned) ++ truncated))])

end Sanitize

/-! ### Values that differ under secret keys only -/

section Alike
variable (lower : Text → Text) (extra : List Text)

mutual

/-- The values have one structure and differ at most in what secret keys hold. -/
def Alike : Json → Json → Prop
  | .null, .null => True
  | .bool a, .bool b => a = b
  | .number a, .number b => a = b
  | .str a, .str b => a = b
  | .arr xs, .arr ys => AlikeItems xs ys
  | .obj xs, .obj ys => AlikeEntries xs ys
  | _, _ => False

def AlikeItems : List Json → List Json → Prop
  | [], [] => True
  | x :: xs, y :: ys => Alike x y ∧ AlikeItems xs ys
  | _, _ => False

def AlikeEntries : List (Text × Json) → List (Text × Json) → Prop
  | [], [] => True
  | (key, x) :: xs, (key', y) :: ys => key = key' ∧ (secretKey lower extra key = true ∨ Alike x y) ∧ AlikeEntries xs ys
  | _, _ => False

end

end Alike

section Interference
variable {lower : Text → Text} {maxBytes maxDepth : Nat} {extra : List Text}

mutual

/-- Cleaning does not tell apart what differs under secret keys only. -/
theorem walk_alike : ∀ {x y : Json}, Alike lower extra x y → ∀ depth,
    walk lower maxBytes maxDepth extra x depth = walk lower maxBytes maxDepth extra y depth
  | .null, y, h, depth => by
    cases y <;> first | exact absurd h id | skip
    rfl
  | .bool a, y, h, depth => by
    cases y <;> first | exact absurd h id | skip
    obtain rfl : _ = _ := h
    rfl
  | .number a, y, h, depth => by
    cases y <;> first | exact absurd h id | skip
    obtain rfl : _ = _ := h
    rfl
  | .str a, y, h, depth => by
    cases y <;> first | exact absurd h id | skip
    obtain rfl : _ = _ := h
    rfl
  | .arr xs, y, h, depth => by
    cases y <;> first | exact absurd h id | skip
    rw [walk, walk, walkItems_alike h depth]
  | .obj xs, y, h, depth => by
    cases y <;> first | exact absurd h id | skip
    rw [walk, walk, walkEntries_alike h depth]

theorem walkItems_alike : ∀ {xs ys : List Json}, AlikeItems lower extra xs ys →
    ∀ depth, walkItems lower maxBytes maxDepth extra xs depth = walkItems lower maxBytes maxDepth extra ys depth
  | [], [], _, _ => rfl
  | [], _ :: _, h, _ => absurd h id
  | _ :: _, [], h, _ => absurd h id
  | x :: xs, y :: ys, h, depth => by
    rw [walkItems, walkItems, walk_alike h.1, walkItems_alike h.2]

theorem walkEntries_alike : ∀ {xs ys : List (Text × Json)}, AlikeEntries lower extra xs ys →
    ∀ depth, walkEntries lower maxBytes maxDepth extra xs depth = walkEntries lower maxBytes maxDepth extra ys depth
  | [], [], _, _ => rfl
  | [], _ :: _, h, _ => absurd h id
  | _ :: _, [], h, _ => absurd h id
  | (key, x) :: xs, (key', y) :: ys, ⟨hkey, hvalue, hrest⟩, depth => by
    obtain rfl := hkey
    rw [walkEntries, walkEntries, walkEntries_alike hrest]
    obtain hsecret | halike := hvalue
    · rw [if_pos hsecret, if_pos hsecret]
    · rw [walk_alike halike]

end

/-- No value under a secret key influences what is stored, whatever the limits and the keys that are denied besides. -/
theorem sanitize_alike {x y : Json} (h : Alike lower extra x y) :
    sanitize lower maxBytes maxDepth extra x = sanitize lower maxBytes maxDepth extra y := by
  rw [sanitize, sanitize, walk_alike h]

end Interference

/-- A password, and an object in its place, beside a text that is too long for the limit. -/
theorem sanitize_alike_preview :
    sanitize (fun s => s.map fun c => if 65 ≤ c ∧ c ≤ 90 then c + 32 else c) 30 10 []
    (.obj [(text "Password ", .str (text "hidden")), (text "note", .str (text "abcdefgh"))]) =
      sanitize (fun s => s.map fun c => if 65 ≤ c ∧ c ≤ 90 then c + 32 else c) 30 10 [] (.obj
        [(text "Password ", .obj [(text "a", .null)]), (text "note", .str (text "abcdefgh"))]) :=
  sanitize_alike ⟨rfl, .inl (by decide), rfl, .inr rfl, trivial⟩

end Galaris.Process.Sanitizer
