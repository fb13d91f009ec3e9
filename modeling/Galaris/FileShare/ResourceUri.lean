import Galaris.Base.Percent
import Galaris.Base.Texts
import Mathlib.Algebra.Order.Ring.Nat
import Mathlib.Data.Char
import Mathlib.Data.String.Basic

/-! Resource URIs (`app/file_share/resource_uri.py`).

A resource URI is a scheme and a locator. A locator of a provider is a path: it is decoded once,
split, and its parts are quoted again; some schemes name their resources by UUIDs. Texts are lists
of characters. -/
namespace Galaris.FileShare

open Percent
open Texts (isSpace stripOf)

/-- What the Unicode data say of characters, and the parser of Web URIs. -/
structure Env where
  nfc : Text → Text
  nfc_ascii : ∀ text, (∀ c ∈ text, ascii c = true) → nfc text = text
  decimal : Char → Option Nat
  webLocator : Text → Text → Except String Text

/-! ### Texts -/

/-- `str.replace` of a pattern by nothing; each character takes a turn at most. -/
def removeFrom (pattern : Text) : Nat → Text → Text
  | 0, text => text
  | _ + 1, [] => []
  | fuel + 1, c :: rest =>
    if pattern.isPrefixOf (c :: rest) then removeFrom pattern fuel ((c :: rest).drop pattern.length)
    else c :: removeFrom pattern fuel rest

def remove (pattern : Text) (text : Text) : Text := removeFrom pattern text.length text

/-- `_CONTROL_PATTERN`. -/
def control (c : Char) : Bool := c.toNat ≤ 0x1F || c.toNat = 0x7F

/-! ### UUIDs -/

/-- The space that `int` skips. -/
def skipped (c : Char) : Bool := [9, 10, 11, 12, 13, 32].contains c.toNat

/-- What `int` reads for a character. -/
def transformed (env : Env) (c : Char) : Char :=
  if ascii c then c
  else if isSpace c then ' '
  else
    match env.decimal c with
    | some digit => Char.ofNat (48 + digit)
    | none => '?'

/-- The digits of a number, in groups that underscores separate. -/
def groups (text : Text) : Option Nat :=
  if (text.splitOn '_').all fun group => !group.isEmpty && group.all fun c => (hexValue c).isSome then
    some ((text.filter (· ≠ '_')).foldl (fun n c => n * 16 + (hexValue c).getD 0) 0)
  else none

/-- `int(text, 16)`, of a text without hyphens. -/
def int16 (env : Env) (text : Text) : Option Nat :=
  let text := stripOf skipped (text.map (transformed env))
  let text := if text.head? = some '+' then text.tail else text
  match text with
  | '0' :: 'x' :: '_' :: digits => groups digits
  | '0' :: 'X' :: '_' :: digits => groups digits
  | '0' :: 'x' :: digits => groups digits
  | '0' :: 'X' :: digits => groups digits
  | digits => groups digits

/-- `UUID(text)`; `none` where it raises. -/
def parseUuid (env : Env) (text : Text) : Option Nat :=
  let hex := remove "uuid:".toList (remove "urn:".toList text)
  let hex := (stripOf (fun c => c == '{' || c == '}') hex).filter (· ≠ '-')
  if hex.length ≠ 32 then none else (int16 env hex).filter (· < 2 ^ 128)

def hexLower (n : Nat) : Char := Char.ofNat (if n < 10 then 48 + n else 87 + n)

/-- So many hexadecimal digits. -/
def hexDigits : Nat → Nat → Text
  | 0, _ => []
  | count + 1, n => hexDigits count (n / 16) ++ [hexLower (n % 16)]

/-- `str(UUID)`. -/
def uuidText (n : Nat) : Text :=
  let hex := hexDigits 32 n
  hex.take 8 ++ '-' :: ((hex.drop 8).take 4 ++
    '-' :: ((hex.drop 12).take 4 ++ '-' :: ((hex.drop 16).take 4 ++ '-' :: hex.drop 20)))

/-! ### Resource URIs -/

structure ResourceUri where
  scheme : Text
  locator : Text
deriving DecidableEq, Repr

/-- The parts of a path that are not empty. -/
def pathParts (path : Text) : List Text := ((stripOf (· == '/') path).splitOn '/').filter fun part => !part.isEmpty

namespace ResourceUri

/-- `uri`, `__str__`. -/
def text (uri : ResourceUri) : Text := uri.scheme ++ "://".toList ++ uri.locator

def decodedLocator (uri : ResourceUri) : Text := unquote uri.locator

def segments (uri : ResourceUri) : List Text := pathParts uri.decodedLocator

end ResourceUri

/-- What `quote` leaves in a part of a path. -/
def safeInPart (c : Char) : Bool := c.isAlphanum || "_.-~!$&'()*+,;=@:".toList.contains c

/-- The parts of a path, and whether it is a collection. -/
def render (parts : List Text) (trailing : Bool) : Text :=
  let result := ['/'].intercalate (parts.map (quote safeInPart))
  if trailing && !result.isEmpty then result ++ ['/'] else result

/-- `_normalize_locator`. -/
def normalizeLocator (env : Env) (locator : Text) (allowEmpty : Bool) : Except String Text :=
  let raw := env.nfc ((stripOf isSpace locator).map fun c => if c = '\\' then '/' else c)
  if raw.any control then .error "A resource URI cannot contain control characters."
  else if raw.contains '?' ||
    raw.contains '#' then .error "Provider resource locators cannot contain a query or fragment."
  else
    let trailing := raw.getLast? == some '/'
    let decoded := unquote raw
    if decoded.any control then .error "A resource URI cannot contain encoded control characters."
    else
      let parts := (decoded.splitOn '/').filter fun part => !part.isEmpty && part != ['.']
      if parts.contains ['.', '.'] then .error "A resource URI cannot traverse to a parent path."
      else
        let result := render parts trailing
        if result.isEmpty && !allowEmpty then .error "A resource URI requires a locator." else .ok result

def schemeChar (c : Char) : Bool := c.isAlphanum || c == '+' || c == '.' || c == '-'

/-- `_RESOURCE_URI_PATTERN`. -/
def splitScheme (value : Text) : Option (Text × Text) :=
  let scheme := value.takeWhile schemeChar
  match value.dropWhile schemeChar with
  | ':' :: '/' :: '/' :: locator => if scheme.head?.any (·.isAlpha) then some (scheme, locator) else none
  | _ => none

/-- `RESOURCE_SCHEME_PATTERN`. -/
def schemeName (scheme : Text) : Bool :=
  scheme.head?.any (·.isLower) && scheme.all fun c => c.isLower || c.isDigit || c == '+' || c == '.' || c == '-'

def file : Text := "file".toList
def memory : Text := "memory".toList
def document : Text := "document".toList
def data : Text := "data".toList
def folders : Text := "folders".toList
def attachments : Text := "attachments".toList

/-- Web URIs have a parser of their own. -/
def web (scheme : Text) : Bool := scheme == "http".toList || scheme == "https".toList

/-- The locator of a managed file. -/
def fileLocator (env : Env) (locator : Text) (allowEmpty : Bool) : Except String Text :=
  if locator.isEmpty && allowEmpty then .ok []
  else
    match parseUuid env locator with
    | none => .error "file:// requires exactly one managed file UUID."
    | some id =>
      -- No other letter becomes one of a UUID in lower case.
      if locator.map Char.toLower ≠ uuidText id
        then .error "file:// requires a canonical UUID, never a filesystem path."
      else .ok (uuidText id)

/-- The locator of a memory, of the normalized one. -/
def memoryLocator (env : Env) (normalized : Text) : Except String Text :=
  match pathParts normalized with
  | [part] =>
    match parseUuid env (unquote part) with
    | none => .error "memory:// requires a valid UUID."
    | some id => .ok (uuidText id)
  | _ => .error "memory:// requires exactly one UUID."

/-- The locator of a folder of documents. -/
def folderLocator (env : Env) (parts : List Text) : Except String Text :=
  match parts with
  | [_] => .ok "folders/".toList
  | [_, folder] =>
    match parseUuid env (unquote folder) with
    | none => .error "A folder URI requires a valid folder UUID."
    | some id => .ok ("folders/".toList ++ uuidText id ++ ['/'])
  | _ => .error "A folder URI accepts exactly one folder UUID."

/-- The locator of a document, of its attachments or of one of these. -/
def documentLocator (env : Env) (scheme normalized : Text) : Except String Text :=
  match pathParts normalized with
  | [] => .error "document:// requires a valid document UUID."
  | part :: rest =>
    if scheme == document && unquote part == folders then folderLocator env (part :: rest)
    else
      match parseUuid env (unquote part) with
      | none => .error "document:// requires a valid document UUID."
      | some id =>
        match rest with
        | [] => .ok (uuidText id)
        | [collection] =>
          if unquote collection == attachments then .ok (uuidText id ++ "/attachments/".toList)
          else .error "document:// accepts a document UUID or its attachments collection."
        | [collection, attachment] =>
          if unquote collection == attachments then
            match parseUuid env (unquote attachment) with
            | none => .error ("A document attachment URI requires a valid attachment UUID. " ++
                "To add a file, copy into document://<document-uuid>/attachments/ " ++
                "without a filename, or use file_create on that collection with name. " ++
                "Use the returned attachment URI for subsequent reads and embedding.")
            | some attachment => .ok (uuidText id ++ "/attachments/".toList ++ uuidText attachment)
          else .error "document:// accepts a document UUID or its attachments collection."
        | _ => .error "document:// accepts a document UUID or its attachments collection."

/-- The locator of a provider. -/
def providerLocator (env : Env) (scheme locator : Text) (allowEmpty : Bool) : Except String Text :=
  if scheme == file then fileLocator env locator allowEmpty
  else do
    let normalized ← normalizeLocator env locator allowEmpty
    if scheme == memory && !normalized.isEmpty then memoryLocator env normalized
    else if (scheme == document || scheme == data) && !normalized.isEmpty then documentLocator env scheme normalized
    else .ok normalized

/-- `parse_resource_uri`. -/
def parseResourceUri (env : Env) (value : Text) (allowEmpty : Bool) : Except String ResourceUri :=
  let raw := stripOf isSpace value
  if raw.isEmpty then .error "A resource URI is required."
  else
    match splitScheme raw with
    | none => .error "A canonical resource URI with an explicit scheme is required."
    | some (scheme, locator) =>
      let scheme := scheme.map Char.toLower
      if !schemeName scheme then .error ("Invalid resource scheme: '" ++ String.ofList scheme ++ "'.")
      else if scheme == "processus".toList then .error "Process run URIs now use galaris://processes/runs/<uuid>."
      else if scheme == "workspace".toList then
        .error "workspace:// has been removed; use console:// or an exact provider URI."
      else if web scheme then (env.webLocator scheme locator).map (⟨scheme, ·⟩)
      else (providerLocator env scheme locator allowEmpty).map (⟨scheme, ·⟩)

end Galaris.FileShare
