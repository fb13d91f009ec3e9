import Galaris.Base.Transition
import Galaris.FileShare.ResourceUri

/-! The file catalogue of one binding (`app/file_share/catalogue.py`).

The calls run one at a time, under the lock of the binding. URIs are canonical: what
`parse_resource_uri` gives for a text is the text again. A key is the hash of a text, which here is what
is hashed; the projections into memory are left out. -/
namespace Galaris.FileShare.Catalogue

open Percent Transition

abbrev Id := Nat

/-- What `uri_key` is the hash of. -/
inductive Key
  | uri (uri : Text)
  | retained (id : Id)
deriving DecidableEq, Repr

/-- `ResourceDescriptor`, as far as it is stored here. -/
structure Descriptor where
  uri : Text
  isCollection : Bool
  version : String
deriving DecidableEq, Repr

/-- `FileCatalogEntry`; `startedAt` is `operation_started_at`. -/
structure Entry where
  id : Id
  uri : Text
  key : Key
  generation : Nat
  descriptor : Descriptor
  notes : String
  present : Bool
  startedAt : Nat
  lastSeenAt : Nat
deriving DecidableEq, Repr

/-- The entries of the binding, and the next identity. -/
structure State where
  entries : List Entry
  next : Id
deriving DecidableEq, Repr

/-- `rstrip("/")`. -/
def trimmed (uri : Text) : Text := (uri.reverse.dropWhile (· == '/')).reverse

/-- `rstrip("/") + "/"`. -/
def directory (uri : Text) : Text := trimmed uri ++ ['/']

/-- The URI itself, or what is below its path. -/
def covers (uri other : Text) : Bool := other == uri || (directory uri).isPrefixOf other

/-- The constraint `uq_file_catalog_binding_uri`. -/
inductive Violation
  | uniqueKey
deriving DecidableEq, Repr

namespace State

def find (c : State) (key : Key) : Option Entry := c.entries.find? (·.key = key)

/-- A row is inserted. -/
def add (c : State) (uri : Text) (key : Key) (generation : Nat) (descriptor : Descriptor)
    (present : Bool) (startedAt lastSeenAt : Nat) :
    Except Violation State :=
  if c.entries.any (·.key = key) then .error .uniqueKey
  else .ok ⟨c.entries ++ [⟨c.next, uri, key, generation, descriptor, "", present, startedAt, lastSeenAt⟩], c.next + 1⟩

/-- A row is updated. -/
def update (c : State) (id : Id) (f : Entry → Entry) : State :=
  {c with entries := c.entries.map fun entry => if entry.id = id then f entry else entry}

/-- A row is given another key. -/
def rekey (c : State) (id : Id) (key : Key) (f : Entry → Entry) : Except Violation State :=
  if c.entries.any fun entry => entry.id ≠ id && entry.key = key then .error .uniqueKey
  else .ok (c.update id fun entry => {f entry with key})

/-- A later deletion of the URI or of a path above it is known. -/
def stale (c : State) (startedAt : Nat) (uri : Text) : Bool :=
  c.entries.any fun entry => !entry.present && startedAt < entry.startedAt && covers entry.uri uri

/-- `observe_descriptors`, of one descriptor. -/
def observeDescriptor (startedAt seenAt : Nat) (c : State) (descriptor : Descriptor) : Except Violation State :=
  if c.stale startedAt descriptor.uri then .ok c
  else
    match c.find (.uri descriptor.uri) with
    | none => c.add descriptor.uri (.uri descriptor.uri) 1 descriptor true startedAt seenAt
    | some entry =>
      if startedAt < entry.startedAt then .ok c
      else if entry.present then
        .ok (c.update entry.id fun entry => {entry with present := true, startedAt, lastSeenAt := seenAt, descriptor})
      else do
        -- A later occupant of the name does not inherit what was noted of the deleted file.
        let c ← c.rekey entry.id (.retained entry.id) id
        c.add descriptor.uri (.uri descriptor.uri) (entry.generation + 1) descriptor true startedAt seenAt

/-- `observe_descriptors`. -/
def observeDescriptors (c : State) (startedAt seenAt : Nat) (descriptors : List Descriptor) : Except Violation State :=
  descriptors.foldlM (observeDescriptor startedAt seenAt) c

def noDescriptor : Descriptor := ⟨[], false, ""⟩

/-- The entries that a deletion is about. -/
def deleted (startedAt : Nat) (uri : Text) (entry : Entry) : Entry :=
  if covers uri entry.uri && entry.startedAt ≤ startedAt then {entry with present := false, startedAt} else entry

/-- `observe_deletion`. -/
def observeDeletion (c : State) (startedAt : Nat) (uri : Text) : Except Violation State :=
  let remaining : State := {c with entries := c.entries.map (deleted startedAt uri)}
  if c.entries.any (·.uri = uri) then .ok remaining
  else remaining.add uri (.uri uri) 1 noDescriptor false startedAt startedAt

/-- The entry of a source, which is looked up with and without a slash; the database chooses between two. -/
def source (c : State) (uri : Text) (slash : Bool) : Option Entry :=
  match c.find (.uri uri), c.find (.uri (directory uri)) with
  | some entry, some other => some (if slash then other else entry)
  | some entry, none => some entry
  | none, other => other

/-- The entries that move with a collection. -/
def descendants (c : State) (source : Entry) (uri : Text) (destination : Descriptor) : List Entry :=
  if destination.isCollection then
    c.entries.filter fun entry => entry.id ≠ source.id && entry.present && (directory uri).isPrefixOf entry.uri
  else []

/-- The URI to which an entry moves. -/
def moved (source : Entry) (uri : Text) (destination : Descriptor) (entry : Entry) : Text :=
  if entry.id = source.id then destination.uri else directory destination.uri ++ entry.uri.drop (directory uri).length

/-- An entry moves, and leaves a tombstone. -/
def moveEntry (startedAt : Nat) (source : Entry) (uri : Text) (destination : Descriptor) (c : State) (entry : Entry) :
    Except Violation State := do
  let target := moved source uri destination entry
  let c ← c.rekey entry.id (.uri target) fun entry =>
    {entry with uri := target, startedAt, descriptor := {entry.descriptor with uri := target}}
  c.add entry.uri entry.key 1 {entry.descriptor with uri := target} false startedAt startedAt

/-- `observe_move`. -/
def observeMove (c : State) (startedAt : Nat) (uri : Text) (destination : Descriptor)
    (slash : Bool) : Except Violation State :=
  match c.source uri slash, c.find (.uri destination.uri) with
  | some source, none =>
    if startedAt < source.startedAt then c.observeDeletion startedAt uri
    else (source :: c.descendants source uri destination).foldlM (moveEntry startedAt source uri destination) c
  | _, _ => c.observeDeletion startedAt uri

/-- `annotate_catalogue_entry`, of the entry that it has described. -/
def annotate (c : State) (uri : Text) (notes : String) : State :=
  match c.find (.uri uri) with
  | none => c
  | some entry => c.update entry.id fun entry => {entry with notes}

end State

/-- A completed operation of the provider, as it is observed. -/
inductive Operation
  | describe (startedAt seenAt : Nat) (descriptors : List Descriptor)
  | delete (startedAt : Nat) (uri : Text)
  | move (startedAt : Nat) (uri : Text) (destination : Descriptor) (slash : Bool)
  | annotate (uri : Text) (notes : String)
deriving DecidableEq, Repr

def apply (c : State) : Operation → Except Violation State
  | .describe startedAt seenAt descriptors => c.observeDescriptors startedAt seenAt descriptors
  | .delete startedAt uri => c.observeDeletion startedAt uri
  | .move startedAt uri destination slash => c.observeMove startedAt uri destination slash
  | .annotate uri notes => .ok (c.annotate uri notes)

/-- A call that violates the constraint is rolled back. -/
def Observes (c : State) (operation : Operation) (c' : State) : Prop := apply c operation = .ok c'

def empty : State := ⟨[], 0⟩

/-- A deletion leaves nothing where the entry of the URI has been seen since. -/
def forgets (c : State) (startedAt : Nat) (uri : Text) : Bool :=
  c.entries.any (fun entry => entry.present && entry.uri = uri && startedAt < entry.startedAt) &&
    !c.entries.any fun entry => !entry.present && entry.uri = uri

/-- The URIs to which the entries below a collection move are free, and none of the entries has been seen since. -/
def clears (c : State) (startedAt : Nat) (source : Entry) (uri : Text) (destination : Descriptor) : Bool :=
  (c.descendants source uri destination).all fun entry =>
    entry.startedAt ≤ startedAt && State.moved source uri destination entry ≠ destination.uri &&
      (c.find (.uri (State.moved source uri destination entry))).isNone

/-- The condition of a call: a deletion does not forget itself; a move knows one spelling of its source,
finds no tombstone at its destination, and clears the way of what it moves. -/
def sound (c : State) : Operation → Bool
  | .delete startedAt uri => !forgets c startedAt uri
  | .move startedAt uri destination slash =>
    (uri == directory uri || (c.find (.uri uri)).isNone || (c.find (.uri (directory uri))).isNone) &&
      match c.source uri slash, c.find (.uri destination.uri) with
      | some source, none => startedAt < source.startedAt || clears c startedAt source uri destination
      | some source, some target => startedAt < source.startedAt || !source.present || target.present
      | none, _ => true
  | _ => true

end Galaris.FileShare.Catalogue
