import Galaris.Base.Transition
import Mathlib.Data.List.Perm.Subperm
import Mathlib.Data.List.Sort
import Mathlib.Logic.Function.Basic

/-! Managed files (`core/storage/registry.py`, `lifecycle.py`, `disk.py`): rows and references in the
database, bytes on the disk.

Whatever reads or writes the rows takes one advisory lock, which it keeps until its transaction ends, so
there is at most one transaction at a time; it ends with a commit or is rolled back, by an error or a crash.
What is done to the disk is done at once and is never rolled back. The two agree all the same: what is
referred to is there (`Sound`). -/
namespace Galaris.Core.StoredFiles

open Transition

/-- A file is named by a `uuid4`, and so is its path. -/
abbrev Id := Nat

abbrev Uri := String

/-- A row of `files`: what its bytes are known by, and whether it is retired and purged. -/
structure StoredFile (Print : Type) where
  id : Id
  /-- Size and digest. -/
  manifest : Print
  deleted : Bool := false
  purged : Bool := false
deriving DecidableEq, Repr

/-- A row of `file_aliases`. -/
structure FileAlias where
  uri : Uri
  fileId : Id
deriving DecidableEq, Repr

/-- The rows of the database. -/
structure Rows (Print : Type) where
  files : List (StoredFile Print)
  aliases : List FileAlias
deriving DecidableEq, Repr

/-- The bytes at the paths of files. -/
abbrev Disk (Bytes : Type) := Id → Option Bytes

inductive Error
  /-- `FileNotFoundError`: there are no bytes. -/
  | missing
  /-- The row does not have this identity, or is retired. -/
  | identity
  | alias
  | referenced
  | integrity
deriving DecidableEq, Repr

section Operations
variable {Bytes Print : Type} [DecidableEq Print] (fingerprint : Bytes → Print)

/-- `DiskFileDriver.publish`: verified bytes, which never replace others. -/
def publish (disk : Disk Bytes) (id : Id) (bytes : Bytes) : Disk Bytes :=
    if (disk id).isSome then disk else Function.update disk id (some bytes)

def Rows.file? (rows : Rows Print) (id : Id) : Option (StoredFile Print) := rows.files.find? fun file => file.id = id

def Rows.insertFile (rows : Rows Print) (id : Id) (manifest : Print) : Rows Print :=
  if (rows.file? id).isSome then rows else {rows with files := rows.files ++ [⟨id, manifest, false, false⟩]}

def Rows.insertAlias (rows : Rows Print) (uri : Uri) (id : Id) : Rows Print :=
  if rows.aliases.any (·.uri = uri) then rows else {rows with aliases := rows.aliases ++ [⟨uri, id⟩]}

/-- `register_file`. A retired row is not found. What was inserted before an error stays in the transaction. -/
def registerFile (disk : Disk Bytes) (rows : Rows Print) (id : Id) (uri : Option Uri) :
    Rows Print × Except Error Unit :=
  match disk id with
  | none => (rows, .error .missing)
  | some bytes =>
    let inserted := rows.insertFile id (fingerprint bytes)
    match (inserted.file? id).filter fun file => !file.deleted && file.manifest = fingerprint bytes with
    | none => (inserted, .error .identity)
    | some _ =>
      match uri with
      | none => (inserted, .ok ())
      | some uri =>
        if (rows.aliases.find? (·.uri = uri)).all (·.fileId = id) then (inserted.insertAlias uri id, .ok ())
        else (inserted, .error .alias)

/-- `_retire`: the references that `clause` selects go, and the files that nothing refers to any more are retired. -/
def retire (rows : Rows Print) (clause : Uri → Bool) : Rows Print × List Id :=
  let identifiers := (rows.aliases.filter fun a => clause a.uri).map (·.fileId)
  let aliases := rows.aliases.filter fun a => !clause a.uri
  let unreferenced (file : StoredFile Print) : Bool := file.id ∈ identifiers && aliases.all (·.fileId ≠ file.id)
  ({files := rows.files.map fun file => if unreferenced file then {file with deleted := true} else file, aliases},
    (rows.files.filter fun file => unreferenced file && !file.deleted).map (·.id))

/-- `purge_retired_file`. -/
def purgeRetiredFile (disk : Disk Bytes) (rows : Rows Print) (id : Id) :
    (Disk Bytes × Rows Print) × Except Error Bool :=
  match (rows.file? id).filter fun file => file.deleted && !file.purged with
  | none => ((disk, rows), .ok false)
  | some file =>
    let purged : Rows Print :=
      {rows with files := rows.files.map fun f => if f.id = id then {f with purged := true} else f}
    if rows.aliases.any (·.fileId = id) then ((disk, rows), .error .referenced)
    else match disk id with
    | none => ((disk, purged), .ok false)
    | some bytes =>
      if fingerprint bytes = file.manifest then ((Function.update disk id none, purged), .ok true)
      else ((disk, rows), .error .integrity)

/-- `discard_unregistered_file`. -/
def discardUnregisteredFile (disk : Disk Bytes) (rows : Rows Print) (id : Id) : Disk Bytes :=
  if (rows.file? id).isSome then disk else Function.update disk id none

/-- The purges of one page; errors are logged. -/
def purgePage (s : Disk Bytes × Rows Print) (identifiers : List Id) : Disk Bytes × Rows Print :=
  identifiers.foldl (fun s id => (purgeRetiredFile fingerprint s.1 s.2 id).1) s

/-- The files that wait for their purge. -/
def Rows.pending (rows : Rows Print) : List Id :=
    (rows.files.filter fun file => file.deleted && !file.purged).map (·.id)

/-- The next page: behind the cursor, in order. -/
def Rows.page (rows : Rows Print) (cursor : Option Id) : List Id :=
  ((rows.pending.filter fun id => cursor.all (· < id)).mergeSort).take 500

/-- `resume_file_purges`, from a cursor; every page is committed. -/
def resumeFilePurges : Nat → Option Id → Disk Bytes × Rows Print → Disk Bytes × Rows Print
  | 0, _, s => s
  | fuel + 1, cursor, s =>
    if s.2.page cursor = [] then s else resumeFilePurges fuel (s.2.page cursor).getLast?
      (purgePage fingerprint s (s.2.page cursor))

/-! ### Runs -/

/-- The disk, the rows that are committed, and those of the transaction that holds the lock. -/
structure State (Bytes Print : Type) where
  disk : Disk Bytes
  saved : Rows Print
  working : Option (Rows Print) := none

inductive Event (Bytes : Type)
  /-- Without the lock. -/
  | publish (id : Id) (bytes : Bytes)
  | begin'
  | register (id : Id) (uri : Option Uri)
  | retire (clause : Uri → Bool)
  | purge (id : Id)
  | discard (id : Id)
  | commit
  /-- An error, or a crash of the process. -/
  | rollback

/-- What happens; `none` where the lock is not free, or not held. -/
def apply (s : State Bytes Print) : Event Bytes → Option (State Bytes Print)
  | .publish id bytes => some {s with disk := publish s.disk id bytes}
  | .begin' => if s.working.isSome then none else some {s with working := some s.saved}
  | .register id uri =>
    s.working.map fun rows =>
      {s with working := some (registerFile fingerprint s.disk rows id uri).1}
  | .retire clause => s.working.map fun rows => {s with working := some (retire rows clause).1}
  | .purge id => s.working.map fun rows =>
    {s with
      disk := (purgeRetiredFile fingerprint s.disk rows id).1.1
      working := some (purgeRetiredFile fingerprint s.disk rows id).1.2}
  | .discard id => s.working.map fun rows => {s with disk := discardUnregisteredFile s.disk rows id}
  | .commit => s.working.map fun rows => {s with saved := rows, working := none}
  | .rollback => s.working.map fun _ => {s with working := none}

/-- No rows; any disk. -/
def start (disk : Disk Bytes) : State Bytes Print := ⟨disk, ⟨[], []⟩, none⟩

/-- The caller of a purge has committed the retirement. -/
def committed (s : State Bytes Print) : Event Bytes → Prop
  | .purge id => ∀ file ∈ s.saved.files, file.id = id → file.deleted = true
  | _ => True

/-- A path is written with the bytes of its file only: a new file has a new path. -/
def own (s : State Bytes Print) : Event Bytes → Prop
  | .publish id bytes =>
    ∀ rows, rows = s.saved ∨ s.working = some rows → ∀ file ∈ rows.files, file.id = id →
      fingerprint bytes = file.manifest
  | _ => True

abbrev Happens : State Bytes Print → Event Bytes → State Bytes Print → Prop :=
    Guarded (Executes (apply fingerprint)) committed

end Operations

section Runs
variable {Bytes Print : Type} {fingerprint : Bytes → Print} {disk disk' : Disk Bytes} {rows rows' : Rows Print}

/-! ### Rows and bytes -/

/-- The rows agree with the disk: references name files that are not retired, and the bytes of those are there. -/
structure Sound (fingerprint : Bytes → Print) (disk : Disk Bytes) (rows : Rows Print) : Prop where
  ids : (rows.files.map (·.id)).Nodup
  uris : (rows.aliases.map (·.uri)).Nodup
  refers : ∀ a ∈ rows.aliases, ∃ file ∈ rows.files, file.id = a.fileId ∧ file.deleted = false
  bytes : ∀ file ∈ rows.files, file.deleted = false → ∃ bytes, disk file.id = some bytes ∧
    fingerprint bytes = file.manifest

/-- Rows stay, with their manifests; what is retired stays retired. -/
def Later (rows rows' : Rows Print) : Prop :=
  ∀ file ∈ rows.files, ∃ file' ∈ rows'.files, file'.id = file.id ∧ file'.manifest = file.manifest ∧
    (file.deleted = true → file'.deleted = true)

theorem Later.refl (rows : Rows Print) : Later rows rows := fun file hfile => ⟨file, hfile, rfl, rfl, id⟩

theorem Later.trans {rows'' : Rows Print} (h : Later rows rows') (h' : Later rows' rows'') : Later rows rows'' := by
  intro file hfile
  obtain ⟨file', hfile', hid, hmanifest, hdeleted⟩ := h file hfile
  obtain ⟨file'', hfile'', hid', hmanifest', hdeleted'⟩ := h' file' hfile'
  exact ⟨file'', hfile'', hid'.trans hid, hmanifest'.trans hmanifest, hdeleted' ∘ hdeleted⟩

/-- What is done to the disk is not done to the bytes of files that are not retired. -/
theorem Sound.onDisk (h : Sound fingerprint disk rows)
    (hkept : ∀ file ∈ rows.files, file.deleted = false → ∀ bytes, disk file.id = some bytes →
      disk' file.id = some bytes) : Sound fingerprint disk' rows := by
  refine {h with bytes := fun file hfile hlive => ?_}
  obtain ⟨bytes, hbytes, hprint⟩ := h.bytes file hfile hlive
  exact ⟨bytes, hkept file hfile hlive bytes hbytes, hprint⟩

theorem Sound.eq (h : Sound fingerprint disk rows) {file file' : StoredFile Print}
    (hfile : file ∈ rows.files) (hfile' : file' ∈ rows.files)
    (hid : file.id = file'.id) : file = file' := List.inj_on_of_nodup_map h.ids hfile hfile' hid

/-- What is on disk is not overwritten. -/
theorem publish_some {id other : Id} {bytes held : Bytes} (h : disk other = some held) :
    publish disk id bytes other = some held := by
  unfold publish
  split
  · exact h
  case isFalse hfree =>
    rw [Function.update_of_ne, h]
    rintro rfl
    rw [h] at hfree
    exact hfree rfl

theorem file?_eq_some {id : Id} {file : StoredFile Print} (h : rows.file? id = some file) :
    file ∈ rows.files ∧ file.id = id :=
  ⟨List.mem_of_find?_eq_some h, by simpa using List.find?_some h⟩

/-- A file is found where there is a row of it. -/
theorem file?_isSome {id : Id} : (rows.file? id).isSome ↔ ∃ file ∈ rows.files, file.id = id := by
  simp [Rows.file?]

/-! ### Retirement -/

/-- A retirement keeps the rows sound. -/
theorem Sound.retire (h : Sound fingerprint disk rows) (clause : Uri → Bool) :
    Sound fingerprint disk (retire rows clause).1 := by
  have hkept : ∀ file : StoredFile Print,
      ((if (decide (file.id ∈ (rows.aliases.filter fun a => clause a.uri).map (·.fileId)) &&
      (rows.aliases.filter fun a => !clause a.uri).all (·.fileId ≠ file.id)) = true
      then {file with deleted := true} else file : StoredFile Print)).id = file.id := by
    intro file
    split <;> rfl
  refine ⟨?_, h.uris.sublist (List.filter_sublist.map _), fun a ha => ?_, fun file hfile hlive => ?_⟩
  · have hids : ((StoredFiles.retire rows clause).1.files.map (·.id)) = rows.files.map (·.id) := by
      rw [StoredFiles.retire, List.map_map]
      exact List.map_congr_left fun file _ => hkept file
    rw [hids]
    exact h.ids
  · obtain ⟨file, hfile, hid, hlive⟩ := h.refers a (List.mem_of_mem_filter ha)
    refine ⟨file, List.mem_map.mpr ⟨file, hfile, ?_⟩, hid, hlive⟩
    -- The reference that is left keeps the file.
    rw [if_neg]
    simp only [Bool.and_eq_true, List.all_eq_true, decide_eq_true_eq, not_and]
    exact fun _ hall => hall a ha hid.symm
  · obtain ⟨before, hbefore, rfl⟩ := List.mem_map.mp hfile
    split at hlive
    · cases hlive
    case isFalse hnot =>
      rw [if_neg hnot]
      exact h.bytes before hbefore hlive

/-- A retirement brings no file back. -/
theorem retire_later (clause : Uri → Bool) : Later rows (retire rows clause).1 := by
  intro file hfile
  refine ⟨_, List.mem_map_of_mem hfile, ?_, ?_, ?_⟩ <;> split
  · rfl
  · rfl
  · rfl
  · rfl
  · exact fun _ => rfl
  · exact id

/-! ### Registration -/

theorem insertFile_later (id : Id) (manifest : Print) : Later rows (rows.insertFile id manifest) := by
  unfold Rows.insertFile
  split
  · exact .refl rows
  · exact fun file hfile => ⟨file, List.mem_append_left _ hfile, rfl, rfl, fun hdeleted => hdeleted⟩

/-- A row for bytes that are on disk keeps the rows sound. -/
theorem Sound.insertFile (h : Sound fingerprint disk rows) {id : Id} {bytes : Bytes} (hbytes : disk id = some bytes) :
    Sound fingerprint disk (rows.insertFile id (fingerprint bytes)) := by
  unfold Rows.insertFile
  split
  · exact h
  case isFalse hnew =>
    rw [file?_isSome] at hnew
    have hids : ((rows.files ++ [(⟨id, fingerprint bytes, false, false⟩ : StoredFile Print)]).map (·.id)).Nodup := by
      rw [List.map_append, List.nodup_append]
      refine ⟨h.ids, List.nodup_singleton _, ?_⟩
      simpa using fun file hfile hid => hnew ⟨file, hfile, hid⟩
    refine ⟨hids, h.uris, fun a ha => ?_, fun file hfile hlive => ?_⟩
    · obtain ⟨file, hfile, hid, hlive⟩ := h.refers a ha
      exact ⟨file, List.mem_append_left _ hfile, hid, hlive⟩
    · obtain hold | hrow := List.mem_append.mp hfile
      · exact h.bytes file hold hlive
      · rw [List.mem_singleton.mp hrow]
        exact ⟨bytes, hbytes, rfl⟩

/-- A reference to a live file keeps the rows sound. -/
theorem Sound.insertAlias (h : Sound fingerprint disk rows) {id : Id} {uri : Uri}
    {file : StoredFile Print} (hfile : file ∈ rows.files) (hid : file.id = id)
    (hlive : file.deleted = false) : Sound fingerprint disk (rows.insertAlias uri id) := by
  unfold Rows.insertAlias
  split
  · exact h
  case isFalse hnew =>
    have huris : ((rows.aliases ++ [(⟨uri, id⟩ : FileAlias)]).map (·.uri)).Nodup := by
      rw [List.map_append, List.nodup_append]
      refine ⟨h.uris, List.nodup_singleton _, ?_⟩
      simpa using hnew
    refine ⟨h.ids, huris, fun a ha => ?_, h.bytes⟩
    obtain hold | hrow := List.mem_append.mp ha
    · exact h.refers a hold
    · rw [List.mem_singleton.mp hrow]
      exact ⟨file, hfile, hid, hlive⟩

theorem insertAlias_files (rows : Rows Print) (uri : Uri) (id : Id) : (rows.insertAlias uri id).files = rows.files := by
  unfold Rows.insertAlias
  split <;> rfl

/-! ### Purges -/

/-- What a purge does: nothing, or it marks the row of a retired file, whose path is empty then. -/
inductive Purge (fingerprint : Bytes → Print) (disk : Disk Bytes) (rows : Rows Print) (id : Id) :
    Disk Bytes → Rows Print → Prop
  | none : (∀ file, rows.file? id = some file → file.deleted = true → file.purged = false →
        (∃ a ∈ rows.aliases, a.fileId = id) ∨ ∃ bytes, disk id = some bytes ∧
        fingerprint bytes ≠ file.manifest) → Purge fingerprint disk rows id disk rows
  | marks {file : StoredFile Print} {disk' : Disk Bytes} :
    rows.file? id = some file → file.deleted = true → disk' = Function.update disk id Option.none →
      Purge fingerprint disk rows id disk' {rows with
        files := rows.files.map fun f => if f.id = id then {f with purged := true} else f}

/-- The rows after a purge. -/
theorem marked {id : Id} {file' : StoredFile Print}
    (h : file' ∈ rows.files.map fun f => if f.id = id then {f with purged := true} else f) :
    ∃ file ∈ rows.files, file'.id = file.id ∧ file'.manifest = file.manifest ∧ file'.deleted = file.deleted ∧
      (file'.purged = if file.id = id then true else file.purged) := by
  obtain ⟨file, hfile, rfl⟩ := List.mem_map.mp h
  refine ⟨file, hfile, ?_, ?_, ?_, ?_⟩ <;> split <;> rfl

/-- A file that is marked as purged keeps its row. -/
theorem mem_marked (id : Id) {file : StoredFile Print} (h : file ∈ rows.files) :
    ∃ file' ∈ rows.files.map (fun f => if f.id = id then {f with purged := true} else f),
      file'.id = file.id ∧ file'.manifest = file.manifest ∧ file'.deleted = file.deleted := by
  refine ⟨_, List.mem_map_of_mem h, ?_, ?_, ?_⟩ <;> split <;> rfl

/-- A purge keeps the rows sound. -/
theorem Purge.sound {id : Id} (h : Purge fingerprint disk rows id disk' rows') (hs : Sound fingerprint disk rows) :
    Sound fingerprint disk' rows' ∧ Later rows rows' := by
  cases h with
  | none => exact ⟨hs, .refl rows⟩
  | @marks file _ hfind hdeleted hdisk =>
    obtain ⟨hfile, hid⟩ := file?_eq_some hfind
    refine ⟨⟨?_, hs.uris, fun a ha => ?_, fun after hafter hlive => ?_⟩, fun before hbefore => ?_⟩
    · have hids : (rows.files.map fun f => if f.id = id then {f with purged := true} else f).map
          (·.id) = rows.files.map (·.id) := by
        rw [List.map_map]
        refine List.map_congr_left fun f _ => ?_
        dsimp only [Function.comp_apply]
        split <;> rfl
      rw [hids]
      exact hs.ids
    · obtain ⟨before, hbefore, hsame, hlive⟩ := hs.refers a ha
      obtain ⟨after, hafter, hid', -, hdeleted'⟩ := mem_marked id hbefore
      exact ⟨after, hafter, hid'.trans hsame, hdeleted'.trans hlive⟩
    · obtain ⟨before, hbefore, hid', hmanifest, hdeleted', -⟩ := marked hafter
      rw [hdeleted'] at hlive
      have hother : before.id ≠ id := by
        intro hsame
        rw [hs.eq hbefore hfile (hsame.trans hid.symm), hdeleted] at hlive
        cases hlive
      rw [hid', hmanifest, hdisk, Function.update_of_ne hother]
      exact hs.bytes before hbefore hlive
    · obtain ⟨after, hafter, hid', hmanifest, hdeleted'⟩ := mem_marked id hbefore
      exact ⟨after, hafter, hid', hmanifest, fun hdeleted => hdeleted'.trans hdeleted⟩

/-- A purge writes no bytes. -/
theorem Purge.less {id other : Id} {bytes : Bytes} (h : Purge fingerprint disk rows id disk' rows')
    (hbytes : disk' other = some bytes) : disk other = some bytes := by
  cases h with
  | none => exact hbytes
  | marks _ _ hdisk =>
    rw [hdisk, Function.update_apply] at hbytes
    split at hbytes
    · cases hbytes
    · exact hbytes

/-- A purge deletes the bytes of its own file only. -/
theorem Purge.disk_of_ne {id other : Id} (h : Purge fingerprint disk rows id disk' rows')
    (hother : other ≠ id) : disk' other = disk other := by
  cases h with
  | none => rfl
  | marks _ _ hdisk => rw [hdisk, Function.update_of_ne hother]

/-! ### Runs -/

/-- The committed rows agree with the disk, and those of the transaction too. -/
structure Inv (fingerprint : Bytes → Print) (s : State Bytes Print) : Prop where
  saved : Sound fingerprint s.disk s.saved
  working : ∀ rows, s.working = some rows → Sound fingerprint s.disk rows ∧ Later s.saved rows

variable {s t : State Bytes Print}

/-- The transaction goes on. -/
theorem Inv.goesOn (hs : Inv fingerprint s) (hworking : s.working = some rows)
    (hrows : Sound fingerprint disk' rows' ∧ Later rows rows')
    (hkept : ∀ file ∈ s.saved.files, file.deleted = false → ∀ bytes, s.disk file.id = some bytes →
      disk' file.id = some bytes) :
    Inv fingerprint {s with disk := disk', working := some rows'} := by
  refine ⟨hs.saved.onDisk hkept, fun r hr => ?_⟩
  cases hr
  exact ⟨hrows.1, (hs.working rows hworking).2.trans hrows.2⟩

theorem start_inv (disk : Disk Bytes) : Inv fingerprint (start disk) :=
    ⟨⟨List.nodup_nil, List.nodup_nil, nofun, nofun⟩, nofun⟩

variable [DecidableEq Print]

/-- A registration keeps the rows sound, whether it is refused or not. -/
theorem Sound.register (h : Sound fingerprint disk rows) (id : Id) (uri : Option Uri) :
    Sound fingerprint disk (registerFile fingerprint disk rows id uri).1 ∧
        Later rows (registerFile fingerprint disk rows id uri).1 := by
  unfold registerFile
  split
  · exact ⟨h, .refl rows⟩
  case h_2 bytes hbytes =>
    have hinserted := h.insertFile hbytes
    have hlater : Later rows (rows.insertFile id (fingerprint bytes)) := insertFile_later id (fingerprint bytes)
    dsimp only
    split
    · exact ⟨hinserted, hlater⟩
    case h_2 file hfind =>
      obtain ⟨hfind, hfile⟩ := Option.filter_eq_some_iff.mp hfind
      obtain ⟨hmem, hid⟩ := file?_eq_some hfind
      rw [Bool.and_eq_true, Bool.not_eq_true'] at hfile
      split
      · exact ⟨hinserted, hlater⟩
      · split
        · refine ⟨hinserted.insertAlias hmem hid hfile.1, ?_⟩
          unfold Later
          rw [insertAlias_files]
          exact hlater
        · exact ⟨hinserted, hlater⟩

/-- `purge_retired_file` does what a purge may do. -/
theorem purge_spec (disk : Disk Bytes) (rows : Rows Print) (id : Id) :
    Purge fingerprint disk rows id (purgeRetiredFile fingerprint disk rows id).1.1
        (purgeRetiredFile fingerprint disk rows id).1.2 := by
  unfold purgeRetiredFile
  split
  case h_1 hfind =>
    refine .none fun file hfile hdeleted hpurged => ?_
    rw [hfile, Option.filter_some, hdeleted, hpurged] at hfind
    cases hfind
  case h_2 file hfind =>
    obtain ⟨hfile, hstate⟩ := Option.filter_eq_some_iff.mp hfind
    rw [Bool.and_eq_true, Bool.not_eq_true'] at hstate
    dsimp only
    split
    case isTrue hreferenced => exact .none fun _ _ _ _ => .inl (by simpa using hreferenced)
    · split
      case h_1 hempty => exact .marks hfile hstate.1 (Function.update_eq_self_iff.mpr hempty.symm).symm
      case h_2 bytes hbytes =>
        split
        · exact .marks hfile hstate.1 rfl
        case isFalse hprint =>
          refine .none fun other hother _ _ => .inr ⟨bytes, hbytes, ?_⟩
          obtain rfl := Option.some.inj (hfile.symm.trans hother)
          exact hprint

/-- Every event keeps the invariant. -/
theorem apply_inv {event : Event Bytes} (hs : Inv fingerprint s)
    (h : Happens fingerprint s event t) : Inv fingerprint t ∧ Later s.saved t.saved := by
  obtain ⟨hcommitted, happly⟩ := h
  have hsame : ∀ file ∈ s.saved.files, file.deleted = false → ∀ bytes, s.disk file.id = some bytes →
      s.disk file.id = some bytes := fun _ _ _ _ hbytes => hbytes
  cases event with
  | publish id bytes =>
    cases happly
    have hkept : ∀ rows : Rows Print, Sound fingerprint s.disk rows →
        Sound fingerprint (publish s.disk id bytes) rows :=
      fun rows hrows => hrows.onDisk fun _ _ _ _ => publish_some
    exact ⟨⟨hkept _ hs.saved,
      fun rows hrows => ⟨hkept _ (hs.working rows hrows).1, (hs.working rows hrows).2⟩⟩, .refl _⟩
  | begin' =>
    obtain ⟨-, rfl⟩ : s.working = none ∧ _ = t := by simpa [Executes, apply] using happly
    refine ⟨⟨hs.saved, fun rows hrows => ?_⟩, .refl _⟩
    cases hrows
    exact ⟨hs.saved, .refl _⟩
  | register id uri =>
    obtain ⟨rows, hworking, rfl⟩ := Option.map_eq_some_iff.mp happly
    exact ⟨hs.goesOn hworking ((hs.working rows hworking).1.register id uri) hsame, .refl _⟩
  | retire clause =>
    obtain ⟨rows, hworking, rfl⟩ := Option.map_eq_some_iff.mp happly
    exact ⟨hs.goesOn hworking ⟨(hs.working rows hworking).1.retire clause, retire_later clause⟩ hsame, .refl _⟩
  | purge id =>
    obtain ⟨rows, hworking, rfl⟩ := Option.map_eq_some_iff.mp happly
    have hpurge := @purge_spec _ _ fingerprint _ s.disk rows id
    refine ⟨hs.goesOn hworking (hpurge.sound (hs.working rows hworking).1) fun file hfile hlive bytes hbytes => ?_, .refl _⟩
    -- The retirement is committed, so that a rollback does not miss the bytes.
    rw [hpurge.disk_of_ne, hbytes]
    intro hid
    rw [hcommitted file hfile hid] at hlive
    cases hlive
  | discard id =>
    obtain ⟨rows, hworking, rfl⟩ := Option.map_eq_some_iff.mp happly
    obtain ⟨hrows, hlater⟩ := hs.working rows hworking
    have hkept : ∀ file ∈ rows.files, ∀ bytes, s.disk file.id = some bytes →
        discardUnregisteredFile s.disk rows id file.id = some bytes := by
      intro file hfile bytes hbytes
      unfold discardUnregisteredFile
      split
      · exact hbytes
      case isFalse hnone =>
        rw [file?_isSome] at hnone
        rw [Function.update_of_ne fun hid => hnone ⟨file, hfile, hid⟩, hbytes]
    refine ⟨⟨hs.saved.onDisk fun file hfile _ bytes hbytes => ?_, fun r hr => ?_⟩, .refl _⟩
    · obtain ⟨file', hfile', hid, -⟩ := hlater file hfile
      rw [← hid] at hbytes ⊢
      exact hkept file' hfile' bytes hbytes
    · cases hworking.symm.trans hr
      exact ⟨hrows.onDisk fun file hfile _ => hkept file hfile, hlater⟩
  | commit =>
    obtain ⟨rows, hworking, rfl⟩ := Option.map_eq_some_iff.mp happly
    exact ⟨⟨(hs.working rows hworking).1, nofun⟩, (hs.working rows hworking).2⟩
  | rollback =>
    obtain ⟨rows, -, rfl⟩ := Option.map_eq_some_iff.mp happly
    exact ⟨⟨hs.saved, nofun⟩, .refl _⟩

theorem run_inv {events : List (Event Bytes)} (h : Steps (Happens fingerprint) s events t) (hs : Inv fingerprint s) :
    Inv fingerprint t ∧ Later s.saved t.saved := by
  refine h.invariant (P := fun u => Inv fingerprint u ∧ Later s.saved u.saved)
    (fun u event v hu hstep => ?_) ⟨hs, .refl _⟩
  obtain ⟨hv, hlater⟩ := apply_inv hu.1 hstep
  exact ⟨hv, hu.2.trans hlater⟩

/-- Whatever is committed, rolled back or cut off by a crash: what a committed reference names is there, with the bytes
that were registered, and what is retired is never referred to again. It takes what `purge_retired_file` asks of its
caller, that the retirement has been committed (`committed`): a rollback does not bring bytes back. -/
theorem references_kept {events later : List (Event Bytes)} (h : Steps (Happens fingerprint)
    (start disk) events s) (hlater : Steps (Happens fingerprint) s later t) :
    (∀ a ∈ s.saved.aliases, ∃ file ∈ s.saved.files, file.id = a.fileId ∧ file.deleted = false ∧
        ∃ bytes, s.disk file.id = some bytes ∧ fingerprint bytes = file.manifest) ∧
      ∀ file ∈ s.saved.files, (∃ file' ∈ t.saved.files, file'.id = file.id ∧ file'.manifest = file.manifest) ∧
        (file.deleted = true → ∀ a ∈ t.saved.aliases, a.fileId ≠ file.id) := by
  obtain ⟨hs, -⟩ := run_inv h (start_inv disk)
  obtain ⟨ht, hmore⟩ := run_inv hlater hs
  refine ⟨fun a ha => ?_, fun file hfile => ?_⟩
  · obtain ⟨file, hfile, hid, hlive⟩ := hs.saved.refers a ha
    exact ⟨file, hfile, hid, hlive, hs.saved.bytes file hfile hlive⟩
  · obtain ⟨file', hfile', hid, hmanifest, hdeleted⟩ := hmore file hfile
    refine ⟨⟨file', hfile', hid, hmanifest⟩, fun hretired a ha hsame => ?_⟩
    obtain ⟨other, hother, hid', hlive⟩ := ht.saved.refers a ha
    rw [ht.saved.eq hother hfile' (hid'.trans (hsame.trans hid.symm)), hdeleted hretired] at hlive
    cases hlive

/-! ### The purges of a pass -/

/-- The bytes at the paths of files are theirs. -/
def Own (fingerprint : Bytes → Print) (disk : Disk Bytes) (rows : Rows Print) : Prop :=
  ∀ file ∈ rows.files, ∀ bytes, disk file.id = some bytes → fingerprint bytes = file.manifest

/-- The file has been purged. -/
def Cleared (disk : Disk Bytes) (rows : Rows Print) (id : Id) : Prop :=
    disk id = none ∧ ∀ file ∈ rows.files, file.id = id → file.purged = true

omit [DecidableEq Print] in
theorem Purge.own {id : Id} (h : Purge fingerprint disk rows id disk' rows')
    (hown : Own fingerprint disk rows) : Own fingerprint disk' rows' := by
  cases h with
  | none => exact hown
  | @marks file _ hfind _ hdisk =>
    intro after hafter bytes hbytes
    obtain ⟨before, hbefore, hid, hmanifest, -⟩ := marked hafter
    rw [hid, hdisk] at hbytes
    by_cases hsame : before.id = id
    · rw [hsame, Function.update_self] at hbytes
      cases hbytes
    · rw [Function.update_of_ne hsame] at hbytes
      rw [hmanifest]
      exact hown before hbefore bytes hbytes

omit [DecidableEq Print] in
/-- Bytes that are gone stay gone. -/
theorem Purge.cleared {id other : Id} (h : Purge fingerprint disk rows id disk' rows')
    (hcleared : Cleared disk rows other) : Cleared disk' rows' other := by
  cases h with
  | none => exact hcleared
  | marks _ _ hdisk =>
    refine ⟨?_, fun after hafter hid => ?_⟩
    · rw [hdisk, Function.update_apply]
      split
      · rfl
      · exact hcleared.1
    · obtain ⟨before, hbefore, hid', -, -, hpurged⟩ := marked hafter
      rw [hpurged, hcleared.2 before hbefore (hid'.symm.trans hid)]
      exact ite_self true

omit [DecidableEq Print] in
/-- A file that waits for its purge is purged. -/
theorem Purge.clears (hs : Sound fingerprint disk rows) (hown : Own fingerprint disk rows) {id : Id}
    (hid : id ∈ rows.pending)
    (h : Purge fingerprint disk rows id disk' rows') : Cleared disk' rows' id := by
  obtain ⟨file, hfile, rfl⟩ := List.mem_map.mp hid
  obtain ⟨hfile, hstate⟩ := List.mem_filter.mp hfile
  rw [Bool.and_eq_true, Bool.not_eq_true'] at hstate
  cases h with
  | none hwhy =>
    obtain ⟨found, hfound⟩ := Option.isSome_iff_exists.mp (file?_isSome.mpr ⟨file, hfile, rfl⟩)
    obtain ⟨hmem, hsame⟩ := file?_eq_some hfound
    obtain rfl := hs.eq hmem hfile hsame
    obtain ⟨a, ha, hrefers⟩ | ⟨bytes, hbytes, hprint⟩ := hwhy found hfound hstate.1 hstate.2
    · obtain ⟨live, hlive, hid', hdeleted⟩ := hs.refers a ha
      rw [hs.eq hlive hmem (hid'.trans hrefers), hstate.1] at hdeleted
      cases hdeleted
    · exact absurd (hown found hmem bytes hbytes) hprint
  | marks _ _ hdisk =>
    refine ⟨by rw [hdisk, Function.update_self], fun after hafter hafterid => ?_⟩
    obtain ⟨before, -, hid', -, -, hpurged⟩ := marked hafter
    rw [hpurged, if_pos (hid'.symm.trans hafterid)]

/-- What a pass keeps: the rows agree with the disk, and each of the `waiting` files waits or has been
purged; no other file waits. -/
structure Pass (fingerprint : Bytes → Print) (waiting : List Id) (s : Disk Bytes × Rows Print) : Prop where
  sound : Sound fingerprint s.1 s.2
  own : Own fingerprint s.1 s.2
  waits : ∀ id ∈ waiting, id ∈ s.2.pending ∨ Cleared s.1 s.2 id
  only : ∀ id ∈ s.2.pending, id ∈ waiting

omit [DecidableEq Print] in
/-- A purge leaves nothing pending that was not. -/
theorem Purge.pending {id other : Id} (h : Purge fingerprint disk rows id disk' rows')
    (hother : other ∈ rows'.pending) : other ∈ rows.pending := by
  cases h with
  | none => exact hother
  | marks =>
    obtain ⟨after, hafter, rfl⟩ := List.mem_map.mp hother
    obtain ⟨hafter, hstate⟩ := List.mem_filter.mp hafter
    obtain ⟨before, hbefore, hid, -, hdeleted, hpurged⟩ := marked hafter
    rw [Bool.and_eq_true, Bool.not_eq_true'] at hstate
    refine List.mem_map.mpr ⟨before, List.mem_filter.mpr ⟨hbefore, ?_⟩, hid.symm⟩
    rw [hpurged] at hstate
    split at hstate
    · cases hstate.2
    · rw [← hdeleted, hstate.1, hstate.2]
      rfl

omit [DecidableEq Print] in
/-- A purge takes no other file from what is pending. -/
theorem Purge.waits {id other : Id} (h : Purge fingerprint disk rows id disk' rows')
    (hs : Sound fingerprint disk rows) (hown : Own fingerprint disk rows)
    (hother : other ∈ rows.pending) : other ∈ rows'.pending ∨ Cleared disk' rows' other := by
  by_cases hsame : other = id
  · subst hsame
    exact .inr (h.clears hs hown hother)
  · cases h with
    | none => exact .inl hother
    | marks =>
      obtain ⟨file, hfile, rfl⟩ := List.mem_map.mp hother
      obtain ⟨hfile, hstate⟩ := List.mem_filter.mp hfile
      refine .inl (List.mem_map.mpr
        ⟨file, List.mem_filter.mpr ⟨List.mem_map.mpr ⟨file, hfile, if_neg hsame⟩, hstate⟩, rfl⟩)

theorem Pass.purge {waiting : List Id} {s : Disk Bytes × Rows Print} (h : Pass fingerprint waiting s) (id : Id) :
    Pass fingerprint waiting (purgeRetiredFile fingerprint s.1 s.2 id).1 := by
  have hpurge := @purge_spec _ _ fingerprint _ s.1 s.2 id
  exact ⟨(hpurge.sound h.sound).1, hpurge.own h.own,
    fun other hother => (h.waits other hother).elim (hpurge.waits h.sound h.own) fun hcleared =>
    .inr (hpurge.cleared hcleared),
    fun other hother => h.only other (hpurge.pending hother)⟩

/-- What the purges of a page leave. -/
theorem Pass.page {waiting : List Id} {s : Disk Bytes × Rows Print} (h : Pass fingerprint waiting s)
    (identifiers : List Id) :
    Pass fingerprint waiting (purgePage fingerprint s identifiers) ∧
      ∀ id ∈ waiting, (id ∈ identifiers ∨ Cleared s.1 s.2 id) → Cleared
      (purgePage fingerprint s identifiers).1 (purgePage fingerprint s identifiers).2 id := by
  induction identifiers generalizing s with
  | nil => exact ⟨h, fun id _ hid => hid.resolve_left List.not_mem_nil⟩
  | cons first rest ih =>
    obtain ⟨hpass, hcleared⟩ := ih (h.purge first)
    have hpurge := @purge_spec _ _ fingerprint _ s.1 s.2 first
    refine ⟨hpass, fun id hwaiting hid => hcleared id hwaiting ?_⟩
    obtain hid | hid := hid
    · obtain rfl | hrest := List.mem_cons.mp hid
      · refine .inr ((h.waits id hwaiting).elim
          (fun hpending => hpurge.clears h.sound h.own hpending) fun hdone => hpurge.cleared hdone)
      · exact .inl hrest
    · exact .inr (hpurge.cleared hid)

/-- What leaves everything else as it was: the references, and the rows and bytes of files that do not wait. -/
structure Spares (waiting : List Id) (s t : Disk Bytes × Rows Print) : Prop where
  aliases : t.2.aliases = s.2.aliases
  files : ∀ file ∈ s.2.files, file.id ∉ waiting → file ∈ t.2.files
  bytes : ∀ id ∉ waiting, t.1 id = s.1 id

omit [DecidableEq Print] in
theorem Spares.refl (waiting : List Id) (s : Disk Bytes × Rows Print) : Spares waiting s s :=
    ⟨rfl, fun _ hfile _ => hfile, fun _ _ => rfl⟩

omit [DecidableEq Print] in
theorem Spares.trans {waiting : List Id} {s t u : Disk Bytes × Rows Print} (h : Spares waiting s t)
    (h' : Spares waiting t u) :
    Spares waiting s u where
  aliases := h'.aliases.trans h.aliases
  files file hfile hout := h'.files file (h.files file hfile hout) hout
  bytes id hout := (h'.bytes id hout).trans (h.bytes id hout)

omit [DecidableEq Print] in
/-- A purge spares what is not waiting to be purged. -/
theorem Purge.spares {waiting : List Id} {id : Id} (h : Purge fingerprint disk rows id disk' rows')
    (hid : id ∈ waiting) :
    Spares waiting (disk, rows) (disk', rows') := by
  cases h with
  | none => exact .refl waiting (disk, rows)
  | marks _ _ hdisk =>
    refine ⟨rfl, fun file hfile hout => List.mem_map.mpr
      ⟨file, hfile, if_neg fun hsame : file.id = id => hout (hsame ▸ hid)⟩, fun other hout => ?_⟩
    rw [hdisk]
    exact Function.update_of_ne (fun hsame : other = id => hout (hsame ▸ hid)) _ _

/-- A page of purges spares what is not waiting to be purged. -/
theorem purgePage_spares {waiting : List Id} {s : Disk Bytes × Rows Print} {identifiers : List Id}
    (h : identifiers ⊆ waiting) :
    Spares waiting s (purgePage fingerprint s identifiers) := by
  induction identifiers generalizing s with
  | nil => exact .refl waiting s
  | cons first rest ih =>
    obtain ⟨hfirst, hrest⟩ := List.cons_subset.mp h
    exact ((@purge_spec _ _ fingerprint _ s.1 s.2 first).spares hfirst).trans (ih hrest)

theorem purgePage_pending {s : Disk Bytes × Rows Print} (identifiers : List Id) {id : Id}
    (h : id ∈ (purgePage fingerprint s identifiers).2.pending) :
    id ∈ s.2.pending := by
  induction identifiers generalizing s with
  | nil => exact h
  | cons first rest ih => exact (@purge_spec _ _ fingerprint _ s.1 s.2 first).pending (ih h)

/-! ### The pages of a pass -/

omit [DecidableEq Print] in
/-- What is still before a pass. -/
theorem mem_before {cursor : Option Id} {id : Id} :
    id ∈ (rows.pending.filter fun id => cursor.all (· < id)) ↔ id ∈ rows.pending ∧ ∀ c,
    cursor = some c → c < id := by
  cases cursor <;> simp

theorem mem_take_of_le {ids : List Id} (hsorted : ids.Pairwise (· ≤ ·)) {n : Nat} {x y : Id}
    (hx : x ∈ ids) (hy : y ∈ ids.take n) (hle : x ≤ y) :
    x ∈ ids.take n := by
  rw [← List.take_append_drop n ids] at hx hsorted
  obtain htake | hdrop := List.mem_append.mp hx
  · exact htake
  · have hge : y ≤ x := (List.pairwise_append.mp hsorted).2.2 y hy x hdrop
    rwa [Nat.le_antisymm hle hge]

omit [DecidableEq Print] in
/-- A page has pending files behind the cursor. -/
theorem mem_page {cursor : Option Id} {id : Id} (h : id ∈ rows.page cursor) :
    id ∈ rows.pending ∧ ∀ c, cursor = some c → c < id :=
  mem_before.mp (List.mem_mergeSort.mp (List.mem_of_mem_take h))

omit [DecidableEq Print] in
/-- A page has all that waits up to its last one. -/
theorem page_full {cursor : Option Id} {id last : Id} (hid : id ∈ rows.pending)
    (hcursor : ∀ c, cursor = some c → c < id) (hlast : last ∈ rows.page cursor)
    (hle : id ≤ last) : id ∈ rows.page cursor := by
  have hsorted : ((rows.pending.filter fun id => cursor.all (· < id)).mergeSort).Pairwise (· ≤ ·) := by
    simpa using List.pairwise_mergeSort' (r := (· ≤ ·)) (rows.pending.filter fun id => cursor.all (· < id))
  exact mem_take_of_le hsorted (List.mem_mergeSort.mpr (mem_before.mpr ⟨hid, hcursor⟩)) hlast hle

omit [DecidableEq Print] in
/-- Where there is no page left, nothing is pending behind the cursor. -/
theorem page_eq_nil {cursor : Option Id} (h : rows.page cursor = []) {id : Id}
    (hid : id ∈ rows.pending) : ∃ c, cursor = some c ∧ id ≤ c := by
  by_contra hnot
  have hbefore : id ∈ (rows.pending.filter fun id => cursor.all (· < id)).mergeSort := by
    refine List.mem_mergeSort.mpr (mem_before.mpr ⟨hid, fun c hc => ?_⟩)
    exact Nat.lt_of_not_le fun hle => hnot ⟨c, hc, hle⟩
  obtain hempty | hempty := List.take_eq_nil_iff.mp h
  · cases hempty
  · rw [hempty] at hbefore
    cases hbefore

omit [DecidableEq Print] in
theorem Sound.pending_nodup (h : Sound fingerprint disk rows) : rows.pending.Nodup :=
    h.ids.sublist (List.filter_sublist.map _)

/-- A pass with enough turns purges all that waits. -/
theorem Pass.resume {waiting : List Id} (fuel : Nat) {cursor : Option Id}
    {s : Disk Bytes × Rows Print} (h : Pass fingerprint waiting s)
    (hbehind : ∀ id ∈ waiting, ∀ c, cursor = some c → id ≤ c → Cleared s.1 s.2 id)
    (hfuel : (s.2.pending.filter fun id => cursor.all (· < id)).length < fuel) :
    Pass fingerprint waiting (resumeFilePurges fingerprint fuel cursor s) ∧
      ∀ id ∈ waiting, Cleared (resumeFilePurges fingerprint fuel cursor s).1
      (resumeFilePurges fingerprint fuel cursor s).2 id := by
  induction fuel generalizing cursor s with
  | zero => exact absurd hfuel (Nat.not_lt_zero _)
  | succ fuel ih =>
    rw [resumeFilePurges]
    split
    case isTrue hempty =>
      refine ⟨h, fun id hid => (h.waits id hid).elim (fun hpending => ?_) fun hdone => hdone⟩
      obtain ⟨c, hc, hle⟩ := page_eq_nil hempty hpending
      exact hbehind id hid c hc hle
    case isFalse hpage =>
      obtain ⟨last, hlast⟩ := Option.ne_none_iff_exists'.mp (mt List.getLast?_eq_none_iff.mp hpage)
      have hmem : last ∈ s.2.page cursor := List.mem_of_getLast? hlast
      obtain ⟨hpass, hcleared⟩ := h.page (s.2.page cursor)
      rw [hlast]
      refine ih hpass (fun id hid c hc hle => ?_) ?_
      · cases hc
        refine hcleared id hid ((h.waits id hid).elim (fun hpending => ?_) .inr)
        by_cases hold : ∃ c, cursor = some c ∧ id ≤ c
        · obtain ⟨c, hc, hle⟩ := hold
          exact .inr (hbehind id hid c hc hle)
        · exact .inl (page_full hpending (fun c hc => Nat.lt_of_not_le fun hle => hold ⟨c, hc, hle⟩) hmem hle)
      · -- The last one of the page is behind the new cursor.
        refine Nat.lt_of_lt_of_le ?_ (Nat.le_of_lt_succ hfuel)
        have hnodup : (last :: (purgePage fingerprint s (s.2.page cursor)).2.pending.filter
            fun id => (some last).all (· < id)).Nodup :=
          List.nodup_cons.mpr ⟨fun hin => Nat.lt_irrefl last ((mem_before.mp hin).2 last rfl),
            hpass.sound.pending_nodup.filter _⟩
        refine (hnodup.subperm fun id hid => ?_).length_le
        obtain rfl | hid := List.mem_cons.mp hid
        · exact mem_before.mpr (mem_page hmem)
        · obtain ⟨hpending, hafter⟩ := mem_before.mp hid
          refine mem_before.mpr ⟨purgePage_pending _ hpending, fun c hc => ?_⟩
          exact Nat.lt_trans ((mem_page hmem).2 c hc) (hafter last rfl)

/-- A pass touches only what waits. -/
theorem resume_spares {waiting : List Id} (fuel : Nat) {cursor : Option Id} {s : Disk Bytes × Rows Print}
    (h : ∀ id ∈ s.2.pending, id ∈ waiting) : Spares waiting s (resumeFilePurges fingerprint fuel cursor s) := by
  induction fuel generalizing cursor s with
  | zero => exact .refl waiting s
  | succ fuel ih =>
    rw [resumeFilePurges]
    split
    · exact .refl waiting s
    · have hpage : s.2.page cursor ⊆ waiting := fun id hid => h id (mem_page hid).1
      exact (purgePage_spares hpage).trans (ih fun id hid => h id (purgePage_pending _ hid))

/-! ### The purges of a run -/

/-- A run in which paths are written with the bytes of their files only. -/
abbrev Uploads (fingerprint : Bytes → Print) : State Bytes Print → Event Bytes → State Bytes Print →
    Prop := Guarded (Happens fingerprint) (own fingerprint)

omit [DecidableEq Print] in
theorem insertFile_own {id : Id} {bytes : Bytes} (h : Own fingerprint disk rows) (hbytes : disk id =
    some bytes) : Own fingerprint disk (rows.insertFile id (fingerprint bytes)) := by
  unfold Rows.insertFile
  split
  · exact h
  · intro file hfile held hheld
    obtain hold | hrow := List.mem_append.mp hfile
    · exact h file hold held hheld
    · rw [List.mem_singleton.mp hrow] at hheld ⊢
      rw [Option.some.inj (hbytes.symm.trans hheld)]

/-- Files keep their own bytes through a registration. -/
theorem register_own (h : Own fingerprint disk rows) (id : Id) (uri : Option Uri) :
    Own fingerprint disk (registerFile fingerprint disk rows id uri).1 := by
  unfold registerFile
  split
  · exact h
  case h_2 bytes hbytes =>
    have hinserted := insertFile_own h hbytes
    dsimp only
    split
    · exact hinserted
    · split
      · exact hinserted
      · split
        · unfold Own
          rw [insertAlias_files]
          exact hinserted
        · exact hinserted

omit [DecidableEq Print] in
/-- Files keep their own bytes through a retirement. -/
theorem retire_own (h : Own fingerprint disk rows) (clause : Uri → Bool) :
    Own fingerprint disk (retire rows clause).1 := by
  intro after hafter bytes hbytes
  obtain ⟨file, hfile, heq⟩ := List.mem_map.mp hafter
  split at heq <;> subst heq <;> exact h file hfile bytes hbytes

omit [DecidableEq Print] in
/-- Erasing bytes keeps what is left in its place. -/
theorem Own.erase (h : Own fingerprint disk rows) (hless : ∀ id bytes, disk' id = some bytes →
    disk id = some bytes) : Own fingerprint disk' rows :=
  fun file hfile bytes hbytes => h file hfile bytes (hless _ _ hbytes)

/-- The committed rows and those of the transaction. -/
def Owned (fingerprint : Bytes → Print) (s : State Bytes Print) : Prop :=
    ∀ rows, rows = s.saved ∨ s.working = some rows → Own fingerprint s.disk rows

/-- Files keep their own bytes through every event. -/
theorem apply_owned {event : Event Bytes} (hs : Owned fingerprint s)
    (h : Uploads fingerprint s event t) : Owned fingerprint t := by
  obtain ⟨hown, -, happly⟩ := h
  -- A step that changes the rows of the transaction, and erases bytes at most.
  have hgoesOn : ∀ {rows rows' : Rows Print} {disk' : Disk Bytes}, s.working = some rows → Own fingerprint disk' rows' →
      (∀ id bytes, disk' id = some bytes → s.disk id = some bytes) →
      Owned fingerprint {s with disk := disk', working := some rows'} := by
    intro rows rows' disk' _ hrows hless r hr
    obtain rfl | hr := hr
    · exact (hs _ (.inl rfl)).erase hless
    · cases hr
      exact hrows
  cases event with
  | publish id bytes =>
    cases happly
    intro rows hrows file hfile held hheld
    by_cases hsame : file.id = id
    · dsimp only [publish] at hheld
      split at hheld
      · exact hs rows hrows file hfile held hheld
      · rw [hsame, Function.update_self] at hheld
        cases hheld
        exact hown rows hrows file hfile hsame
    · dsimp only [publish] at hheld
      split at hheld
      · exact hs rows hrows file hfile held hheld
      · rw [Function.update_of_ne hsame] at hheld
        exact hs rows hrows file hfile held hheld
  | begin' =>
    obtain ⟨-, rfl⟩ : s.working = none ∧ _ = t := by simpa [Executes, apply] using happly
    intro rows hrows
    obtain rfl | hrows := hrows
    · exact hs _ (.inl rfl)
    · cases hrows
      exact hs _ (.inl rfl)
  | register id uri =>
    obtain ⟨rows, hworking, rfl⟩ := Option.map_eq_some_iff.mp happly
    exact hgoesOn hworking (register_own (hs rows (.inr hworking)) id uri) fun _ _ hbytes => hbytes
  | retire clause =>
    obtain ⟨rows, hworking, rfl⟩ := Option.map_eq_some_iff.mp happly
    exact hgoesOn hworking (retire_own (hs rows (.inr hworking)) clause) fun _ _ hbytes => hbytes
  | purge id =>
    obtain ⟨rows, hworking, rfl⟩ := Option.map_eq_some_iff.mp happly
    have hpurge := @purge_spec _ _ fingerprint _ s.disk rows id
    refine hgoesOn hworking (hpurge.own (hs rows (.inr hworking))) fun other bytes hbytes => ?_
    exact hpurge.less hbytes
  | discard id =>
    obtain ⟨rows, hworking, rfl⟩ := Option.map_eq_some_iff.mp happly
    have hless : ∀ other bytes, discardUnregisteredFile s.disk rows id other = some bytes →
        s.disk other = some bytes := by
      intro other bytes hbytes
      unfold discardUnregisteredFile at hbytes
      split at hbytes
      · exact hbytes
      · rw [Function.update_apply] at hbytes
        split at hbytes
        · cases hbytes
        · exact hbytes
    exact fun r hr => (hs r hr).erase hless
  | commit =>
    obtain ⟨rows, hworking, rfl⟩ := Option.map_eq_some_iff.mp happly
    rintro r (rfl | hr)
    · exact hs _ (.inr hworking)
    · cases hr
  | rollback =>
    obtain ⟨rows, -, rfl⟩ := Option.map_eq_some_iff.mp happly
    rintro r (rfl | hr)
    · exact hs _ (.inl rfl)
    · cases hr

/-- However purges were cut off before: a pass over the retired files purges them all. The references are the same after
it, and every file that is not retired has its row and its bytes as before. -/
theorem purges_complete {events : List (Event Bytes)} (h : Steps (Uploads fingerprint)
    (start disk) events s) {fuel : Nat} (hfuel : s.saved.pending.length < fuel) :
    let after := resumeFilePurges fingerprint fuel none (s.disk, s.saved)
    (∀ id ∈ s.saved.pending, after.1 id = none) ∧ after.2.pending = [] ∧ Sound fingerprint after.1 after.2 ∧
      after.2.aliases = s.saved.aliases ∧
      (∀ file ∈ s.saved.files, file.deleted = false → file ∈ after.2.files ∧ after.1 file.id = s.disk file.id) ∧
      ∀ id ∉ s.saved.pending, after.1 id = s.disk id := by
  have hs : Inv fingerprint s := (run_inv h.unguard (start_inv disk)).1
  have hown : Owned fingerprint s := by
    refine h.invariant (P := Owned fingerprint) (fun _ _ _ => apply_owned) ?_
    rintro r (rfl | hr)
    · exact fun _ hfile => absurd hfile List.not_mem_nil
    · cases hr
  have hpass : Pass fingerprint s.saved.pending (s.disk, s.saved) :=
      ⟨hs.saved, hown _ (.inl rfl), fun _ => .inl, fun _ hid => hid⟩
  obtain ⟨hafter, hcleared⟩ := hpass.resume fuel (fun _ _ c (hc : none = some c) => by cases hc)
    (Nat.lt_of_le_of_lt (List.length_filter_le _ _) hfuel)
  have hspares : Spares s.saved.pending (s.disk, s.saved) (resumeFilePurges fingerprint fuel none (s.disk, s.saved)) :=
    resume_spares fuel fun _ hid => hid
  have hlive : ∀ file ∈ s.saved.files, file.deleted = false → file.id ∉ s.saved.pending :=
      fun file hfile hdeleted hid => by
    obtain ⟨other, hother, hsame⟩ := List.mem_map.mp hid
    obtain ⟨hother, hstate⟩ := List.mem_filter.mp hother
    rw [hs.saved.eq hother hfile hsame, hdeleted] at hstate
    cases hstate
  refine ⟨fun id hid => (hcleared id hid).1, List.eq_nil_iff_forall_not_mem.mpr fun id hid => ?_,
    hafter.sound, hspares.aliases,
    fun file hfile hdeleted => ⟨hspares.files file hfile (hlive file hfile hdeleted),
      hspares.bytes _ (hlive file hfile hdeleted)⟩, hspares.bytes⟩
  obtain ⟨file, hfile, rfl⟩ := List.mem_map.mp hid
  obtain ⟨hfile, hstate⟩ := List.mem_filter.mp hfile
  rw [(hcleared file.id (hafter.only _ hid)).2 file hfile rfl, Bool.not_true, Bool.and_false] at hstate
  cases hstate

end Runs

/-! A file that is registered and retired; its purge is cut off after the bytes are gone, and a pass completes it. -/

def uploads : List (Event Nat) := [.publish 4 65, .begin', .register 4 (some "chat/4"), .commit]
def uploaded : State Nat Nat := ⟨publish (fun _ => none) 4 65, ⟨[⟨4, 65, false, false⟩], [⟨"chat/4", 4⟩]⟩, none⟩
def crashes : List (Event Nat) := [.begin', .retire fun _ => true, .commit, .begin', .purge 4, .rollback]
def crashed : State Nat Nat := ⟨Function.update uploaded.disk 4 none, ⟨[⟨4, 65, true, false⟩], []⟩, none⟩

/-- Two uploads, with a retirement of the first. -/
theorem sample_uploaded : Steps (Uploads id) (start fun _ => none) uploads uploaded := by
  refine .cons ⟨fun rows hrows file hfile => ?_, trivial, rfl⟩ (.cons ⟨trivial, trivial, rfl⟩
    (.cons ⟨trivial, trivial, rfl⟩ (.cons ⟨trivial, trivial, rfl⟩ (.nil _))))
  obtain rfl | hrows := hrows
  · exact absurd hfile List.not_mem_nil
  · cases hrows

/-- Purges that are cut off. -/
theorem sample_crashed : Steps (Uploads id) uploaded crashes crashed := by
  refine .cons ⟨trivial, trivial, rfl⟩ (.cons ⟨trivial, trivial, rfl⟩ (.cons ⟨trivial, trivial, rfl⟩
    (.cons ⟨trivial, trivial, rfl⟩ (.cons ⟨trivial, fun file hfile _ => ?_, rfl⟩ (.cons ⟨trivial, trivial, rfl⟩ (.nil _))))))
  obtain rfl : file = ⟨4, 65, true, false⟩ := List.mem_singleton.mp hfile
  rfl

theorem sample_kept : ∃ file ∈ uploaded.saved.files, file.id = 4 ∧ file.deleted = false ∧ ∃ bytes,
    uploaded.disk file.id = some bytes ∧ id bytes = file.manifest :=
  (references_kept sample_uploaded.unguard sample_crashed.unguard).1 ⟨"chat/4", 4⟩ (List.mem_singleton_self _)

theorem sample_purged : (resumeFilePurges id 2 none (crashed.disk, crashed.saved)).1 4 = none :=
  (purges_complete (sample_uploaded.append sample_crashed) (by decide)).1 4 (by decide)

end Galaris.Core.StoredFiles
