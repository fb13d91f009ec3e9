import Galaris.Base.Results
import Galaris.Process.Outcome
import Galaris.Process.Values
import Mathlib.Data.List.AList
import Mathlib.Data.List.Dedup
import Mathlib.Data.List.Sort

/-! Run-owned data and its atomic integration (`run_data.py`).

`integrate` is `integrate_workflow_values` under the run lock: a command carries what
an activity changed since its baseline, the write is refused when another command
changed one of the same variables, and a receipt answers the command when it comes
again. Values are compared by Python's `==`, so they are of any type with an
equivalence `==`; their contract check and the digest of a receipt are the `Codec`. -/
namespace Galaris.Process

/-! ### Values and files -/

/-- Python's `dict` with text keys. The order of the entries is never observed. -/
abbrev Dict (V : Type) := AList (fun _ : String => V)

/-- A managed file as `StoredFile` describes it. -/
structure StoredFile where
  name : String
  mediaType : String
  sizeBytes : Nat
  sha256 : String
  deriving DecidableEq

/-- An entry of a file manifest, as an activity hands it over and as `run_files` reads it. -/
structure FileEntry where
  uri : String
  description : Option String := none
  filename : Option String := none
  originUri : Option String := none
  stored : Option StoredFile := none
  deriving DecidableEq

/-- `ProcessRunFile`, in the order of `position`. -/
structure ProcessRunFile where
  uri : String
  fileId : Option String := none
  name : Option String := none
  description : Option String := none
  originUri : Option String := none
  deriving DecidableEq

inductive FilesMode
  | append | replace
  deriving DecidableEq

/-- What the integration calls: the contract of the values, the digest of a command
and the file services. -/
structure Codec (V : Type) where
  validateValues : Dict V → Option String
  digest : Dict V → List FileEntry → List String → FilesMode → String
  parseResourceUri : String → Except String ResourceUri
  storedFile : String → Option StoredFile

inductive Rejection
  | conflict (message : String)
  | invalid (message : String)
  | fileNotFound (message : String)
  deriving DecidableEq

/-- `RunDataConflictError`. -/
def Rejection.isConflict : Rejection → Bool
  | .conflict _ => true
  | _ => false

/-- The columns of a run that the integration reads or writes. -/
structure RunData (V : Type) where
  status : Status := .running
  cancelRequested : Bool := false
  nativeStatus : Status := .running
  data : Dict V
  dataRevision : Nat := 0
  files : List ProcessRunFile := []
  integrations : Dict String := ∅
  integrationResults : Dict Nat := ∅

/-- The arguments of `integrate_workflow_values`. -/
structure Command (V : Type) where
  command : String
  baseline : Dict V
  changes : Dict V
  files : List FileEntry := []
  remove : List String := []
  filesMode : FilesMode := .append
  baselineFiles : List FileEntry := []

section Integration
variable {V : Type} [BEq V] (C : Codec V)

/-- `require_active`. -/
def requireActive (run : RunData V) : Except Rejection Unit :=
  if run.status.isTerminal || run.cancelRequested || run.nativeStatus.isTerminal then
    .error (.conflict "A stopped run cannot change its data")
  else .ok ()

/-- `run_files`: the stored file, where there is one, names the entry. -/
def runFiles (rows : List ProcessRunFile) : List FileEntry :=
  rows.map fun row =>
    let stored := row.fileId.bind C.storedFile
    { uri := row.uri
      description := row.description
      filename := (stored.map (·.name)) <|> row.name
      originUri := row.originUri
      stored := stored }

/-- The checks of `_replace_files` on one entry. -/
def resolveFile (entry : FileEntry) : Except Rejection ResourceUri :=
  match C.parseResourceUri entry.uri with
  | .error message => .error (.invalid message)
  | .ok uri =>
    if uri.isCollection then .error (.invalid "A run file requires an exact canonical URI")
    else match uri.fileId with
      | some identity =>
        if (C.storedFile identity).isNone then .error (.fileNotFound "Managed run file not found")
        else .ok uri
      | none => .ok uri

/-- The first entry of every canonical URI stands (`entries.setdefault`). -/
def firstEntries : List (ResourceUri × FileEntry) → List (ResourceUri × FileEntry)
  | [] => []
  | entry :: rest => entry :: (firstEntries rest).filter fun other => other.1.text != entry.1.text

/-- The row of an entry: a known row keeps its name and origin. -/
def fileRow (rows : List ProcessRunFile) (uri : ResourceUri) (entry : FileEntry) : ProcessRunFile :=
  match rows.find? fun row => row.uri == uri.text with
  | some row => {row with description := entry.description}
  | none => ⟨uri.text, uri.fileId, entry.filename, entry.description, entry.originUri⟩

/-- `_replace_files`. -/
def replaceFiles (rows : List ProcessRunFile) (files : List FileEntry) :
    Except Rejection (List ProcessRunFile) := do
  if files.length > 500 then throw (.invalid "A run accepts at most 500 file references")
  let uris ← files.mapM (resolveFile C)
  return (firstEntries (uris.zip files)).map fun entry => fileRow rows entry.1 entry.2

/-- The entries of `files` whose URI is not known yet, each once. -/
def unknownFiles (known : List String) : List FileEntry → List FileEntry
  | [] => []
  | entry :: rest =>
    if known.contains entry.uri then unknownFiles known rest
    else entry :: unknownFiles (entry.uri :: known) rest

/-- `sorted(set(remove or []))`. -/
def deletions (remove : List String) : List String := remove.dedup.insertionSort (· ≤ ·)

/-- A write of `name` is late when the variable moved since the baseline, and not to
the value written. -/
def lateChange (data baseline : Dict V) (name : String) (value : V) : Bool :=
  (decide (name ∈ data) != decide (name ∈ baseline) || data.lookup name != baseline.lookup name) &&
    (!decide (name ∈ data) || data.lookup name != some value)

def lateRemoval (data baseline : Dict V) (name : String) : Bool :=
  decide (name ∈ data) && (!decide (name ∈ baseline) || data.lookup name != baseline.lookup name)

def conflictMessage (name : String) : String := "Concurrent workflow writes conflict on variable " ++ name

/-- The first variable that a concurrent command wrote. -/
def conflictingVariable (data baseline changes : Dict V) (deleted : List String) : Option String :=
  ((changes.entries.find? fun e => lateChange data baseline e.1 e.2).map (·.1)) <|>
    deleted.find? (lateRemoval data baseline)

/-- `{**data, **changes}` without the deletions. -/
def updated (data changes : Dict V) (deleted : List String) : Dict V :=
  deleted.foldl (fun data name => data.erase name) (changes ∪ data)

/-- The manifest with the new entries of `files` after the entries of the run. -/
def appendedFiles (rows : List ProcessRunFile) (files : List FileEntry) : List FileEntry :=
  runFiles C rows ++ unknownFiles (rows.map (·.uri)) files

/-- The manifest that the command leaves, before it is checked. -/
def mergedFiles (rows : List ProcessRunFile) (c : Command V) : Except Rejection (List FileEntry) :=
  match c.filesMode with
  | .append => .ok (appendedFiles C rows c.files)
  | .replace =>
    if runFiles C rows != c.baselineFiles && runFiles C rows != c.files then
      .error (.conflict "Concurrent workflow changes conflict on the file manifest")
    else .ok (unknownFiles [] c.files)

/-- The run with the data and the manifest of the command, and its receipt. -/
def written (run : RunData V) (c : Command V) (data : Dict V) (rows : List ProcessRunFile) : RunData V :=
  {run with
    data := data
    files := rows
    dataRevision := run.dataRevision + 1
    integrations := run.integrations.insert c.command
      (C.digest c.changes c.files (deletions c.remove) c.filesMode)
    integrationResults := run.integrationResults.insert c.command (run.dataRevision + 1)}

/-- The write of an admitted command, once no variable conflicts. -/
def applyCommand (run : RunData V) (c : Command V) : Except Rejection (RunData V) := do
  let merged ← mergedFiles C run.files c
  let data := updated run.data c.changes (deletions c.remove)
  match C.validateValues data with
  | some message => throw (.invalid message)
  | none =>
    let rows ← replaceFiles C run.files merged
    return written C run c data rows

/-- `integrate_workflow_values`. -/
def integrate (run : RunData V) (c : Command V) : Except Rejection (RunData V) := do
  let deleted := deletions c.remove
  if deleted.any fun name => decide (name ∈ c.changes) then
    throw (.invalid "Invalid workflow integration")
  match run.integrations.lookup c.command with
  | some digest =>
    if digest != C.digest c.changes c.files deleted c.filesMode then
      throw (.conflict "This integration command already has a different result")
    return run
  | none =>
    requireActive run
    match conflictingVariable run.data c.baseline c.changes deleted with
    | some name => throw (.conflict (conflictMessage name))
    | none => applyCommand C run c

end Integration

/-! ### The effect of one command -/

section Effect
variable {V : Type}

theorem mem_deletions {remove : List String} {name : String} : name ∈ deletions remove ↔ name ∈ remove := by
  simp [deletions]

theorem lookup_merged (data changes : Dict V) (name : String) :
    (changes ∪ data).lookup name = (changes.lookup name <|> data.lookup name) := by
  by_cases hname : name ∈ changes
  · rw [AList.lookup_union_left hname]
    obtain ⟨value, hvalue⟩ := Option.isSome_iff_exists.mp (AList.lookup_isSome.mpr hname)
    simp [hvalue]
  · rw [AList.lookup_union_right hname, AList.lookup_eq_none.mpr hname]
    rfl

theorem lookup_updated (data changes : Dict V) (deleted : List String) (name : String) :
    (updated data changes deleted).lookup name =
      if name ∈ deleted then none else changes.lookup name <|> data.lookup name := by
  unfold updated
  rw [← lookup_merged]
  generalize changes ∪ data = merged
  induction deleted generalizing merged with
  | nil => simp
  | cons d rest ih =>
    rw [List.foldl_cons, ih]
    by_cases hd : name = d
    · subst hd; simp
    · simp [hd, AList.lookup_erase_ne hd]

/-- The command writes or removes the variable. -/
def Command.Touches (c : Command V) (name : String) : Prop := name ∈ c.changes ∨ name ∈ c.remove

/-- The variable as the command leaves it in `data`. -/
def Command.leaves (c : Command V) (data : Dict V) (name : String) : Option V :=
  if name ∈ c.remove then none else c.changes.lookup name <|> data.lookup name

theorem lookup_updated_command (c : Command V) (data : Dict V) (name : String) :
    (updated data c.changes (deletions c.remove)).lookup name = c.leaves data name := by
  simp only [lookup_updated, mem_deletions, Command.leaves]

/-- A variable the command touches ends the same whatever it was before. -/
theorem Command.leaves_of_touches {c : Command V} {name : String} (h : c.Touches name) (data data' : Dict V) :
    c.leaves data name = c.leaves data' name := by
  unfold leaves
  split
  · rfl
  · have hchange : name ∈ c.changes := by
      rcases h with h | h
      · exact h
      · contradiction
    obtain ⟨value, hvalue⟩ := Option.isSome_iff_exists.mp (AList.lookup_isSome.mpr hchange)
    simp [hvalue]

theorem Command.leaves_of_not_touches {c : Command V} {name : String} (h : ¬ c.Touches name) (data : Dict V) :
    c.leaves data name = data.lookup name := by
  simp only [Touches, not_or] at h
  simp [leaves, h.2, AList.lookup_eq_none.mpr h.1]

end Effect

section Files
variable {V : Type} {C : Codec V}

/-- A refused entry is not a conflict. -/
theorem resolveFile_error {entry : FileEntry} {e : Rejection} (h : resolveFile C entry = .error e) :
    e.isConflict = false := by
  unfold resolveFile at h
  split at h
  · cases h; rfl
  split at h
  · cases h; rfl
  split at h
  · split at h
    · cases h; rfl
    · cases h
  · cases h

theorem replaceFiles_error {rows : List ProcessRunFile} {files : List FileEntry} {e : Rejection}
    (h : replaceFiles C rows files = .error e) : e.isConflict = false := by
  unfold replaceFiles at h
  split at h
  · cases h; rfl
  · cases hfiles : files.mapM (resolveFile C) with
    | error e' =>
      simp only [hfiles] at h
      cases h
      obtain ⟨entry, -, hentry⟩ := Results.mapM_error hfiles
      exact resolveFile_error hentry
    | ok uris =>
      simp only [hfiles] at h
      cases h

/-- On its own the command passes the checks that are not about concurrency: its
removals are not also written, the data it leaves meets the contract, and the
manifest it leaves is accepted. -/
structure Fits (C : Codec V) (data : Dict V) (rows : List ProcessRunFile) (c : Command V) : Prop where
  disjoint : ∀ name ∈ c.remove, name ∉ c.changes
  valid : C.validateValues (updated data c.changes (deletions c.remove)) = none
  manifest : ∃ rows', replaceFiles C rows (appendedFiles C rows c.files) = .ok rows'

/-- Without a conflict an appending command writes exactly what fits, and its refusal
is never a conflict. -/
theorem applyCommand_append (run : RunData V) {c : Command V} (hmode : c.filesMode = .append)
    (hdisjoint : ∀ name ∈ c.remove, name ∉ c.changes) :
    (Fits C run.data run.files c ∧ ∃ rows,
        replaceFiles C run.files (appendedFiles C run.files c.files) = .ok rows ∧
        applyCommand C run c = .ok (written C run c (updated run.data c.changes (deletions c.remove)) rows)) ∨
      (¬ Fits C run.data run.files c ∧ ∃ e, applyCommand C run c = .error e ∧ e.isConflict = false) := by
  have happly : applyCommand C run c = (match C.validateValues (updated run.data c.changes (deletions c.remove)) with
      | some message => .error (.invalid message)
      | none => (replaceFiles C run.files (appendedFiles C run.files c.files)).map
          (written C run c (updated run.data c.changes (deletions c.remove)))) := by
    simp only [applyCommand, mergedFiles, hmode, bind, Except.bind]
    cases C.validateValues (updated run.data c.changes (deletions c.remove)) with
    | some message => rfl
    | none =>
      cases replaceFiles C run.files (appendedFiles C run.files c.files) <;> rfl
  cases hvalid : C.validateValues (updated run.data c.changes (deletions c.remove)) with
  | some message =>
    refine .inr ⟨fun h => ?_, .invalid message, by rw [happly, hvalid], rfl⟩
    exact absurd h.valid (by rw [hvalid]; simp)
  | none =>
    cases hrows : replaceFiles C run.files (appendedFiles C run.files c.files) with
    | ok rows =>
      exact .inl ⟨⟨hdisjoint, hvalid, rows, hrows⟩, rows, rfl, by rw [happly, hvalid, hrows]; rfl⟩
    | error e =>
      refine .inr ⟨fun h => ?_, e, by rw [happly, hvalid, hrows]; rfl, replaceFiles_error hrows⟩
      obtain ⟨rows', hok⟩ := h.manifest
      rw [hrows] at hok
      cases hok

end Files

/-! ### When a write is late -/

section Order
variable {V : Type} [BEq V] {C : Codec V}

instance equivBEq_option [EquivBEq V] : EquivBEq (Option V) where
  rfl {a} := by cases a <;> simp
  symm {a b} h := by cases a <;> cases b <;> simp_all [BEq.comm]
  trans {a b c} h k := by
    cases a <;> cases b <;> cases c <;> simp_all
    exact BEq.trans h k

theorem lateChange_eq (data baseline : Dict V) (name : String) (value : V) :
    lateChange data baseline name value =
      (!(data.lookup name == baseline.lookup name) && !(data.lookup name == some value)) := by
  simp only [lateChange, ← AList.lookup_isSome, bne]
  cases data.lookup name <;> cases baseline.lookup name <;> simp

theorem lateRemoval_eq (data baseline : Dict V) (name : String) :
    lateRemoval data baseline name =
      (!(data.lookup name == baseline.lookup name) && !(data.lookup name == none)) := by
  simp only [lateRemoval, ← AList.lookup_isSome, bne]
  cases data.lookup name <;> cases baseline.lookup name <;> simp

/-- The write or removal of a variable is late when the variable moved since the
baseline, and not to what the command leaves. -/
theorem conflictingVariable_eq_none_iff (data baseline : Dict V) (c : Command V)
    (hdisjoint : ∀ name ∈ c.remove, name ∉ c.changes) :
    conflictingVariable data baseline c.changes (deletions c.remove) = none ↔
      ∀ name, c.Touches name → (data.lookup name == baseline.lookup name) = true ∨
        (data.lookup name == c.leaves data name) = true := by
  have hwrites : (c.changes.entries.find? fun e => lateChange data baseline e.1 e.2) = none ↔
      ∀ name value, c.changes.lookup name = some value →
        (data.lookup name == baseline.lookup name) = true ∨ (data.lookup name == some value) = true := by
    rw [List.find?_eq_none]
    constructor
    · intro h name value hvalue
      have hentry : (⟨name, value⟩ : Sigma fun _ : String => V) ∈ c.changes.entries :=
        AList.mem_lookup_iff.mp hvalue
      have hlate := h _ hentry
      rw [lateChange_eq] at hlate
      simpa [Classical.or_iff_not_imp_left] using hlate
    · rintro h ⟨name, value⟩ hentry
      have hlate := h name value (AList.mem_lookup_iff.mpr hentry)
      rw [lateChange_eq]
      simpa [Classical.or_iff_not_imp_left] using hlate
  have hremovals : (deletions c.remove).find? (lateRemoval data baseline) = none ↔
      ∀ name ∈ c.remove, (data.lookup name == baseline.lookup name) = true ∨
        (data.lookup name == none) = true := by
    rw [List.find?_eq_none]
    simp only [mem_deletions, lateRemoval_eq]
    simp [Classical.or_iff_not_imp_left]
  have hboth : conflictingVariable data baseline c.changes (deletions c.remove) = none ↔
      (c.changes.entries.find? fun e => lateChange data baseline e.1 e.2) = none ∧
        (deletions c.remove).find? (lateRemoval data baseline) = none := by
    simp [conflictingVariable]
  rw [hboth, hwrites, hremovals]
  constructor
  · rintro ⟨hw, hr⟩ name (hchange | hremove)
    · obtain ⟨value, hvalue⟩ := Option.isSome_iff_exists.mp (AList.lookup_isSome.mpr hchange)
      have hkept : name ∉ c.remove := fun hremove => hdisjoint name hremove hchange
      simpa [Command.leaves, hkept, hvalue] using hw name value hvalue
    · simpa only [Command.leaves, if_pos hremove] using hr name hremove
  · refine fun h => ⟨fun name value hvalue => ?_, fun name hremove => ?_⟩
    · have hchange : name ∈ c.changes := AList.lookup_isSome.mp (by rw [hvalue]; rfl)
      have hkept : name ∉ c.remove := fun hremove => hdisjoint name hremove hchange
      simpa [Command.leaves, hkept, hvalue] using h name (.inl hchange)
    · simpa only [Command.leaves, if_pos hremove] using h name (.inr hremove)

/-! ### One command -/

/-- A command without a receipt, on an active run. -/
structure New (run : RunData V) (c : Command V) : Prop where
  active : requireActive run = .ok ()
  unknown : run.integrations.lookup c.command = none
  appends : c.filesMode = .append

theorem integrate_new {run : RunData V} {c : Command V} (hnew : New run c)
    (hdisjoint : ∀ name ∈ c.remove, name ∉ c.changes) :
    integrate C run c = match conflictingVariable run.data c.baseline c.changes (deletions c.remove) with
      | some name => .error (.conflict (conflictMessage name))
      | none => applyCommand C run c := by
  have hnone : ((deletions c.remove).any fun name => decide (name ∈ c.changes)) = false := by
    rw [List.any_eq_false]
    intro name hname
    simpa using hdisjoint name (mem_deletions.mp hname)
  simp only [integrate, hnone, hnew.unknown, hnew.active, Bool.false_eq_true, if_false]
  cases conflictingVariable run.data c.baseline c.changes (deletions c.remove) <;> rfl

theorem integrate_overlapping {run : RunData V} {c : Command V} {name : String}
    (hremove : name ∈ c.remove) (hchange : name ∈ c.changes) :
    integrate C run c = .error (.invalid "Invalid workflow integration") := by
  have hany : ((deletions c.remove).any fun name => decide (name ∈ c.changes)) = true :=
    List.any_eq_true.mpr ⟨name, mem_deletions.mpr hremove, by simpa using hchange⟩
  simp only [integrate, hany, if_true]
  rfl

/-! ### Two commands from one baseline -/

/-- The command moves the variable. -/
def Command.Changes (c : Command V) (data : Dict V) (name : String) : Prop :=
  c.Touches name ∧ (c.leaves data name == data.lookup name) = false

/-- The command writes the variable as it stands, or removes one that is absent. -/
def Command.Restates (c : Command V) (data : Dict V) (name : String) : Prop :=
  c.Touches name ∧ (c.leaves data name == data.lookup name) = true

/-- Both commands move one variable, apart. -/
def Contest (data : Dict V) (a b : Command V) : Prop :=
  ∃ name, a.Changes data name ∧ b.Changes data name ∧ (a.leaves data name == b.leaves data name) = false

/-- One variable moved by `a` is restated by `b`. -/
def Overwrites (data : Dict V) (a b : Command V) : Prop :=
  ∃ name, a.Changes data name ∧ b.Restates data name

/-- The data `c` leaves. -/
def Command.update (c : Command V) (data : Dict V) : Dict V := updated data c.changes (deletions c.remove)

/-- After `a`, `b` is late exactly on a contest or when it restates what `a` moved. -/
theorem conflictingVariable_after_iff [EquivBEq V] (data : Dict V) (a b : Command V)
    (hdisjoint : ∀ name ∈ b.remove, name ∉ b.changes) :
    conflictingVariable (a.update data) data b.changes (deletions b.remove) = none ↔
      ¬ Contest data a b ∧ ¬ Overwrites data a b := by
  rw [conflictingVariable_eq_none_iff _ _ _ hdisjoint]
  simp only [Command.update, lookup_updated_command]
  constructor
  · intro h
    refine ⟨?_, ?_⟩
    · rintro ⟨name, ha, hb, hapart⟩
      rcases h name hb.1 with hsame | hsame
      · rw [ha.2] at hsame; cases hsame
      · rw [Command.leaves_of_touches hb.1 _ data, hapart] at hsame; cases hsame
    · rintro ⟨name, ha, hb⟩
      rcases h name hb.1 with hsame | hsame
      · rw [ha.2] at hsame; cases hsame
      · rw [Command.leaves_of_touches hb.1 _ data] at hsame
        have hback := BEq.trans hsame hb.2
        rw [ha.2] at hback; cases hback
  · rintro ⟨hcontest, hoverwrites⟩ name hb
    rw [Command.leaves_of_touches hb _ data]
    cases ha : a.leaves data name == data.lookup name with
    | true => exact .inl rfl
    | false =>
      right
      have htouch : a.Touches name := by
        by_contra hnot
        rw [Command.leaves_of_not_touches hnot, BEq.rfl] at ha
        cases ha
      cases hsame : a.leaves data name == b.leaves data name with
      | true => rfl
      | false =>
        exfalso
        cases hbd : b.leaves data name == data.lookup name with
        | true => exact hoverwrites ⟨name, ⟨htouch, ha⟩, hb, hbd⟩
        | false => exact hcontest ⟨name, ⟨htouch, ha⟩, ⟨hb, hbd⟩, hsame⟩

theorem Contest.symm [EquivBEq V] {data : Dict V} {a b : Command V} (h : Contest data a b) :
    Contest data b a := by
  obtain ⟨name, ha, hb, hapart⟩ := h
  exact ⟨name, hb, ha, by rw [BEq.comm]; exact hapart⟩

def SameData (data data' : Dict V) : Prop := ∀ name, (data.lookup name == data'.lookup name) = true

/-- Two commands that do not conflict leave the same data in either order. -/
theorem sameData_of_no_conflict [EquivBEq V] {data : Dict V} {a b : Command V} (hcontest : ¬ Contest data a b)
    (hab : ¬ Overwrites data a b) (hba : ¬ Overwrites data b a) :
    SameData (b.update (a.update data)) (a.update (b.update data)) := by
  have hagree : ∀ name, a.Touches name → b.Touches name →
      (b.leaves data name == a.leaves data name) = true := by
    intro name ha hb
    cases had : a.leaves data name == data.lookup name <;> cases hbd : b.leaves data name == data.lookup name
    · by_contra hapart
      rw [BEq.comm] at hapart
      exact hcontest ⟨name, ⟨ha, had⟩, ⟨hb, hbd⟩, by simpa using hapart⟩
    · exact absurd ⟨name, ⟨ha, had⟩, hb, hbd⟩ hab
    · exact absurd ⟨name, ⟨hb, hbd⟩, ha, had⟩ hba
    · exact BEq.trans hbd (BEq.symm had)
  intro name
  simp only [Command.update, lookup_updated_command]
  by_cases ha : a.Touches name <;> by_cases hb : b.Touches name
  · rw [Command.leaves_of_touches ha _ data, Command.leaves_of_touches hb _ data]
    exact hagree name ha hb
  · rw [Command.leaves_of_touches ha _ data, Command.leaves_of_not_touches hb, lookup_updated_command]
    exact BEq.rfl
  · rw [Command.leaves_of_touches hb _ data, Command.leaves_of_not_touches ha, lookup_updated_command]
    exact BEq.rfl
  · rw [Command.leaves_of_not_touches hb, Command.leaves_of_not_touches ha, lookup_updated_command,
      lookup_updated_command, Command.leaves_of_not_touches hb, Command.leaves_of_not_touches ha]
    exact BEq.rfl

/-- Either both orders integrate both commands and leave the same data, or in both
the first command is integrated and the second one is a conflict. -/
def OrderIndependent (C : Codec V) (run : RunData V) (a b : Command V) : Prop :=
  ∃ ra rb, integrate C run a = .ok ra ∧ integrate C run b = .ok rb ∧
    ((∃ rab rba, integrate C ra b = .ok rab ∧ integrate C rb a = .ok rba ∧ SameData rab.data rba.data) ∨
      ∃ e e', integrate C ra b = .error e ∧ integrate C rb a = .error e' ∧
        e.isConflict = true ∧ e'.isConflict = true)

/-- `c` still fits what `first` leaves. -/
def FitsAfter (C : Codec V) (run : RunData V) (first c : Command V) : Prop :=
  ∀ rows, replaceFiles C run.files (appendedFiles C run.files first.files) = .ok rows →
    Fits C (first.update run.data) rows c

/-- When the order of two commands from one baseline does not matter: both fit alone,
they move one variable apart or each restates a variable the other moves exactly when
the other does, and where nothing conflicts both still fit after the other. -/
structure Reorderable (C : Codec V) (run : RunData V) (a b : Command V) : Prop where
  left : Fits C run.data run.files a
  right : Fits C run.data run.files b
  balanced : Contest run.data a b ∨ (Overwrites run.data a b ↔ Overwrites run.data b a)
  together : ¬ Contest run.data a b → ¬ Overwrites run.data a b →
    FitsAfter C run a b ∧ FitsAfter C run b a

/-- From its own baseline a command is never late. -/
theorem integrate_from_baseline [EquivBEq V] {run : RunData V} {c : Command V} (hnew : New run c)
    (hbase : c.baseline = run.data) (hdisjoint : ∀ name ∈ c.remove, name ∉ c.changes) :
    integrate C run c = applyCommand C run c := by
  have hnone : conflictingVariable run.data c.baseline c.changes (deletions c.remove) = none := by
    rw [conflictingVariable_eq_none_iff _ _ _ hdisjoint, hbase]
    exact fun name _ => .inl BEq.rfl
  rw [integrate_new hnew hdisjoint, hnone]

theorem integrate_from_baseline_isOk_iff [EquivBEq V] {run : RunData V} {c : Command V} (hnew : New run c)
    (hbase : c.baseline = run.data) :
    (∃ run', integrate C run c = .ok run') ↔ Fits C run.data run.files c := by
  constructor
  · rintro ⟨run', h⟩
    have hdisjoint : ∀ name ∈ c.remove, name ∉ c.changes := by
      intro name hremove hchange
      rw [integrate_overlapping hremove hchange] at h
      cases h
    rw [integrate_from_baseline hnew hbase hdisjoint] at h
    rcases applyCommand_append (C := C) run hnew.appends hdisjoint with ⟨hfits, -⟩ | ⟨-, e, herror, -⟩
    · exact hfits
    · rw [herror] at h; cases h
  · intro hfits
    rw [integrate_from_baseline hnew hbase hfits.disjoint]
    rcases applyCommand_append (C := C) run hnew.appends hfits.disjoint with ⟨-, rows, -, hok⟩ | ⟨hnot, -⟩
    · exact ⟨_, hok⟩
    · exact absurd hfits hnot

/-- What becomes of `b` once `a` was integrated from the same baseline. -/
inductive Second (C : Codec V) (run : RunData V) (a b : Command V) : Except Rejection (RunData V) → Prop
  | late {e : Rejection} (h : Contest run.data a b ∨ Overwrites run.data a b) (he : e.isConflict = true) :
      Second C run a b (.error e)
  | refused {e : Rejection} (hc : ¬ Contest run.data a b) (ho : ¬ Overwrites run.data a b)
      (hfits : ¬ FitsAfter C run a b) (he : e.isConflict = false) : Second C run a b (.error e)
  | written {run' : RunData V} (hc : ¬ Contest run.data a b) (ho : ¬ Overwrites run.data a b)
      (hfits : FitsAfter C run a b) (hdata : run'.data = b.update (a.update run.data)) :
      Second C run a b (.ok run')

theorem integrate_second [EquivBEq V] {run : RunData V} {a b : Command V} (hnewa : New run a)
    (hnewb : New run b) (hbasea : a.baseline = run.data) (hbaseb : b.baseline = run.data)
    (hne : a.command ≠ b.command) (hfits : Fits C run.data run.files a)
    (hdisjoint : ∀ name ∈ b.remove, name ∉ b.changes) :
    ∃ ra, integrate C run a = .ok ra ∧ Second C run a b (integrate C ra b) := by
  rcases applyCommand_append (C := C) run hnewa.appends hfits.disjoint with ⟨-, rows, hrows, hok⟩ | ⟨hnot, -⟩
  swap
  · exact absurd hfits hnot
  refine ⟨_, (integrate_from_baseline hnewa hbasea hfits.disjoint).trans hok, ?_⟩
  change Second C run a b (integrate C (written C run a (a.update run.data) rows) b)
  have hnew : New (written C run a (a.update run.data) rows) b := by
    refine ⟨hnewb.active, ?_, hnewb.appends⟩
    exact (AList.lookup_insert_ne (Ne.symm hne)).trans hnewb.unknown
  have hafter : FitsAfter C run a b ↔ Fits C (a.update run.data) rows b := by
    refine ⟨fun h => h rows hrows, fun h rows' hrows' => ?_⟩
    rw [hrows] at hrows'
    cases hrows'
    exact h
  have hlate := conflictingVariable_after_iff run.data a b hdisjoint
  rw [integrate_new hnew hdisjoint, hbaseb]
  change Second C run a b (match conflictingVariable (a.update run.data) run.data b.changes
    (deletions b.remove) with | some name => _ | none => _)
  cases hconflict : conflictingVariable (a.update run.data) run.data b.changes (deletions b.remove) with
  | some name =>
    refine .late ?_ rfl
    by_contra hnot
    rw [not_or] at hnot
    rw [hlate.mpr hnot] at hconflict
    cases hconflict
  | none =>
    obtain ⟨hcontest, hoverwrites⟩ := hlate.mp hconflict
    rcases applyCommand_append (C := C) (written C run a (a.update run.data) rows) hnew.appends hdisjoint
      with ⟨hfitsb, rows', -, hok'⟩ | ⟨hnot, e, herror, he⟩
    · rw [hok']
      exact .written hcontest hoverwrites (hafter.mpr hfitsb) rfl
    · rw [herror]
      exact .refused hcontest hoverwrites (fun h => hnot (hafter.mp h)) he

/-- **Order independence.** Two commands that captured the same baseline commute, or
conflict in both orders, exactly when they are `Reorderable`. -/
theorem orderIndependent_iff [EquivBEq V] (C : Codec V) (run : RunData V) (a b : Command V)
    (hnewa : New run a) (hnewb : New run b) (hbasea : a.baseline = run.data)
    (hbaseb : b.baseline = run.data) (hne : a.command ≠ b.command) :
    OrderIndependent C run a b ↔ Reorderable C run a b := by
  constructor
  · rintro ⟨ra, rb, ha, hb, hsecond⟩
    have hfitsa := (integrate_from_baseline_isOk_iff hnewa hbasea).mp ⟨ra, ha⟩
    have hfitsb := (integrate_from_baseline_isOk_iff hnewb hbaseb).mp ⟨rb, hb⟩
    obtain ⟨ra', ha', hab⟩ := integrate_second hnewa hnewb hbasea hbaseb hne hfitsa hfitsb.disjoint
    obtain ⟨rb', hb', hba⟩ := integrate_second hnewb hnewa hbaseb hbasea hne.symm hfitsb hfitsa.disjoint
    obtain rfl : ra' = ra := by rw [ha'] at ha; cases ha; rfl
    obtain rfl : rb' = rb := by rw [hb'] at hb; cases hb; rfl
    rcases hsecond with ⟨rab, rba, hok, hok', -⟩ | ⟨e, e', herr, herr', hconf, hconf'⟩
    · rw [hok] at hab
      rw [hok'] at hba
      cases hab with
      | written hc ho hf _ =>
        cases hba with
        | written _ ho' hf' _ =>
          exact ⟨hfitsa, hfitsb, .inr ⟨fun h => absurd h ho, fun h => absurd h ho'⟩, fun _ _ => ⟨hf, hf'⟩⟩
    · rw [herr] at hab
      rw [herr'] at hba
      cases hab with
      | refused _ _ _ he => rw [hconf] at he; cases he
      | late h _ =>
        cases hba with
        | refused _ _ _ he => rw [hconf'] at he; cases he
        | late h' _ =>
          refine ⟨hfitsa, hfitsb, ?_, fun hc ho => absurd h (by simp [hc, ho])⟩
          rcases h with hc | ho
          · exact .inl hc
          rcases h' with hc | ho'
          · exact .inl hc.symm
          · exact .inr ⟨fun _ => ho', fun _ => ho⟩
  · rintro ⟨hfitsa, hfitsb, hbalanced, htogether⟩
    obtain ⟨ra, ha, hab⟩ := integrate_second hnewa hnewb hbasea hbaseb hne hfitsa hfitsb.disjoint
    obtain ⟨rb, hb, hba⟩ := integrate_second hnewb hnewa hbaseb hbasea hne.symm hfitsb hfitsa.disjoint
    refine ⟨ra, rb, ha, hb, ?_⟩
    generalize integrate C ra b = second at hab ⊢
    generalize integrate C rb a = second' at hba ⊢
    by_cases hconflict : Contest run.data a b ∨ Overwrites run.data a b
    · have hconflict' : Contest run.data b a ∨ Overwrites run.data b a := by
        rcases hconflict with hc | ho
        · exact .inl hc.symm
        · exact hbalanced.imp Contest.symm fun h => h.mp ho
      right
      cases hab with
      | late _ he =>
        cases hba with
        | late _ he' => exact ⟨_, _, rfl, rfl, he, he'⟩
        | refused hc ho => exact absurd hconflict' (by simp [hc, ho])
        | written hc ho => exact absurd hconflict' (by simp [hc, ho])
      | refused hc ho => exact absurd hconflict (by simp [hc, ho])
      | written hc ho => exact absurd hconflict (by simp [hc, ho])
    · rw [not_or] at hconflict
      obtain ⟨hcontest, hoverwrites⟩ := hconflict
      have hoverwrites' : ¬ Overwrites run.data b a :=
        (hbalanced.resolve_left hcontest).not.mp hoverwrites
      obtain ⟨hafter, hafter'⟩ := htogether hcontest hoverwrites
      left
      cases hab with
      | late h => exact absurd h (by simp [hcontest, hoverwrites])
      | refused _ _ hnot => exact absurd hafter hnot
      | written _ _ _ hdata =>
        cases hba with
        | late h => exact absurd h (not_or.mpr ⟨fun hc => hcontest hc.symm, hoverwrites'⟩)
        | refused _ _ hnot => exact absurd hafter' hnot
        | written _ _ _ hdata' =>
          refine ⟨_, _, rfl, rfl, ?_⟩
          rw [hdata, hdata']
          exact sameData_of_no_conflict hcontest hoverwrites hoverwrites'

end Order

/-! ### The typed values of a run -/

/-- The integration of typed values: the contract is the one of `values.py`. -/
def valueCodec (B : Boundary) (digest : Dict Value → List FileEntry → List String → FilesMode → String)
    (storedFile : String → Option StoredFile) : Codec Value where
  validateValues data :=
    match Process.validateValues B "process.data" (data.entries.map fun e => (e.1, e.2.json)) with
    | .error message => some message
    | .ok () => none
  digest := digest
  parseResourceUri := B.parseResourceUri
  storedFile := storedFile

/-- Every URI is canonical, and no text is long. -/
def plainBoundary : Boundary where
  parseResourceUri uri := .ok {text := uri}
  jsonSize _ := 64

def plainCodec : Codec Value :=
  valueCodec plainBoundary (fun changes _ _ _ => toString changes.entries.length) fun _ => none

/-- The envelope of an integer. -/
def intValue (n : Int) : Value :=
  ⟨.obj [("type", .str "int"), ("value", .int n)], by simp [Json.WellFormed, Json.WellFormedEntries, Json.keys]⟩

/-- A run whose `x` is 1. -/
def baselineRun : RunData Value := {data := AList.singleton "x" (intValue 1)}

def writing (command name : String) (n : Int) : Command Value :=
  {command := command, baseline := baselineRun.data, changes := AList.singleton name (intValue n)}

theorem orderIndependent_iff_apart :
    OrderIndependent plainCodec baselineRun (writing "activity:1" "x" 2) (writing "activity:2" "y" 3) ↔
      Reorderable plainCodec baselineRun (writing "activity:1" "x" 2) (writing "activity:2" "y" 3) :=
  orderIndependent_iff plainCodec baselineRun _ _ ⟨rfl, rfl, rfl⟩ ⟨rfl, rfl, rfl⟩ rfl rfl (by decide)

/-- An activity that writes `x` back unchanged is integrated before one that sets it,
and is a conflict after it. -/
theorem restated_write_depends_on_order :
    let restating := writing "activity:1" "x" 1
    let setting := writing "activity:2" "x" 2
    New baselineRun restating ∧ New baselineRun setting ∧ restating.baseline = baselineRun.data ∧
      setting.baseline = baselineRun.data ∧ restating.command ≠ setting.command ∧
      ¬ OrderIndependent plainCodec baselineRun restating setting := by
  refine ⟨⟨rfl, rfl, rfl⟩, ⟨rfl, rfl, rfl⟩, rfl, rfl, by decide, ?_⟩
  rintro ⟨ra, rb, ha, hb, hsecond⟩
  cases ha
  cases hb
  rcases hsecond with ⟨rab, rba, -, hok, -⟩ | ⟨e, e', herror, -⟩
  · cases hok
  · cases herror

end Galaris.Process
