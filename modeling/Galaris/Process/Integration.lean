import Galaris.Process.RunData

/-! The integration of a typed activity (`NativeProcessEngine._effect` and `_advance`, `native_engine.py`).

Before an activity runs, its `preprocess` script says what it is given; afterwards its `postprocess` script
says what becomes of the data and of the file manifest. `integrate_workflow_values` compares the manifest with
the files the activity was given, which are the manifest of the run only where no script has chosen them. -/
namespace Galaris.Process

/-! ### Scripts -/

/-- An item of a list that a script hands over: a value that is no object, or what `_file_references` reads of one. -/
inductive RawReference
  | other
  /-- `uri` is absent where it is not a text; `description` is its `str`, `""` where there is none. -/
  | object (uri : Option String) (extra : Bool) (description : String)
  deriving DecidableEq

/-- What a script hands over as its files. -/
inductive RawFiles
  | other
  | list (items : List RawReference)
  deriving DecidableEq

/-- The isolated execution of a script, by its source: `preprocess` on the data and the files, `postprocess`
on the data, the files, and the output of the activity with its files. -/
structure Scripts (V : Type) where
  preprocess : String → Dict V → List FileEntry → Except Rejection RawFiles
  postprocess : String → Dict V → List FileEntry → Dict V → List FileEntry → Except Rejection (Dict V × RawFiles)

/-- The scripts of `node.config`. -/
structure ActivityScripts where
  preprocess : Option String
  postprocess : Option String
  deriving DecidableEq

section Activity
variable {V : Type} [BEq V] (C : Codec V) (S : Scripts V)

/-- One item of `_file_references`. -/
def fileReference : RawReference → Except Rejection FileEntry
  | .other => .error (.invalid "Every activity file requires a canonical URI")
  | .object none _ _ => .error (.invalid "File references contain uri and an optional description")
  | .object (some uri) extra description =>
    if extra then .error (.invalid "File references contain uri and an optional description")
    else match C.parseResourceUri uri with
      | .error message => .error (.invalid message)
      | .ok parsed =>
        if parsed.isCollection || parsed.text != uri
          then .error (.invalid "A file reference requires an exact canonical URI")
        else .ok {uri, description := some description}

/-- `_file_references`. -/
def fileReferences : RawFiles → Except Rejection (List FileEntry)
  | .other => .error (.invalid "Activity files must be a list of canonical URI references")
  | .list items => items.mapM (fileReference C)

/-- What `_effect` keeps of the preparation of an activity. -/
structure Prepared (V : Type) where
  integrationBaseline : Dict V
  inputFiles : List FileEntry

/-- The preparation of an activity in `_effect`, from the data and the files of the run. -/
def prepare (scripts : ActivityScripts) (data : Dict V) (files : List FileEntry) : Except Rejection (Prepared V) :=
  match scripts.preprocess with
  | none => .ok ⟨data, files⟩
  | some source =>
    if isBlank source then .ok ⟨data, []⟩
    else do
      let raw ← S.preprocess source data files
      let inputFiles ← fileReferences C raw
      return ⟨data, inputFiles⟩

/-- `{key: value for key, value in new_data.items() if key not in baseline or baseline[key] != value}`. -/
def changesSince (baseline newData : Dict V) : Dict V :=
  ⟨newData.entries.filter fun e => !decide (e.1 ∈ baseline) || baseline.lookup e.1 != some e.2,
    newData.nodupKeys.sublist List.filter_sublist⟩

/-- The arguments `_advance` gives to `integrate_workflow_values`, from the output of the activity. -/
def integration (occurrence : String) (scripts : ActivityScripts) (prepared : Prepared V)
    (result : Dict V) (outputFiles : List FileEntry) :
    Except Rejection (Command V) :=
  let command := "activity:" ++ occurrence
  let baseline := prepared.integrationBaseline
  match scripts.postprocess with
  | none => .ok {command, baseline, changes := result, files := outputFiles, baselineFiles := prepared.inputFiles}
  | some source =>
    if isBlank source then .ok {command, baseline, changes := ∅, baselineFiles := prepared.inputFiles}
    else do
      let (newData, raw) ← S.postprocess source baseline prepared.inputFiles result outputFiles
      if let some message := C.validateValues newData then throw (.invalid message)
      let files ← fileReferences C raw
      let changes := changesSince baseline newData
      let remove := baseline.keys.filter fun name => decide (name ∉ newData)
      return {command, baseline, changes, files, remove, filesMode := .replace, baselineFiles := prepared.inputFiles}

/-! ### What an integration is late for -/

variable {C S}

theorem mem_changesSince {baseline newData : Dict V} {name : String}
    (h : name ∈ changesSince baseline newData) : name ∈ newData := by
  obtain ⟨e, he, rfl⟩ := List.mem_map.mp (AList.mem_keys.mp h)
  exact AList.mem_keys.mpr (List.mem_map_of_mem (List.mem_of_mem_filter he))

/-- What `_advance` gives to the integration: the baseline, and the files the activity was given. -/
structure Integrates (scripts : ActivityScripts) (prepared : Prepared V) (c : Command V) : Prop where
  baseline : c.baseline = prepared.integrationBaseline
  baselineFiles : c.baselineFiles = prepared.inputFiles
  disjoint : ∀ name ∈ c.remove, name ∉ c.changes
  filesMode : c.filesMode = .replace ↔ scripts.postprocess.any (!isBlank ·) = true

theorem integration_spec {occurrence : String} {scripts : ActivityScripts} {prepared : Prepared V}
    {result : Dict V} {outputFiles : List FileEntry}
    {c : Command V} (h : integration C S occurrence scripts prepared result outputFiles = .ok c) :
    Integrates scripts prepared c := by
  rw [integration] at h
  split at h
  case h_1 hnone =>
    cases h
    refine ⟨rfl, rfl, fun _ hname => absurd hname List.not_mem_nil, ?_⟩
    rw [hnone]
    exact ⟨nofun, nofun⟩
  case h_2 source hsource =>
    cases hblank : isBlank source with
    | true =>
      rw [hblank, if_pos rfl] at h
      cases h
      refine ⟨rfl, rfl, fun _ hname => absurd hname List.not_mem_nil, ?_⟩
      rw [hsource, Option.any_some, hblank]
      exact ⟨nofun, nofun⟩
    | false =>
      rw [hblank, if_neg Bool.false_ne_true] at h
      obtain ⟨⟨newData, raw⟩, -, h⟩ := Results.bind_eq_ok.mp h
      dsimp only at h
      split at h
      case h_1 => exact nomatch h
      case h_2 =>
        obtain ⟨files, -, h⟩ := Results.bind_eq_ok.mp h
        cases h
        refine ⟨rfl, rfl, fun name hremove hchange => ?_, ?_⟩
        · exact of_decide_eq_true (List.mem_filter.mp hremove).2 (mem_changesSince hchange)
        · rw [hsource, Option.any_some, hblank]
          exact ⟨fun _ => rfl, fun _ => rfl⟩

omit [BEq V] in
/-- The write of an admitted command is late only for the file manifest it replaces. -/
theorem applyCommand_conflicts {run : RunData V} {c : Command V} :
    (∀ e, applyCommand C run c = .error e → e.isConflict = false) ↔
    (c.filesMode = .replace → runFiles C run.files = c.baselineFiles ∨ runFiles C run.files = c.files) := by
  have hmerged : ∀ {merged}, mergedFiles C run.files c = .ok merged → ∀ e,
      applyCommand C run c = .error e → e.isConflict = false := by
    intro merged hmerged e he
    have hbind := he
    simp only [applyCommand, hmerged, bind, Except.bind] at hbind
    split at hbind
    case h_1 => cases hbind; rfl
    case h_2 =>
      split at hbind
      case h_1 e' hreplace =>
        cases hbind
        exact replaceFiles_error hreplace
      case h_2 => cases hbind
  cases hmode : c.filesMode with
  | append =>
    have hok : mergedFiles C run.files c = .ok (appendedFiles C run.files c.files) := by rw [mergedFiles, hmode]
    exact ⟨fun _ hreplace => (by cases hreplace), fun _ => hmerged hok⟩
  | replace =>
    by_cases hsame : runFiles C run.files = c.baselineFiles ∨ runFiles C run.files = c.files
    · have hok : mergedFiles C run.files c = .ok (unknownFiles [] c.files) := by
        rw [mergedFiles, hmode]
        exact if_neg (by simpa [Classical.or_iff_not_imp_left] using hsame)
      exact ⟨fun _ _ => hsame, fun _ => hmerged hok⟩
    · have herror : applyCommand C run c =
          .error (.conflict "Concurrent workflow changes conflict on the file manifest") := by
        have hconflict : mergedFiles C run.files c =
            .error (.conflict "Concurrent workflow changes conflict on the file manifest") := by
          rw [mergedFiles, hmode]
          exact if_pos (by simpa using hsame)
        simp only [applyCommand, hconflict, bind, Except.bind]
      exact ⟨fun h => (by cases h _ herror), fun h => absurd (h rfl) hsame⟩

/-- Since the snapshot no other integration has changed the run; the receipt of the command is its own. -/
structure Alone (C : Codec V) (snapshot run : RunData V) (c : Command V) : Prop where
  unchanged : run.integrations.lookup c.command = none → run.data = snapshot.data ∧ run.files = snapshot.files
  receipt : ∀ digest, run.integrations.lookup c.command = some digest →
    digest = C.digest c.changes c.files (deletions c.remove) c.filesMode

end Activity

/-! ### Two scripts and a file -/

/-- A preprocess script that gives the activity no files, and a postprocess script that changes nothing. -/
def keepingScripts : Scripts Value where
  preprocess _ _ _ := .ok (.list [])
  postprocess _ data files _ _ := .ok (data,
    .list (files.map fun entry => .object (some entry.uri) false (entry.description.getD "")))

/-- A run with a file. -/
def filedRun : RunData Value where
  data := AList.singleton "x" (intValue 1)
  files := [{uri := "galaris://processes/runs/1/attachments/a"}]

def filedPrepared : Prepared Value := ⟨filedRun.data, runFiles plainCodec filedRun.files⟩

/-- The integration of an activity without scripts. -/
def plainCommand : Command Value where
  command := "activity:1"
  baseline := filedRun.data
  changes := AList.singleton "x" (intValue 2)
  baselineFiles := runFiles plainCodec filedRun.files

end Galaris.Process
