import EventLog.CommandLine.Run
import EventLog.Proofs.Workspace.Steps

set_option autoImplicit false

/-! # Before events are printed

A run loads its schema table (`CommandLine.TableFrom`), makes its output file
(`CommandLine.OutputMade`) and opens its log (`CommandLine.LogFrom`). These relations say what there
must be in the surroundings; where it is there, the run comes to its log and has printed nothing
(`CommandLine.exists_prepare_eq`).
-/

namespace EventLog.CommandLine

/-! ## What a run finds -/

/-- The schema table comes from the file at a path, or from standard input if the path leads there,
of which nothing is left then. It is the table of the events of forums if no path is given. -/
inductive TableFrom (files : FileTree) (input : List UInt8) :
    Option String → Schema.Table → List UInt8 → Prop
  | forum : TableFrom files input none Schema.Forum.table input
  | file {path : String} {bytes : List UInt8} {modified : Option Int64} {table : Schema.Table}
      (hfind : files.find path = .ok (.file bytes modified))
      (hparse : Schema.Table.parse bytes = .ok table) :
      TableFrom files input (some path) table input
  | stream {path : String} {table : Schema.Table}
      (hfind : files.find path = .ok (.stream .input))
      (hparse : Schema.Table.parse input = .ok table) :
      TableFrom files input (some path) table []

/-- The directory of a path is the current one or another that is there, or it is made together
with those above it. -/
inductive DirectoryMade (files : FileTree) (path : String) : FileTree → Prop
  | current (hparent : Path.parent? path = some "") : DirectoryMade files path files
  | there {parent : String} (hparent : Path.parent? path = some parent)
      (hthere : files.pathExists parent = true) : DirectoryMade files path files
  | made {parent : String} {made : FileTree} (hparent : Path.parent? path = some parent)
      (hne : parent ≠ "") (hmissing : files.pathExists parent = false)
      (hmade : files.makeDirectories parent = .ok made) : DirectoryMade files path made

/-- A file is made in its directory: no directory has its path, and no other file, unless that may
be overwritten. -/
structure FileMade (files : FileTree) (path : String) (overwrite : Bool) (made : FileTree) :
    Prop where
  isDirectory_eq : files.isDirectory path = false
  overwrites : overwrite = true ∨ files.pathExists path = false
  exists_create : ∃ above, DirectoryMade files path above ∧ above.create path = .ok made

def OutputMade (files : FileTree) (overwrite : Bool) (made : FileTree) : Option String → Prop
  | none => made = files
  | some path => FileMade files path overwrite made

/-- The log comes from standard input, which a hyphen names, or from the file at a path. -/
inductive LogFrom (files : FileTree) (input : List UInt8) : String → List UInt8 → Prop
  | stream : LogFrom files input "-" input
  | file {path : String} {opened : OpenedFile} (hne : path ≠ "-")
      (hopened : files.readLog path = .ok opened) : LogFrom files input path opened.bytes

/-! ## The steps -/

open Workspace

variable {a : Arguments} {w : World}

/-- Showing notices adds to the messages and changes nothing else. -/
theorem exists_tell_eq (a : Arguments) (notices : List Notice) (w : World) :
    ∃ messages, tell (m := StateM World) a notices w = (.ok (), { w with messages }) := by
  rw [tell]
  cases shownSeverity? a with
  | none => exact ⟨w.messages, rfl⟩
  | some severity =>
      show ∃ messages, ((Notice.atLeast severity notices).forM fun n => ExceptT.lift (notice n) :
        ExceptT Failure (StateM World) Unit) w = _
      induction Notice.atLeast severity notices generalizing w with
      | nil => exact ⟨w.messages, rfl⟩
      | cons n ns ih =>
          obtain ⟨messages, h⟩ := ih { w with messages := w.messages.push (.notice n) }
          exact ⟨messages, h⟩

/-- Reports add to the messages and change nothing else. -/
theorem exists_reports_eq (lines : List String) (w : World) :
    ∃ messages, lines.forM (Workspace.report (m := StateM World)) w = ((), { w with messages }) := by
  induction lines generalizing w with
  | nil => exact ⟨w.messages, rfl⟩
  | cons line lines ih =>
      obtain ⟨messages, h⟩ := ih (World.report line w).2
      exact ⟨messages, h⟩

theorem loadTable_eq {table : Schema.Table} {rest : List UInt8}
    (h : TableFrom w.files w.input a.schema table rest) :
    loadTable (m := StateM World) a w = (.ok table, { w with input := rest }) := by
  rw [loadTable]
  -- The built-in table, a document from a file, or one from the standard input.
  generalize a.schema = schema at h
  cases h with
  | forum => rfl
  | @file path bytes modified table hfind hparse =>
      have hread : readFile (m := StateM World) path w = (.ok bytes, w) := by
        show World.readFile path w = _
        rw [World.readFile, FileTree.read, hfind]
        rfl
      refine (bind_eq_of_ok (lift_eq hread)).trans ?_
      rw [Schema.Table.load, hparse]
      rfl
  | @stream path table hfind hparse =>
      have hread : readFile (m := StateM World) path w = (.ok w.input, { w with input := [] }) := by
        show World.readFile path w = _
        rw [World.readFile, hfind]
      refine (bind_eq_of_ok (lift_eq hread)).trans ?_
      rw [Schema.Table.load, hparse]
      rfl

theorem under_eq {message : String} {x : StateM World (Except String Unit)} {w' : World}
    (h : x w = (.ok (), w')) : under message x w = (.ok (), w') := by
  simp only [under, ExceptT.mk, bind, StateT.bind, h]
  rfl

theorem makeParent_eq {path message : String} {above : FileTree}
    (h : DirectoryMade w.files path above) :
    makeParent (m := StateM World) message path w = (.ok (), { w with files := above }) := by
  rw [makeParent]
  -- No directory above, one that is there, or one that has to be made.
  cases h with
  | current hparent =>
      rw [hparent]
      rfl
  | @there parent hparent hthere =>
      have hexists : pathExists (m := StateM World) parent w = (true, w) :=
        congrArg (·, w) hthere
      rw [hparent]
      dsimp only
      split
      · exact bind_eq_of_ok (lift_eq hexists)
      · rfl
  | @made parent _ hparent hne hmissing hmade =>
      have hexists : pathExists (m := StateM World) parent w = (false, w) :=
        congrArg (·, w) hmissing
      rw [hparent]
      dsimp only
      rw [if_pos hne]
      refine (bind_eq_of_ok (lift_eq hexists)).trans ?_
      exact under_eq (World.modifyFiles_eq hmade)

theorem createOutput_eq {path : String} {overwrite : Bool} {made : FileTree}
    (h : FileMade w.files path overwrite made) :
    createOutput (m := StateM World) path overwrite w = (.ok (), { w with files := made }) := by
  obtain ⟨above, hdirectory, hcreate⟩ := h.exists_create
  have hno : isDirectory (m := StateM World) path w = (false, w) :=
    congrArg (·, w) h.isDirectory_eq
  have hlast (message : String) :
      (makeParent message path >>= fun _ => under message (createFile (m := StateM World) path)) w =
        (.ok (), { w with files := made }) :=
    (bind_eq_of_ok (makeParent_eq hdirectory)).trans (under_eq (World.modifyFiles_eq hcreate))
  rw [createOutput]
  refine (bind_eq_of_ok (lift_eq hno)).trans ?_
  dsimp only
  rw [if_neg Bool.false_ne_true]
  split
  · next hkept =>
      -- No file may be overwritten, so none is there.
      have hnew : pathExists (m := StateM World) path w = (false, w) := by
        rcases h.overwrites with hoverwrite | hnew
        · rw [hoverwrite] at hkept
          cases hkept
        · exact congrArg (·, w) hnew
      exact (bind_eq_of_ok (lift_eq hnew)).trans (hlast _)
  · exact hlast _

theorem openLog_eq {input : String} {data : List UInt8} (h : LogFrom w.files w.input input data) :
    ∃ rest messages, openLog (m := StateM World) a input w =
      (.ok { data, settings := {} }, { w with input := rest, messages }) := by
  rw [openLog]
  -- The log takes all of the standard input, or none of it.
  cases h with
  | stream =>
      obtain ⟨messages, htell⟩ := exists_tell_eq a (Source.stream w.input none).notices
        { w with input := [] }
      exact ⟨[], messages, bind_eq_of_ok htell⟩
  | @file _ opened hne hopened =>
      have hsource : source (m := StateM World) input w = (.file input (.ok opened), w) := by
        rw [source, if_neg hne, ← hopened]
        rfl
      obtain ⟨messages, htell⟩ := exists_tell_eq a (Source.file input (.ok opened)).notices w
      exact ⟨w.input, messages,
        (bind_eq_of_ok (lift_eq hsource)).trans (bind_eq_of_ok htell)⟩

/-- **A run comes to its log and has printed nothing**, if its schema table, its output file and its
log can be had. -/
theorem exists_prepare_eq {input : String} {table : Schema.Table} {rest data : List UInt8}
    {made : FileTree} (hjson : outputFormat a ≠ .tar)
    (htable : TableFrom w.files w.input a.schema table rest)
    (hmade : OutputMade w.files a.overwrite made a.output) (hlog : LogFrom made rest input data) :
    ∃ ready : World, prepare (m := StateM World) a input w =
        (.ok { data, settings := settings a table }, ready) ∧
      ready.output = w.output ∧ ready.files = made := by
  obtain ⟨rest', messages, hopen⟩ :=
    openLog_eq (a := a) (w := { w with input := rest, files := made }) hlog
  refine ⟨{ w with input := rest', files := made, messages }, ?_, rfl, rfl⟩
  rw [prepare]
  refine (bind_eq_of_ok (loadTable_eq htable)).trans ?_
  dsimp only
  -- An archive that goes nowhere is refused before anything is opened.
  rw [if_neg fun h => hjson h.1]
  cases houtput : a.output with
  | none =>
      rw [houtput] at hmade
      cases hmade
      exact bind_eq_of_ok hopen
  | some path =>
      rw [houtput] at hmade
      have hcreate := createOutput_eq (w := { w with input := rest }) hmade
      exact (bind_eq_of_ok hcreate).trans (bind_eq_of_ok hopen)

theorem isMade_of_outputMade {files made : FileTree} {overwrite : Bool} {output : Option String}
    (h : OutputMade files overwrite made output) :
    ∀ path, output = some path → made.IsMade path := by
  rintro path rfl
  obtain ⟨above, -, hcreate⟩ := FileMade.exists_create h
  exact FileTree.isMade_of_create hcreate

end EventLog.CommandLine
