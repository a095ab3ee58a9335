import EventLog.Proofs.Archive.Outputs
import EventLog.Proofs.CommandLine.Arguments
import EventLog.Proofs.CommandLine.Preparation
import EventLog.Proofs.Event.Document
import EventLog.Proofs.Event.Filter
import EventLog.Proofs.Json.Line

set_option autoImplicit false

/-! # What a run prints

A run that prints events puts out what is shown for each of them (`CommandLine.shownEvent`) and
nothing else, up to the first error of the log, which it then reports (`CommandLine.run_prints`). No
document on one line holds a line end, so that a reader of lines finds the documents.
-/

namespace EventLog

theorem Utf8.ofString_append (s t : String) : ofString (s ++ t) = ofString s ++ ofString t := by
  rw [ofString, String.toList_append, encode_append]
  rfl

namespace CommandLine

/-! ## The text of a walk -/

/-- What is shown for an event: its number among the events, unless it is not wanted or each event
is to stand on a line, its document, and a line end. -/
def shownEvent (a : Arguments) (index : Nat) (e : Event) : List UInt8 :=
  (if a.hideRecordNumbers = true ∨ a.format = some .jsonLines then []
    else Utf8.ofString s!"Record {index}\n") ++
  e.documentBytes (!(a.noIndent || a.format == some .jsonLines)) ++ [10]

def shownEvents (a : Arguments) (events : List Event) : List UInt8 :=
  (events.mapIdx (shownEvent a)).flatten

/-- The format is JSON on one line or on more: it is given, or it is not and the output file is not
named like an archive. -/
def AsksForJson (a : Arguments) : Prop :=
  a.format = some .json ∨ a.format = some .jsonLines ∨
    a.format = none ∧ ∀ path ending, a.output = some path → Path.extension? path = some ending →
      ending.toList.map Char.toLower ≠ "tar".toList

theorem outputFormat_ne_tar {a : Arguments} (h : AsksForJson a) : outputFormat a ≠ .tar := by
  rw [outputFormat]
  -- Without a format, the name of the output decides.
  rcases h with hjson | hlines | ⟨hnone, hending⟩
  · rw [hjson]
    nofun
  · rw [hlines]
    nofun
  · have hplain : a.output.any hasTarExtension = false := by
      cases houtput : a.output with
      | none => rfl
      | some path =>
          rw [Option.any_some, hasTarExtension]
          split
          · next ending hpath => exact beq_eq_false_iff_ne.mpr (hending path ending houtput hpath)
          · rfl
    rw [hnone, hplain]
    nofun

theorem outputFormat_eq_jsonLines (a : Arguments) :
    (outputFormat a == .jsonLines) = (a.format == some .jsonLines) := by
  rw [outputFormat]
  cases a.format with
  | some format => rfl
  | none => cases a.output.any hasTarExtension <;> rfl

theorem indents_eq (a : Arguments) :
    indents a = !(a.noIndent || a.format == some .jsonLines) := by
  rw [indents, Bool.not_or, bne, outputFormat_eq_jsonLines]

theorem showsNumbers_eq (a : Arguments) :
    showsNumbers a = !(a.hideRecordNumbers || a.format == some .jsonLines) := by
  rw [showsNumbers, Bool.not_or, bne, outputFormat_eq_jsonLines]

theorem ofString_printed (a : Arguments) (index : Nat) (e : Event) :
    Utf8.ofString (printed (showsNumbers a)
      (e.rendered (fun e => e.document (indents a)) index)) = shownEvent a index e := by
  have hend : Utf8.ofString "\n" = [10] := rfl
  -- The head line is left out when it was not wanted, and always for JSON lines.
  have hnumber : Utf8.ofString (if showsNumbers a then s!"Record {index}\n" else "") =
      if a.hideRecordNumbers = true ∨ a.format = some .jsonLines then []
      else Utf8.ofString s!"Record {index}\n" := by
    by_cases hhidden : a.hideRecordNumbers = true ∨ a.format = some .jsonLines
    · have hshows : showsNumbers a = false := by
        rw [showsNumbers_eq, Bool.not_eq_false', Bool.or_eq_true, beq_iff_eq]
        exact hhidden
      rw [hshows, if_pos hhidden]
      rfl
    · have hshows : showsNumbers a = true := by
        rw [showsNumbers_eq, Bool.not_eq_true', Bool.or_eq_false_iff, beq_eq_false_iff_ne,
          ← Bool.not_eq_true]
        exact not_or.mp hhidden
      rw [hshows, if_neg hhidden]
      rfl
  rw [printed, Utf8.ofString_append, Utf8.ofString_append, hend, shownEvent, ← indents_eq,
    ← hnumber]
  rfl

theorem printedItems_numbered (showNumber : Bool) (render : Event → String) (first : Nat)
    (events : List Event) (error : Option LogError) :
    printedItems showNumber (EventIterator.numbered render first (eventsThen events error)) =
      ((events.mapIdx fun i e =>
        Utf8.ofString (printed showNumber (e.rendered render (first + i)))).flatten, error) := by
  induction events generalizing first with
  | nil => cases error <;> rfl
  | cons e events ih =>
      rw [eventsThen_cons, EventIterator.numbered_cons, List.mapIdx_cons, List.flatten_cons]
      simp only [Except.map, printedItems, ih, Nat.add_assoc, Nat.add_zero, Nat.add_comm 1]

/-- What is printed for a log is what is shown for its events, whether or not an error ends them. -/
theorem printedItems_renderedItems {a : Arguments} {log : Log} (h : log.settings.indent = indents a)
    {events : List Event} {error : Option LogError}
    (hitems : log.events.items = eventsThen events error) :
    printedItems (showsNumbers a) (log.events.renderedItems log.document) =
      (shownEvents a events, error) := by
  rw [EventIterator.renderedItems_eq, hitems, printedItems_numbered, shownEvents]
  have hshown (i : Nat) (e : Event) : Utf8.ofString (printed (showsNumbers a)
      (e.rendered log.document (log.events.emitted + i))) = shownEvent a i e := by
    rw [← ofString_printed, ← h]
    show Utf8.ofString (printed _ (e.rendered log.document (0 + i))) = _
    rw [Nat.zero_add]
    rfl
  simp only [hshown]

/-! ## The output -/

open Workspace

/-- Bytes are put out between two worlds: they are added to standard output, or they are what the
output file holds. -/
def PutOut (a : Arguments) (bytes : List UInt8) (w w' : World) : Prop :=
  (a.output = none → w'.output = w.output ++ bytes) ∧
  ∀ path content modified, a.output = some path →
    w.files.find path = .ok (.file content modified) →
    w'.files.find path = .ok (.file bytes modified)

/-- An output that has room takes what is put out. -/
theorem exists_put_eq {a : Arguments} {w : World}
    (hmade : ∀ path, a.output = some path → w.files.IsMade path)
    (hroom : ∀ path, a.output = some path → w.files.find path ≠ .ok (.device .full))
    (bytes : List UInt8) :
    ∃ w' : World, put (m := StateM World) a bytes w = (.ok (), w') ∧ PutOut a bytes w w' := by
  unfold PutOut
  rw [put]
  cases houtput : a.output with
  | none => exact ⟨{ w with output := w.output ++ bytes }, rfl, fun _ => rfl, nofun⟩
  | some path =>
      obtain ⟨w', hput, hfile⟩ :=
        World.exists_appendFile_eq (hmade path houtput) (hroom path houtput) bytes
      refine ⟨w', hput, nofun, ?_⟩
      rintro _ content modified ⟨⟩
      exact hfile content modified

/-- **The events of a log are printed up to the first error**, which the printing then comes to. -/
theorem exists_printEvents_eq {a : Arguments} {log : Log}
    (hindent : log.settings.indent = indents a) {events : List Event} {error : Option LogError}
    (hitems : log.events.items = eventsThen events error) {w : World}
    (hmade : ∀ path, a.output = some path → w.files.IsMade path)
    (hroom : ∀ path, a.output = some path → w.files.find path ≠ .ok (.device .full)) :
    ∃ w' : World,
      printEvents (m := StateM World) a log w =
        (error.elim (.ok ()) fun e => .error (.ofLogError e), w') ∧
      PutOut a (shownEvents a events) w w' := by
  obtain ⟨messages, htell⟩ := exists_tell_eq a (log.events.calls.flatMap Step.notices) w
  obtain ⟨w', hput, hout⟩ :=
    exists_put_eq (w := { w with messages }) hmade hroom (shownEvents a events)
  refine ⟨w', ?_, hout⟩
  rw [printEvents]
  refine (bind_eq_of_ok htell).trans ?_
  rw [printedItems_renderedItems hindent hitems]
  refine (bind_eq_of_ok (lift_eq hput)).trans ?_
  cases error <;> rfl

/-! ## Lines -/

/-- Texts without line ends, of which each is followed by one, are the lines of the whole. -/
theorem splitOn_lines {lines : List (List UInt8)} (h : ∀ line ∈ lines, (10 : UInt8) ∉ line) :
    (lines.flatMap fun line => line ++ [10]).splitOn 10 = lines ++ [[]] := by
  induction lines with
  | nil => rfl
  | cons line lines ih =>
      obtain ⟨hline, hlines⟩ := List.forall_mem_cons.mp h
      rw [List.flatMap_cons, List.append_assoc, List.singleton_append,
        List.splitOn_append_cons_self_of_not_mem hline, ih hlines, List.cons_append]

/-- Where each event is to stand on a line, its document is the line. -/
theorem shownEvents_of_jsonLines {a : Arguments} (h : a.format = some .jsonLines)
    (events : List Event) :
    shownEvents a events =
      (events.map (Event.documentBytes · false)).flatMap fun line => line ++ [10] := by
  have hindent : (!(a.noIndent || a.format == some .jsonLines)) = false := by
    rw [h]
    exact congrArg Bool.not (Bool.or_true _)
  have hshown : shownEvent a = fun _ e => e.documentBytes false ++ [10] := by
    funext i e
    rw [shownEvent, if_pos (.inr h), hindent, List.nil_append]
  rw [shownEvents, hshown, List.flatMap_map, List.flatMap_def]
  congr 1
  exact List.ext_getElem? fun i => by rw [List.getElem?_mapIdx, List.getElem?_map]

/-! ## A whole run -/

theorem settings_eq (a : Arguments) (table : Schema.Table) :
    settings a table =
      { validateChecksums := !a.noChecksums
        strictLength := a.strictLength
        indent := !(a.noIndent || a.format == some .jsonLines)
        table
        filter := a.eventTypes.elim .all Filter.ofList } := by
  rw [settings, indents_eq]
  cases a.eventTypes <;> rfl

/-- Without a directory or an archive to write to, a run that has its log prints it. -/
theorem execute_of_prepare {a : Arguments} {input : String} {log : Log} {w ready : World}
    (hready : prepare (m := StateM World) a input w = (.ok log, ready)) (htree : a.outputDir = none)
    (hformat : outputFormat a ≠ .tar) :
    execute (m := StateM World) a input w = printEvents (m := StateM World) a log ready := by
  rw [execute]
  refine (bind_eq_of_ok hready).trans ?_
  rw [htree]
  dsimp only
  rw [if_neg hformat]

/-- **A run prints the events of its log up to the first error**, each with its number, if numbers
are shown, its document and a line end, and fails exactly if there is an error. The log is read as
the arguments ask, however they are spelled. What is printed is added to standard output or is what
the output file holds, unless that has no room. Where each event is to stand on a line, the lines
are the documents, whatever texts the events have, and each is read back as the value of its
event. -/
theorem run_prints {arguments : List String} {a : Arguments} {input : String} {w : World}
    {table : Schema.Table} {rest data : List UInt8} {made : FileTree}
    (harguments : Asks arguments a) (hinput : a.input = some input) (htree : a.outputDir = none)
    (hjson : AsksForJson a) (htable : TableFrom w.files w.input a.schema table rest)
    (hmade : OutputMade w.files a.overwrite made a.output) (hlog : LogFrom made rest input data)
    (hroom : ∀ path, a.output = some path → made.find path ≠ .ok (.device .full)) :
    let settings : Settings :=
      { validateChecksums := !a.noChecksums
        strictLength := a.strictLength
        indent := !(a.noIndent || a.format == some .jsonLines)
        table
        filter := a.eventTypes.elim .all Filter.ofList }
    let log : Log := { data, settings }
    ∃ (events : List Event) (error : Option LogError) (w' : World),
      Step.Yields EventIterator.next log.events (eventsThen events error) ∧
      run (m := StateM World) arguments w = (if error = none then 0 else 1, w') ∧
      (a.output = none → w'.output = w.output ++ shownEvents a events) ∧
      (∀ path content modified, a.output = some path →
        made.find path = .ok (.file content modified) →
        w'.files.find path = .ok (.file (shownEvents a events) modified)) ∧
      (a.format = some .jsonLines →
        (shownEvents a events).splitOn 10 = events.map (Event.documentBytes · false) ++ [[]] ∧
        Step.Yields (EventIterator.nextRendered Event.toJson) log.events
          (renderedThen Event.toJson events error) ∧
        ∀ e ∈ events, Json.parse (e.documentBytes false) = .ok e.toJson) := by
  rw [← settings_eq]
  intro settings' log
  have hparse := parse_of_asks harguments hinput (.inr htree)
  have hformat := outputFormat_ne_tar hjson
  -- The arguments are pointed out, and then the log is had.
  obtain ⟨messages, hwarn⟩ := exists_reports_eq (warnings a) w
  obtain ⟨ready, hready, hprinted, hfiles⟩ :=
    exists_prepare_eq (w := { w with messages }) hformat htable hmade hlog
  have hprints := execute_of_prepare hready htree hformat
  have hfile : ∀ path, a.output = some path → ready.files.IsMade path := by
    rw [hfiles]
    exact isMade_of_outputMade hmade
  rw [← hfiles] at hroom
  obtain ⟨events, error, hitems, hyields, -⟩ := log.exists_events
  obtain ⟨shown, hprint, houtput, hshown⟩ := exists_printEvents_eq (w := ready) rfl hitems hfile hroom
  -- A run that fails says so among the messages.
  let ended : World := error.elim shown fun e =>
    (Workspace.report (m := StateM World) (Failure.ofLogError e).text shown).2
  have hended : ended.output = shown.output ∧ ended.files = shown.files := by
    cases error <;> exact ⟨rfl, rfl⟩
  refine ⟨events, error, ended, hyields, ?_, ?_, ?_, ?_⟩
  · rw [run, hparse]
    refine (bindState_eq hwarn).trans ((bindState_eq (hprints.trans hprint)).trans ?_)
    cases error <;> rfl
  · intro hnone
    rw [hended.1, houtput hnone, hprinted]
  · rw [hended.2, ← hfiles]
    exact hshown
  · intro hlines
    rw [shownEvents_of_jsonLines hlines]
    refine ⟨splitOn_lines fun line hline => ?_, ?_, fun e _ => ?_⟩
    · obtain ⟨e, -, rfl⟩ := List.mem_map.mp hline
      exact Json.newline_not_mem_compact e.toJson
    · rw [← numbered_eventsThen, ← hitems]
      exact EventIterator.yields_rendered Event.toJson rfl
    · exact Json.parse_text (e.fits_toJson 125) false

def renamedUser : Uuid := ⟨List.replicate 16 7, rfl⟩

/-- The record of the user's taking a name made of control characters and a quote. Its checksum is
wrong. -/
def renamedRecord : Record where
  offset := 0
  payloadOffset := 16
  checksum := 1
  payload := [2, 0, 0, 0, 1, 0, 1, 0] ++ List.replicate 8 0 ++ renamedUser.bytes ++
    List.replicate 16 0 ++ renamedUser.bytes ++ [4, 0, 0, 0, 10, 34, 13, 9]

/-- The same record further on, with bytes left over after its fields. -/
def crowdedRecord : Record where
  offset := 88
  payloadOffset := 104
  checksum := 1
  payload := renamedRecord.payload ++ List.replicate 8 0

def renamedEvent : Event where
  eventType := 2
  typeName := "CHANGE_USER_NAME"
  version := 1
  contextVersion := 1
  context :=
    { timestamp := 0
      timestampText := "1970-01-01 00:00:00Z"
      user := renamedUser
      address := .v4 0 }
  data :=
    { entries := [("id", .uuid renamedUser), ("name", .string "\n\"\r\t")]
      nodup_keys := by decide }
  offset := 0

/-- A command line that asks not to check checksums, to refuse bytes left over and to print each
event of the types 2 and 7 on a line. -/
def renamedArguments : List String :=
  ["--no-checksums", "--strict-length", "--dont-show-record-number", "--event-types=2,7", "-ojsonl",
    "-"]

def renamedChoices : List Choice :=
  [.switch .noChecksums, .switch .strictLength, .switch .hideRecordNumbers, .eventTypes [2, 7],
    .format .jsonLines, .input "-"]

/-- A log of the two records, under the settings that are asked for. -/
def renamedLog : Log where
  data := Log.single renamedRecord ++ Log.single crowdedRecord
  settings :=
    { validateChecksums := false
      strictLength := true
      indent := false
      filter := .ofList [2, 7] }

theorem spells_renamedArguments : Spells renamedArguments renamedChoices := by
  have hcodes : List.Forall₂ SpellsCode [['2'], ['7']] [2, 7] :=
    .cons (.digits 1 2) (.cons (.digits 1 7) .nil)
  have htypes : SpellsValue .eventTypes "2,7" (.eventTypes [2, 7]) :=
    .eventTypes (by decide) hcodes
  have hlines : Spells ["-ojsonl", "-"] [.format .jsonLines, .input "-"] :=
    @Spells.lettersAttached [] [] _ _ _ _ _ _ _ .nil rfl (.plain rfl (by decide)) .jsonLines
      (.path (.inl rfl) .nil)
  exact .switch (s := .noChecksums) rfl (.switch (s := .strictLength) rfl
    (.switch (s := .hideRecordNumbers) rfl (.attached htypes hlines)))

theorem asks_renamedArguments : Asks renamedArguments (asked renamedChoices) :=
  ⟨renamedChoices, spells_renamedArguments, ⟨by decide, by decide, by decide⟩, rfl⟩

theorem items_renamedLog :
    renamedLog.events.items =
      eventsThen [renamedEvent] (some (.undecodable 1 88 (.trailingBytes 8 176))) := by
  let decoder : Decoder := { table := Schema.Forum.table, strict := true }
  have hdecode : decoder.decode renamedRecord = .ok (some renamedEvent) := by decide +kernel
  -- The second payload has eight bytes more than its fields, which a strict decoder refuses.
  have hrefuse : decoder.decode crowdedRecord = .error (.trailingBytes 8 176) := by decide +kernel
  have hmatch : (Filter.ofList [2, 7]).matchesType renamedEvent.eventType = true :=
    Filter.matchesType_ofList.mpr (.inr (by decide))
  have hfirst : renamedLog.records.next.item = some (.ok renamedRecord) := rfl
  have hsecond : renamedLog.records.next.state.next.item = some (.ok crowdedRecord) := rfl
  rw [renamedLog, Log.items_events, ← renamedLog, Scanner.items_of_record hfirst,
    Scanner.items_of_record hsecond]
  show walk decoder (.ofList [2, 7]) 0 _ = _
  rw [walk, hdecode]
  dsimp only
  rw [if_pos hmatch, walk, hrefuse]
  rfl

/-- With each event on a line, a run on this log prints one line and then fails. -/
theorem run_prints_renamedLog :
    let a := asked renamedChoices
    let w : World := { files := .empty, input := renamedLog.data }
    Asks renamedArguments a ∧ a.input = some "-" ∧ a.outputDir = none ∧ AsksForJson a ∧
      TableFrom w.files w.input a.schema Schema.Forum.table w.input ∧
      OutputMade w.files a.overwrite w.files a.output ∧ LogFrom w.files w.input "-" w.input ∧
      ∃ w' : World, run (m := StateM World) renamedArguments w = (1, w') ∧
        w'.output.splitOn 10 = [renamedEvent.documentBytes false, []] ∧
        Json.parse (renamedEvent.documentBytes false) = .ok renamedEvent.toJson := by
  intro a w
  have hjson : AsksForJson a := .inr (.inl rfl)
  obtain ⟨events, error, w', hyields, hrun, houtput, -, hlines⟩ :=
    run_prints (w := w) asks_renamedArguments rfl rfl hjson .forum rfl .stream nofun
  have hitems : Step.Yields EventIterator.next renamedLog.events renamedLog.events.items :=
    EventIterator.yields_items rfl
  rw [items_renamedLog] at hitems
  obtain ⟨rfl, rfl⟩ := eventsThen_inj (hyields.unique hitems)
  obtain ⟨hsplit, -, hparse⟩ := hlines rfl
  refine ⟨asks_renamedArguments, rfl, rfl, hjson, .forum, rfl, .stream, w', hrun, ?_, hparse _ ?_⟩
  · have hempty : w.output = [] := rfl
    rw [houtput rfl, hempty, List.nil_append, hsplit]
    rfl
  · exact List.mem_singleton_self _

end CommandLine

end EventLog
