import EventLog.Proofs.Archive.Limit
import EventLog.Proofs.Archive.Tree
import EventLog.Proofs.Event.Numbering

set_option autoImplicit false

/-! # The outputs of a log

However the events of a log are put out, rendered one by one, as files below a directory or as the
entries of an archive, they are the same events in the same order, and the same error ends them
(`Log.outputs_agree`). Only the dates differ, and only before 1970: a file has the timestamp of
its event, for which an archive has no place.
-/

namespace EventLog

/-! ## Rendered events -/

/-- Rendered events, numbered from zero on, and an error behind them if there is one. -/
def renderedThen {α : Type} (render : Event → α) (events : List Event) (error : Option LogError) :
    List (Except LogError (Rendered α)) :=
  (events.mapIdx fun i e => .ok
    { index := i
      offset := e.offset
      eventType := e.eventType
      timestamp := e.context.timestamp
      data := render e }) ++ (error.map .error).toList

theorem numbered_eventsThen {α : Type} (render : Event → α) (events : List Event)
    (error : Option LogError) :
    EventIterator.numbered render 0 (eventsThen events error) =
      renderedThen render events error := by
  have hevents : ((events.map .ok : List (Except LogError Event)).mapIdx fun i item =>
      item.map (Event.rendered render i)) = events.mapIdx fun i e => .ok (e.rendered render i) := by
    apply List.ext_getElem?
    intro i
    rw [List.getElem?_mapIdx, List.getElem?_mapIdx, List.getElem?_map]
    cases events[i]? <;> rfl
  rw [EventIterator.numbered, eventsThen, renderedThen, List.mapIdx_append]
  simp only [Nat.zero_add]
  rw [hevents]
  cases error <;> rfl

/-! ## Archives -/

/-- The bytes of a stored entry: its header, and its contents in whole blocks. -/
def Tar.Stored.bytes (s : Stored) : List UInt8 :=
  Header.bytes { name := s.name, mode := s.mode, size := s.content.length, modified := s.modified } ++
    s.content ++ zeros (fill s.content.length)

namespace Archive

theorem bytes_stored (index : Nat) (e : Event) :
    (stored index e).bytes = (entryPieces index e).flatten := by
  have hheader : headerOf index e =
      { name := (headerOf index e).name
        mode := (headerOf index e).mode
        size := (e.documentBytes true).length
        modified := (headerOf index e).modified } := by
    rw [← size_headerOf index e]
  rw [flatten_entryPieces, stored_eq, Tar.Stored.bytes, hheader]

theorem entriesBytes_eq (index : Nat) (events : List Event) :
    entriesBytes index events =
      (events.mapIdx fun i e => stored (index + i) e).flatMap Tar.Stored.bytes := by
  induction events generalizing index with
  | nil => rfl
  | cons e events ih =>
      rw [entriesBytes, ih, List.mapIdx_cons, List.flatMap_cons, bytes_stored]
      simp only [Nat.add_zero, Nat.add_assoc, Nat.add_comm 1]

/-- The date of a stored entry is the timestamp of its event, unless that lies before 1970. -/
theorem modified_stored_ne_iff (index : Nat) (e : Event) :
    ((stored index e).modified : Int) ≠ e.context.timestamp.toInt ↔
      e.context.timestamp.toInt < 0 := by
  show ((max e.context.timestamp.toInt 0).toNat : Int) ≠ _ ↔ _
  omega

end Archive

/-! ## All outputs -/

/-- **All outputs of a log are about the same events**, let `root` be a path that leads to a fresh
directory. Rendered, the events are numbered in order and followed by the error of the log, if
there is one. Below the root, there is one file for each of them, under the name of its entry and
with its document, and no two of them are the same. A sink with room for everything holds the same
names and documents in order. Writing comes to the number of events or to the error in both cases.
The date of a file is the timestamp of its event, and that of an entry is another one exactly for
timestamps before 1970. -/
theorem Log.outputs_agree {log : Log} (hlog : log.data.length < UInt64.size) {w : World}
    {root : String} {made : FileTree} {place : List String}
    (hroot : w.files.Fresh root made place) :
    ∃ (events : List Event) (error : Option LogError) (files : FileTree),
      Step.Yields EventIterator.next log.events (eventsThen events error) ∧
      Step.Yields (EventIterator.nextRendered log.document) log.events
        (renderedThen (fun e => e.document log.settings.indent) events error) ∧
      Step.Yields (EventIterator.nextRendered Event.toJson) log.events
        (renderedThen Event.toJson events error) ∧
      EntryTree.writeEvents (m := StateM World) log.events root w =
        (error.elim (.ok events.length) .error, { w with files }) ∧
      (∀ way content modified, way ≠ [] →
        (files.node? (place ++ way) = some (.file content modified) ↔
          ∃ (i : Nat) (e : Event), events[i]? = some e ∧
            way = Path.components (Archive.stored i e).name ∧ content = e.documentBytes true ∧
            modified = some e.context.timestamp)) ∧
      (∀ other, (∀ way, way ≠ [] → other ≠ place ++ way) →
        files.node? other = made.node? other) ∧
      (∀ i j e e', events[i]? = some e → events[j]? = some e' →
        (Archive.stored i e).name = (Archive.stored j e').name → i = j) ∧
      (Archive.writeEvents log.events (.empty none)).result =
        error.elim (.ok events.length) .error ∧
      (Archive.writeEvents log.events (.empty none)).archive.sink.taken.toList =
        (events.mapIdx Archive.stored).flatMap Tar.Stored.bytes ++ Tar.trailer ∧
      ((∀ e ∈ events, (e.documentBytes true).length < Nat.pow 8 11) →
        Tar.readEntries (Archive.writeEvents log.events (.empty none)).archive.sink.taken.toList =
          some (events.mapIdx Archive.stored, [])) ∧
      ∀ i e, events[i]? = some e →
        (((Archive.stored i e).modified : Int) ≠ e.context.timestamp.toInt ↔
          e.context.timestamp.toInt < 0) := by
  obtain ⟨events, error, hitems, hyields, hcalls, -, hlength⟩ := log.exists_events
  have hcount : events.length ≤ UInt64.size := by omega
  have hindex {i : Nat} {e : Event} (he : events[i]? = some e) : i < UInt64.size :=
    Nat.lt_of_lt_of_le (List.getElem?_eq_some_iff.mp he).1 hcount
  have hrendered {α : Type} (render : Event → α) :
      Step.Yields (EventIterator.nextRendered render) log.events
        (renderedThen render events error) := by
    rw [← numbered_eventsThen, ← hitems]
    exact EventIterator.yields_rendered render rfl
  obtain ⟨files, htree, hholds⟩ := EntryTree.exists_writeEvents_eq hroot hitems hcount
  obtain ⟨hresult, htaken⟩ := Archive.writeEvents_unlimited hcalls
  have hentries : Archive.entriesBytes 0 events =
      (events.mapIdx Archive.stored).flatMap Tar.Stored.bytes := by
    rw [Archive.entriesBytes_eq]
    simp only [Nat.zero_add]
  refine ⟨events, error, files, hyields, hrendered _, hrendered _, htree,
    fun way content modified hway => hholds.file_iff hcount hway content modified,
    hholds.node?_outside, fun i j e e' he he' => Entry.name_inj (hindex he) (hindex he'),
    hresult, by rw [htaken, hentries], fun hsize => ?_,
    fun i e _ => Archive.modified_stored_ne_iff i e⟩
  rw [htaken]
  exact Archive.readEntries_whole hcount hsize

/-- Writing a torn log below a directory that is missing yet. -/
theorem Log.outputs_agree_torn :
    ∃ made files : FileTree,
      torn.data.length < UInt64.size ∧ FileTree.empty.Fresh "out" made ["out"] ∧
      EntryTree.writeEvents (m := StateM World) torn.events "out" { files := .empty } =
        (.error (.fault (.shortRead 1 16 64)), { files }) ∧
      files.node? ["out", "0000", "00000000.e1"] =
        some (.file (plainEvent.documentBytes true) (some 0)) ∧
      Tar.readEntries (Archive.writeEvents torn.events (.empty none)).archive.sink.taken.toList =
        some ([Archive.stored 0 plainEvent], []) := by
  have hlog : torn.data.length < UInt64.size := by decide
  have hname : Path.IsName "out" := ⟨by decide, by decide, by decide, by decide, by decide⟩
  have hleads : FileTree.empty.LeadsTo "out" [] "out" :=
    ⟨rfl, hname.namesDirectory_eq, hname, [], hname.components_eq, rfl⟩
  obtain ⟨made, hroot⟩ := hleads.exists_fresh (fun way => FileTree.node?_empty _) (by decide)
  obtain ⟨events, error, files, hyields, -, -, htree, hfiles, -, -, -, -, hread, -⟩ :=
    outputs_agree (w := { files := .empty }) hlog hroot
  have hitems : Step.Yields EventIterator.next torn.events torn.events.items :=
    EventIterator.yields_items rfl
  rw [items_torn] at hitems
  obtain ⟨rfl, rfl⟩ := eventsThen_inj (hyields.unique hitems)
  have hsize : (plainEvent.documentBytes true).length < Nat.pow 8 11 := by
    have hblocks := wholeBlocks_plainEvent
    rw [Entry.content_eq, Tar.wholeBlocks_eq] at hblocks
    exact Nat.lt_of_le_of_lt (Nat.le_of_add_right_le (Nat.le_of_eq hblocks)) (by decide)
  refine ⟨made, files, hlog, hroot, htree, ?_, hread ?_⟩
  · exact (hfiles ["0000", "00000000.e1"] _ _ (List.cons_ne_nil _ _)).mpr
      ⟨0, plainEvent, rfl, rfl, rfl, rfl⟩
  · exact List.forall_mem_cons.mpr ⟨hsize, nofun⟩

end EventLog
