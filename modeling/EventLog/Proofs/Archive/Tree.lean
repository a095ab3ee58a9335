import EventLog.Archive.Tree
import EventLog.Proofs.Archive.Entry
import EventLog.Proofs.Event.Ending
import EventLog.Proofs.Workspace.Steps

set_option autoImplicit false

/-! # Writing into a directory

Below a directory in which nothing stands, writing events leaves one file for each of them and the
directories of these files, and nothing else (`EntryTree.Holds`). Each event that is written keeps
that so (`EntryTree.exists_write_eq`), and so does a whole walk, whether or not it ends with an error
(`EntryTree.exists_writeEvents_eq`).
-/

namespace EventLog

/-! ## What stands below a root -/

/-- After the path of a root was made as far as it was missing, it leads to a directory below which
nothing stands, and the names of entries can be added to it. -/
structure FileTree.Fresh (t : FileTree) (root : String) (made : FileTree) (place : List String) :
    Prop where
  makeDirectories_eq : t.makeDirectories root = .ok made
  follow_eq : made.follow (made.start root) (Path.components root) = .ok place
  node?_below : ∀ way, way ≠ [] → made.node? (place ++ way) = none
  size_le : root.utf8ByteSize + 100 ≤ 4095

/-- A path to something missing leads to a fresh directory. -/
theorem FileTree.LeadsTo.exists_fresh {t : FileTree} {path name : String} {place : List String}
    (h : t.LeadsTo path place name) (hnone : ∀ way, t.node? (place ++ [name] ++ way) = none)
    (hsize : path.utf8ByteSize + 100 ≤ 4095) : ∃ made, t.Fresh path made (place ++ [name]) := by
  have hmissing : t.node? (place ++ [name]) = none := by
    rw [← List.append_nil (place ++ [name])]
    exact hnone []
  obtain ⟨made, hmake, hkeeps, hcurrent, hnode⟩ := h.exists_makeDirectories_eq (.inl hmissing)
  obtain ⟨front, hcomponents, hfollow⟩ := h.components_eq
  have hstart : made.start path = t.start path := by
    rw [FileTree.start, FileTree.start, hcurrent]
  refine ⟨made, hmake, ?_, fun way hway => ?_, hsize⟩
  · rw [hcomponents, follow_append, hstart, hkeeps.follow_eq hfollow]
    exact follow_of_directory h.isName (by rw [hnode, if_pos rfl])
  · rw [hnode, if_neg fun heq => hway (List.append_right_eq_self.mp heq), hnone]

/-- What the `index`th entry puts below the root: its file, and the directory of the file. -/
def Entry.Puts (index : Nat) (e : Event) (way : List String) (node : FileNode) : Prop :=
  way = [directory index] ∧ node = .directory true ∨
    way = [directory index, baseName index e.eventType] ∧
      node = .file (content e) (some e.context.timestamp)

namespace EntryTree

/-- Below the place of the root, there is what the entries of events put there, and nothing else;
elsewhere nothing has changed. -/
structure Holds (made : FileTree) (place : List String) (events : List Event) (t : FileTree) :
    Prop where
  current_eq : t.current = made.current
  node?_outside : ∀ other, (∀ way, way ≠ [] → other ≠ place ++ way) →
    t.node? other = made.node? other
  node?_below : ∀ way node, way ≠ [] →
    (t.node? (place ++ way) = some node ↔
      ∃ (i : Nat) (e : Event), events[i]? = some e ∧ Entry.Puts i e way node)

section Writing

variable {files made t : FileTree} {root : String} {place : List String} {events : List Event}

theorem holds_nil (h : files.Fresh root made place) : Holds made place [] made where
  current_eq := rfl
  node?_outside := fun _ _ => rfl
  node?_below := by
    intro way node hway
    rw [h.node?_below way hway]
    refine iff_of_false nofun ?_
    rintro ⟨i, e, he, -⟩
    cases he

/-- The path of the root still leads to its place. -/
theorem Holds.follow_eq (h : Holds made place events t) (hfresh : files.Fresh root made place) :
    t.follow (t.start root) (Path.components root) = .ok place := by
  have hkeeps : made.KeepsDirectories t := by
    intro other sized hother
    rw [h.node?_outside, hother]
    rintro way hway rfl
    rw [hfresh.node?_below way hway] at hother
    cases hother
  have hstart : t.start root = made.start root := by
    rw [FileTree.start, FileTree.start, h.current_eq]
  rw [hstart]
  exact hkeeps.follow_eq hfresh.follow_eq

/-- The next file is not there yet: its name has a number of its own. -/
theorem Holds.node?_next (h : Holds made place events t) (directory : String)
    (eventType : UInt32) :
    t.node? (place ++ [directory, Entry.baseName events.length eventType]) = none := by
  rw [Option.eq_none_iff_forall_ne_some]
  intro node hnode
  obtain ⟨i, e, he, ⟨hway, -⟩ | ⟨hway, -⟩⟩ :=
    (h.node?_below _ node (List.cons_ne_nil _ _)).mp hnode
  · cases hway
  · have hname := (List.cons.inj (List.cons.inj hway).2).1
    have hindex := Entry.baseName_inj hname
    have hlt := (List.getElem?_eq_some_iff.mp he).1
    omega

/-- The next directory is there or is missing. -/
theorem Holds.node?_directory (h : Holds made place events t) (directory : String) :
    t.node? (place ++ [directory]) = none ∨
      t.node? (place ++ [directory]) = some (.directory true) := by
  cases hnode : t.node? (place ++ [directory]) with
  | none => exact .inl rfl
  | some node =>
      obtain ⟨i, e, -, ⟨-, hnode⟩ | ⟨hway, -⟩⟩ :=
        (h.node?_below _ node (List.cons_ne_nil _ _)).mp hnode
      · exact .inr (congrArg some hnode)
      · cases hway

theorem exists_getElem?_concat {α : Type} {xs : List α} {x : α} {p : Nat → α → Prop} :
    (∃ (i : Nat) (y : α), (xs ++ [x])[i]? = some y ∧ p i y) ↔
      (∃ (i : Nat) (y : α), xs[i]? = some y ∧ p i y) ∨ p xs.length x := by
  constructor
  · rintro ⟨i, y, hy, hp⟩
    rcases Nat.lt_trichotomy i xs.length with hlt | rfl | hgt
    · rw [List.getElem?_append_left hlt] at hy
      exact .inl ⟨i, y, hy, hp⟩
    · rw [List.getElem?_concat_length] at hy
      exact .inr (Option.some.inj hy ▸ hp)
    · have hlength : (xs ++ [x]).length ≤ i := by
        rw [List.length_append, List.length_singleton]
        omega
      rw [List.getElem?_eq_none hlength] at hy
      cases hy
  · rintro (⟨i, y, hy, hp⟩ | hp)
    · exact ⟨i, y, by rw [List.getElem?_append_left (List.getElem?_eq_some_iff.mp hy).1, hy], hp⟩
    · exact ⟨xs.length, x, List.getElem?_concat_length, hp⟩

/-- **Putting one more entry keeps what holds.** -/
theorem Holds.concat (h : Holds made place events t) {e : Event} {t' : FileTree}
    (hcurrent : t'.current = t.current)
    (hnode : ∀ other, t'.node? other =
      if other = place ++ [Entry.directory events.length,
          Entry.baseName events.length e.eventType] then
        some (.file (Entry.content e) (some e.context.timestamp))
      else if other = place ++ [Entry.directory events.length] then some (.directory true)
      else t.node? other) : Holds made place (events ++ [e]) t' where
  current_eq := hcurrent.trans h.current_eq
  node?_outside := by
    intro other hother
    rw [hnode, if_neg (hother _ (List.cons_ne_nil _ _)), if_neg (hother _ (List.cons_ne_nil _ _))]
    exact h.node?_outside other hother
  node?_below := by
    intro way node hway
    rw [exists_getElem?_concat, hnode, ← h.node?_below way node hway, Entry.Puts]
    simp only [List.append_cancel_left_eq]
    -- Three kinds of place: the new file, the directory it stands in, and everywhere else.
    by_cases hfile : way = [Entry.directory events.length,
        Entry.baseName events.length e.eventType]
    · have hnone := h.node?_next (Entry.directory events.length) e.eventType
      rw [← hfile] at hnone
      rw [if_pos hfile, hnone]
      constructor
      · rintro ⟨⟩
        exact .inr (.inr ⟨hfile, rfl⟩)
      · rintro (hnode | ⟨hway, -⟩ | ⟨-, rfl⟩)
        · cases hnode
        · cases hfile.symm.trans hway
        · rfl
    · rw [if_neg hfile]
      by_cases hdirectory : way = [Entry.directory events.length]
      · have hthere := h.node?_directory (Entry.directory events.length)
        rw [← hdirectory] at hthere
        rw [if_pos hdirectory]
        constructor
        · rintro ⟨⟩
          exact .inr (.inl ⟨hdirectory, rfl⟩)
        · rintro (hnode | ⟨-, rfl⟩ | ⟨hway, -⟩)
          · rcases hthere with hnone | hthere
            · cases hnone.symm.trans hnode
            · exact hthere.symm.trans hnode
          · rfl
          · exact absurd hway hfile
      · rw [if_neg hdirectory]
        constructor
        · exact .inl
        · rintro (hnode | ⟨hway, -⟩ | ⟨hway, -⟩)
          · exact hnode
          · exact absurd hway hdirectory
          · exact absurd hway hfile

/-- The path of an entry's directory leads to a name below the place of the root. -/
theorem leadsTo_directory {index : Nat} (hindex : index < UInt64.size)
    (hroom : root.utf8ByteSize + 100 ≤ 4095)
    (hfollow : t.follow (t.start root) (Path.components root) = .ok place) :
    t.LeadsTo (Path.join root (Entry.directory index)) place (Entry.directory index) := by
  have hname := Entry.isName_directory hindex
  have hsize := Entry.size_name_lt hindex 0
  rw [Entry.size_name] at hsize
  rw [← List.append_nil (Path.components root)] at hfollow
  exact FileTree.leadsTo_join [] hname hname.components_eq hname.ne_empty hname.isRooted_eq
    hname.namesDirectory_eq (by omega) hfollow

/-- The path of an entry leads to a name in the entry's directory. -/
theorem leadsTo_entry {index : Nat} (hindex : index < UInt64.size) (eventType : UInt32)
    (hroom : root.utf8ByteSize + 100 ≤ 4095)
    (hfollow : t.follow (t.start root) (Path.components root ++ [Entry.directory index]) =
      .ok place) :
    t.LeadsTo (Path.join root (Entry.name index eventType)) place
      (Entry.baseName index eventType) := by
  have hsize := Entry.size_name_lt hindex eventType
  exact FileTree.leadsTo_join [Entry.directory index] (Entry.isName_baseName hindex eventType)
    (Entry.components_name hindex eventType) (Entry.name_ne_empty hindex eventType)
    (Entry.isRooted_name hindex eventType) (Entry.namesDirectory_name hindex eventType)
    (by omega) hfollow

/-- The directory of the next entry is made, if it is missing, and then the file in it, which is
filled and dated. -/
theorem Holds.exists_steps (hfresh : files.Fresh root made place) (h : Holds made place events t)
    (hcount : events.length < UInt64.size) (e : Event) :
    ∃ opened created filled dated : FileTree,
      t.makeDirectories (Path.join root (Entry.directory events.length)) = .ok opened ∧
      opened.create (Path.join root (Entry.name events.length e.eventType)) = .ok created ∧
      created.find (Path.join root (Entry.name events.length e.eventType)) =
        .ok (.file [] none) ∧
      created.change (Path.join root (Entry.name events.length e.eventType))
        (fun content modified => (content ++ Entry.content e, modified)) = .ok filled ∧
      filled.change (Path.join root (Entry.name events.length e.eventType))
        (fun content _ => (content, some e.context.timestamp)) = .ok dated ∧
      Holds made place (events ++ [e]) dated := by
  have hroot := h.follow_eq hfresh
  -- The directory is made or stands already; in both cases it is a directory afterwards.
  obtain ⟨opened, hmake, hkeeps, hcurrent, hnode⟩ :=
    (leadsTo_directory hcount hfresh.size_le hroot).exists_makeDirectories_eq
      (h.node?_directory (Entry.directory events.length))
  have hfollow : opened.follow (opened.start root)
      (Path.components root ++ [Entry.directory events.length]) =
        .ok (place ++ [Entry.directory events.length]) := by
    have hstart : opened.start root = t.start root := by
      rw [FileTree.start, FileTree.start, hcurrent]
    rw [FileTree.follow_append, hstart, hkeeps.follow_eq hroot]
    exact FileTree.follow_of_directory (Entry.isName_directory hcount) (by rw [hnode, if_pos rfl])
  have hplace : place ++ [Entry.directory events.length] ++
      [Entry.baseName events.length e.eventType] =
        place ++ [Entry.directory events.length, Entry.baseName events.length e.eventType] :=
    List.append_assoc place _ _
  -- No file of this number has been written, so creating it overwrites nothing.
  have hnone : opened.node? (place ++ [Entry.directory events.length] ++
      [Entry.baseName events.length e.eventType]) = none := by
    have hne : [Entry.directory events.length, Entry.baseName events.length e.eventType] ≠
        [Entry.directory events.length] := by
      intro heq
      cases heq
    rw [hplace, hnode, if_neg fun heq => hne (List.append_cancel_left heq), h.node?_next]
  obtain ⟨created, filled, dated, hcreate, hfind, hfill, hdate, hcurrentFile, hnodeFile⟩ :=
    (leadsTo_entry hcount e.eventType hfresh.size_le hfollow).exists_written hnone
      (Entry.content e) e.context.timestamp
  refine ⟨opened, created, filled, dated, hmake, hcreate, hfind, hfill, hdate,
    h.concat (hcurrentFile.trans hcurrent) fun other => ?_⟩
  rw [hnodeFile, hplace, hnode]

/-- **An event that is written adds its entry.** -/
theorem exists_write_eq (hfresh : files.Fresh root made place) {w : World}
    (h : Holds made place events w.files) (hcount : events.length < UInt64.size) (e : Event) :
    ∃ files : FileTree,
      EntryTree.write (m := StateM World) { root, written := events.length } e w =
        (.ok (Entry.name events.length e.eventType, { root, written := events.length + 1 }),
          { w with files }) ∧
      Holds made place (events ++ [e]) files := by
  obtain ⟨opened, created, filled, dated, hmake, hcreate, hfind, hfill, hdate, hholds⟩ :=
    h.exists_steps hfresh hcount e
  let path := Path.join root (Entry.name events.length e.eventType)
  -- The four steps one after another, each in the world that the one before it left.
  have hmake' : Workspace.makeDirectories (m := StateM World)
      (Path.join root (Entry.directory events.length)) w = (.ok (), { w with files := opened }) :=
    World.modifyFiles_eq (w := w) hmake
  have hcreate' : Workspace.createFile (m := StateM World) path { w with files := opened } =
      (.ok (), { w with files := created }) :=
    World.modifyFiles_eq (w := { w with files := opened }) hcreate
  have hfill' : Workspace.appendFile (m := StateM World) path (Entry.content e)
      { w with files := created } = (.ok (), { w with files := filled }) :=
    World.appendFile_eq (w := { w with files := created }) hfind hfill
  have hdate' : Workspace.setModified (m := StateM World) path e.context.timestamp
      { w with files := filled } = (.ok (), { w with files := dated }) :=
    World.modifyFiles_eq (w := { w with files := filled }) hdate
  refine ⟨dated, ?_, hholds⟩
  rw [EntryTree.write]
  refine (Workspace.bind_eq_of_ok (Workspace.attempt_eq_ok hmake')).trans ?_
  refine (Workspace.bind_eq_of_ok (Workspace.attempt_eq_ok hcreate')).trans ?_
  refine (Workspace.bind_eq_of_ok (Workspace.attempt_eq_ok hfill')).trans ?_
  exact Workspace.bind_eq_of_ok (Workspace.attempt_eq_ok hdate')

/-- Items that are written add the entries of their events, up to the error if there is one. -/
theorem exists_writeItems_eq (hfresh : files.Fresh root made place) {written : List Event} {w : World}
    (h : Holds made place written w.files) {events : List Event}
    (hcount : written.length + events.length ≤ UInt64.size) (error : Option LogError) :
    ∃ files : FileTree,
      EntryTree.writeItems (m := StateM World) { root, written := written.length }
          (eventsThen events error) w =
        (error.elim (.ok (written.length + events.length)) .error, { w with files }) ∧
      Holds made place (written ++ events) files := by
  -- The invariant is `Holds` over the events written so far, which therefore stay free.
  induction events generalizing written w with
  | nil =>
      rw [List.append_nil]
      cases error <;> exact ⟨w.files, rfl, h⟩
  | cons e events ih =>
      rw [List.length_cons] at hcount
      obtain ⟨files, hwrite, hholds⟩ := exists_write_eq hfresh h (by omega) e
      have hlength : (written ++ [e]).length = written.length + 1 := List.length_append
      obtain ⟨files', hrest, hholds'⟩ :=
        ih (w := { w with files }) hholds (by omega)
      rw [List.append_assoc, List.singleton_append] at hholds'
      refine ⟨files', ?_, hholds'⟩
      rw [eventsThen_cons, writeItems]
      refine (Workspace.bind_eq_of_ok hwrite).trans ?_
      rw [hlength] at hrest
      rw [List.length_cons, ← Nat.add_assoc, Nat.add_right_comm]
      exact hrest

/-- **A walk leaves the entries of its events**, and nothing else, below a root where nothing stood,
and comes to their number or to the error of the log. -/
theorem exists_writeEvents_eq {w : World} (hfresh : w.files.Fresh root made place)
    {it : EventIterator} {error : Option LogError} (hitems : it.items = eventsThen events error)
    (hcount : events.length ≤ UInt64.size) :
    ∃ files : FileTree,
      EntryTree.writeEvents (m := StateM World) it root w =
        (error.elim (.ok events.length) .error, { w with files }) ∧
      Holds made place events files := by
  have hmake : Workspace.makeDirectories (m := StateM World) root w =
      (.ok (), { w with files := made }) :=
    World.modifyFiles_eq (w := w) hfresh.makeDirectories_eq
  have hstart : EntryTree.start (m := StateM World) root w =
      (.ok { root, written := 0 }, { w with files := made }) :=
    Workspace.bind_eq_of_ok (Workspace.attempt_eq_ok hmake)
  have hcount' : ([] : List Event).length + events.length ≤ UInt64.size := by
    rwa [List.length_nil, Nat.zero_add]
  obtain ⟨files, hwrite, hholds⟩ := exists_writeItems_eq hfresh (w := { w with files := made })
    (holds_nil hfresh) hcount' error
  refine ⟨files, ?_, hholds⟩
  rw [writeEvents, hitems]
  refine (Workspace.bind_eq_of_ok hstart).trans (hwrite.trans ?_)
  rw [List.length_nil, Nat.zero_add]

end Writing

/-- The files below the root are those of the entries. -/
theorem Holds.file_iff {made t : FileTree} {place : List String} {events : List Event}
    (h : Holds made place events t) (hcount : events.length ≤ UInt64.size) {way : List String}
    (hway : way ≠ []) (content : List UInt8) (modified : Option Int64) :
    t.node? (place ++ way) = some (.file content modified) ↔
      ∃ (i : Nat) (e : Event), events[i]? = some e ∧
        way = Path.components (Entry.name i e.eventType) ∧ content = Entry.content e ∧
        modified = some e.context.timestamp := by
  have hname {i : Nat} {e : Event} (he : events[i]? = some e) :
      Path.components (Entry.name i e.eventType) =
        [Entry.directory i, Entry.baseName i e.eventType] :=
    Entry.components_name
      (Nat.lt_of_lt_of_le (List.getElem?_eq_some_iff.mp he).1 hcount) e.eventType
  -- Only the second alternative of `Puts` is a file; the first is a directory.
  rw [h.node?_below way _ hway]
  constructor
  · rintro ⟨i, e, he, ⟨-, hnode⟩ | ⟨hway, hnode⟩⟩
    · cases hnode
    · rw [FileNode.file.injEq] at hnode
      exact ⟨i, e, he, hway.trans (hname he).symm, hnode.1, hnode.2⟩
  · rintro ⟨i, e, he, hpath, hcontent, hmodified⟩
    refine ⟨i, e, he, Or.inr ⟨hpath.trans (hname he), ?_⟩⟩
    rw [hcontent, hmodified]

end EntryTree

end EventLog
