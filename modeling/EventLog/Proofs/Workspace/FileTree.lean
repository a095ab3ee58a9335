import EventLog.Control.Outcome
import EventLog.Proofs.Workspace.Path
import EventLog.Workspace.FileTree

set_option autoImplicit false

/-! # Steps in a file system

What a path leads to (`FileTree.LeadsTo`) stays the same as long as directories stay
(`FileTree.KeepsDirectories`), and making a directory, a file or its contents in the directory that
a path leads to changes one place and no other.
-/

namespace EventLog.FileTree

variable {t t' : FileTree} {start place reached : List String} {name : String}

/-! ## Following -/

theorem child?_eq (t : FileTree) (place : List String) (h : Path.IsName name) :
    t.child? place name = .ok (t.node? (place ++ [name])) := by
  rw [child?, h.not_tooLong]
  rfl

theorem follow_append (t : FileTree) (place front back : List String) :
    t.follow place (front ++ back) =
      t.follow place front >>= fun reached => t.follow reached back := by
  induction front generalizing place with
  | nil => rfl
  | cons name front ih =>
      rw [List.cons_append, follow, follow]
      split
      · exact ih place
      · split
        · exact ih place.dropLast
        · split <;> first | exact ih _ | rfl

theorem follow_of_directory {sized : Bool} (h : Path.IsName name)
    (hnode : t.node? (place ++ [name]) = some (.directory sized)) :
    t.follow place [name] = .ok (place ++ [name]) := by
  rw [follow, if_neg h.ne_dot, if_neg h.ne_dots, child?_eq t place h, hnode]
  rfl

/-- Every directory of the first file system is one of the second. -/
def KeepsDirectories (t t' : FileTree) : Prop :=
  ∀ place sized, t.node? place = some (.directory sized) → t'.node? place = some (.directory sized)

theorem KeepsDirectories.follow_eq (h : t.KeepsDirectories t') {components : List String}
    (hfollow : t.follow start components = .ok reached) :
    t'.follow start components = .ok reached := by
  -- On the components: every step goes through a directory, and directories stay.
  induction components generalizing start with
  | nil => exact hfollow
  | cons name components ih =>
      rw [follow] at hfollow ⊢
      split at hfollow
      · next hdot =>
          rw [if_pos hdot]
          exact ih hfollow
      · next hdot =>
          rw [if_neg hdot]
          split at hfollow
          · next hdots =>
              rw [if_pos hdots]
              exact ih hfollow
          · next hdots =>
              rw [if_neg hdots]
              split at hfollow
              · next sized hchild =>
                  have hchild' : t'.child? start name = .ok (some (.directory sized)) := by
                    rw [child?] at hchild ⊢
                    split at hchild
                    · cases hchild
                    · next hshort =>
                        rw [if_neg hshort, h _ _ (Except.ok.inj hchild)]
                  rw [hchild']
                  exact ih hfollow
              all_goals cases hfollow

theorem keepsDirectories_put {node : FileNode} (hplace : place ≠ [])
    (h : ∀ sized, t.node? place ≠ some (.directory sized)) :
    t.KeepsDirectories (t.put place node) := by
  intro other sized hother
  have hne : other ≠ place := by
    rintro rfl
    exact h sized hother
  rw [node?_put t node hplace, if_neg hne, hother]

/-! ## What a path leads to -/

/-- The path leads to what is called `name` in the directory at `place`, be it there or not. -/
structure LeadsTo (t : FileTree) (path : String) (place : List String) (name : String) : Prop where
  checkPath_eq : checkPath path = .ok ()
  namesDirectory_eq : Path.namesDirectory path = false
  isName : Path.IsName name
  components_eq : ∃ front, Path.components path = front ++ [name] ∧
    t.follow (t.start path) front = .ok place

variable {path : String}

theorem LeadsTo.locate_eq (h : t.LeadsTo path place name) :
    t.locate (t.start path) (Path.components path) = .ok (place, some name) := by
  obtain ⟨front, hcomponents, hfollow⟩ := h.components_eq
  have hdots : ¬ (name = "." ∨ name = "..") := not_or.mpr ⟨h.isName.ne_dot, h.isName.ne_dots⟩
  rw [hcomponents, locate, List.getLast?_concat, List.dropLast_concat]
  refine bind_eq_ok.mpr ⟨place, hfollow, ?_⟩
  rw [if_neg hdots]
  rfl

theorem LeadsTo.nodeAt_eq {node : FileNode} (h : t.LeadsTo path place name)
    (hnode : t.node? (place ++ [name]) = some node) :
    t.nodeAt (t.start path) (Path.components path) = .ok node := by
  refine bind_eq_ok.mpr ⟨_, h.locate_eq, bind_eq_ok.mpr ⟨_, child?_eq t place h.isName, ?_⟩⟩
  rw [hnode]
  rfl

theorem LeadsTo.find_eq {node : FileNode} (h : t.LeadsTo path place name)
    (hnode : t.node? (place ++ [name]) = some node) : t.find path = .ok node := by
  refine bind_eq_ok.mpr ⟨(), h.checkPath_eq, bind_eq_ok.mpr ⟨node, h.nodeAt_eq hnode, ?_⟩⟩
  rw [h.namesDirectory_eq]
  rfl

/-- A path leads to the same place after a step that keeps directories. -/
theorem LeadsTo.of_keeps (h : t.LeadsTo path place name) (hkeeps : t.KeepsDirectories t')
    (hcurrent : t'.current = t.current) : t'.LeadsTo path place name := by
  obtain ⟨front, hcomponents, hfollow⟩ := h.components_eq
  have hstart : t'.start path = t.start path := by rw [FileTree.start, FileTree.start, hcurrent]
  refine ⟨h.checkPath_eq, h.namesDirectory_eq, h.isName, front, hcomponents, ?_⟩
  rw [hstart]
  exact hkeeps.follow_eq hfollow

/-- A path below a directory leads to what its last component is called. -/
theorem leadsTo_join {directory rest : String} (front : List String) (hname : Path.IsName name)
    (hrest : Path.components rest = front ++ [name]) (hempty : rest ≠ "")
    (hrooted : Path.isRooted rest = false) (hends : Path.namesDirectory rest = false)
    (hsize : directory.utf8ByteSize + 1 + rest.utf8ByteSize ≤ 4095)
    (hfollow : t.follow (t.start directory) (Path.components directory ++ front) = .ok place) :
    t.LeadsTo (Path.join directory rest) place name := by
  have hshort : Path.isTooLong (Path.join directory rest) = false :=
    decide_eq_false (Nat.not_lt_of_le (Nat.le_trans (Path.utf8ByteSize_join_le _ _) hsize))
  have hstart : t.start (Path.join directory rest) = t.start directory := by
    rw [FileTree.start, FileTree.start, Path.isRooted_join directory hrooted]
  refine ⟨?_, ?_, hname, Path.components directory ++ front, ?_, ?_⟩
  · rw [checkPath, if_neg (Path.join_ne_empty directory hempty), hshort]
    rfl
  · rw [Path.namesDirectory_join directory hempty, hends]
  · rw [Path.components_join, hrest, List.append_assoc]
  · rw [hstart, hfollow]

/-! ## Making -/

theorem append_singleton_ne_nil (place : List String) (name : String) : place ++ [name] ≠ [] :=
  List.append_ne_nil_of_right_ne_nil place (List.cons_ne_nil name [])

theorem LeadsTo.path_ne_empty (h : t.LeadsTo path place name) : path ≠ "" := by
  rintro rfl
  cases h.checkPath_eq

/-- The directories above are there, so that only the last one is made. -/
theorem LeadsTo.makeDirectories_eq {made : FileTree} (h : t.LeadsTo path place name)
    (hmade : t.ensureDirectory (t.start path) (Path.components path) = .ok made) :
    t.makeDirectories path = .ok made := by
  rw [makeDirectories, if_neg h.path_ne_empty]
  refine bind_eq_ok.mpr ⟨(), h.checkPath_eq, ?_⟩
  simp only [hmade]

theorem LeadsTo.makeDirectory_eq (h : t.LeadsTo path place name) :
    t.makeDirectory (t.start path) (Path.components path) =
      if (t.node? (place ++ [name])).isSome then .error .alreadyExists
      else .ok (t.put (place ++ [name]) (.directory true)) := by
  rw [makeDirectory, h.locate_eq]
  show (t.child? place name >>= fun child => _) = _
  rw [child?_eq t place h.isName]
  cases t.node? (place ++ [name]) <;> rfl

/-- A directory is there after it was made, and nothing else has changed. -/
theorem LeadsTo.exists_makeDirectories_eq (h : t.LeadsTo path place name)
    (hnode : t.node? (place ++ [name]) = none ∨
      t.node? (place ++ [name]) = some (.directory true)) :
    ∃ made, t.makeDirectories path = .ok made ∧ t.KeepsDirectories made ∧
      made.current = t.current ∧
      ∀ other, made.node? other =
        if other = place ++ [name] then some (.directory true) else t.node? other := by
  rcases hnode with hnone | hdirectory
  · have hne := append_singleton_ne_nil place name
    refine ⟨t.put (place ++ [name]) (.directory true), h.makeDirectories_eq ?_,
      keepsDirectories_put hne fun sized => by rw [hnone]; nofun, rfl, t.node?_put _ hne⟩
    rw [ensureDirectory, h.makeDirectory_eq, hnone]
    rfl
  · refine ⟨t, h.makeDirectories_eq ?_, fun _ _ hkept => hkept, rfl, fun other => ?_⟩
    · simp only [ensureDirectory, h.makeDirectory_eq, h.nodeAt_eq hdirectory, hdirectory,
        Option.isSome_some, if_true]
    · split
      · next heq => rw [heq, hdirectory]
      · rfl

theorem LeadsTo.create_eq (h : t.LeadsTo path place name)
    (hnode : t.node? (place ++ [name]) = none) :
    t.create path = .ok (t.put (place ++ [name]) (.file [] none)) := by
  refine bind_eq_ok.mpr ⟨(), h.checkPath_eq, bind_eq_ok.mpr ⟨_, h.locate_eq, ?_⟩⟩
  show (if Path.namesDirectory path = true then _ else _) = _
  rw [h.namesDirectory_eq, if_neg Bool.false_ne_true]
  refine bind_eq_ok.mpr ⟨_, child?_eq t place h.isName, ?_⟩
  rw [hnode]
  rfl

theorem LeadsTo.change_eq {content : List UInt8} {modified : Option Int64}
    (h : t.LeadsTo path place name)
    (hnode : t.node? (place ++ [name]) = some (.file content modified))
    (f : List UInt8 → Option Int64 → List UInt8 × Option Int64) :
    t.change path f =
      .ok (t.put (place ++ [name]) (.file (f content modified).1 (f content modified).2)) := by
  refine bind_eq_ok.mpr ⟨(), h.checkPath_eq, bind_eq_ok.mpr ⟨_, h.locate_eq, ?_⟩⟩
  refine bind_eq_ok.mpr ⟨_, child?_eq t place h.isName, ?_⟩
  rw [hnode]
  rfl

/-- A path leads to what is put where it leads, unless a directory is overwritten. -/
theorem LeadsTo.put (h : t.LeadsTo path place name) (node : FileNode)
    (hnode : ∀ sized, t.node? (place ++ [name]) ≠ some (.directory sized)) :
    (t.put (place ++ [name]) node).LeadsTo path place name :=
  h.of_keeps (keepsDirectories_put (append_singleton_ne_nil place name) hnode) rfl

/-- **A file is made, filled and dated**, and nothing else has changed. -/
theorem LeadsTo.exists_written (h : t.LeadsTo path place name)
    (hnode : t.node? (place ++ [name]) = none) (bytes : List UInt8) (seconds : Int64) :
    ∃ created filled dated : FileTree,
      t.create path = .ok created ∧
      created.find path = .ok (.file [] none) ∧
      created.change path (fun content modified => (content ++ bytes, modified)) = .ok filled ∧
      filled.change path (fun content _ => (content, some seconds)) = .ok dated ∧
      dated.current = t.current ∧
      ∀ other, dated.node? other =
        if other = place ++ [name] then some (.file bytes (some seconds)) else t.node? other := by
  have hne := append_singleton_ne_nil place name
  have hput (t : FileTree) (node : FileNode) :
      (t.put (place ++ [name]) node).node? (place ++ [name]) = some node := by
    rw [node?_put t node hne, if_pos rfl]
  let created := t.put (place ++ [name]) (.file [] none)
  let filled := created.put (place ++ [name]) (.file bytes none)
  let dated := filled.put (place ++ [name]) (.file bytes (some seconds))
  -- The path still leads there after each change, since what is put is no directory.
  have hcreated : created.LeadsTo path place name :=
    h.put _ fun sized => by rw [hnode]; nofun
  have hfilled : filled.LeadsTo path place name :=
    hcreated.put _ fun sized => by rw [hput]; nofun
  refine ⟨created, filled, dated, h.create_eq hnode, hcreated.find_eq (hput _ _),
    hcreated.change_eq (hput _ _) _, hfilled.change_eq (hput _ _) _, rfl, fun other => ?_⟩
  rw [node?_put filled _ hne, node?_put created _ hne, node?_put t _ hne]
  split <;> rfl

/-! ## Files that are made -/

theorem exists_of_locate_eq {components : List String}
    (h : t.locate start components = .ok (place, some name)) :
    ∃ front, components = front ++ [name] ∧ name ≠ "." ∧ name ≠ ".." ∧
      t.follow start front = .ok place := by
  rw [locate] at h
  -- The last component is split off, and it names something within a directory.
  cases hlast : components.getLast? with
  | none =>
      rw [hlast] at h
      cases h
  | some last =>
      rw [hlast] at h
      obtain ⟨above, hfollow, h⟩ := bind_eq_ok.mp h
      split at h
      · cases h
      · next hdots =>
          cases h
          obtain ⟨front, rfl⟩ := List.getLast?_eq_some_iff.mp hlast
          rw [List.dropLast_concat] at hfollow
          exact ⟨front, rfl, (not_or.mp hdots).1, (not_or.mp hdots).2, hfollow⟩

theorem leadsTo_of_locate_eq {node? : Option FileNode} (hpath : checkPath path = .ok ())
    (hends : Path.namesDirectory path = false)
    (hlocate : t.locate (t.start path) (Path.components path) = .ok (place, some name))
    (hchild : t.child? place name = .ok node?) :
    t.LeadsTo path place name ∧ node? = t.node? (place ++ [name]) := by
  obtain ⟨front, hcomponents, hdot, hdots, hfollow⟩ := exists_of_locate_eq hlocate
  have hmem : name ∈ Path.components path :=
    hcomponents ▸ List.mem_append_right front (List.mem_singleton_self name)
  rw [child?] at hchild
  split at hchild
  · cases hchild
  · next hsize =>
      cases hchild
      exact ⟨⟨hpath, hends,
        Path.isName_of_mem_components hmem hdot hdots (Bool.eq_false_iff.mpr hsize),
        front, hcomponents, hfollow⟩, rfl⟩

/-- The path leads to a file that holds nothing yet, or to a device or a stream. -/
def IsMade (t : FileTree) (path : String) : Prop :=
  ∃ (place : List String) (name : String) (node : FileNode),
    t.LeadsTo path place name ∧ t.node? (place ++ [name]) = some node ∧ node.isDirectory = false ∧
    ∀ content modified, node = .file content modified → content = []

/-- **Where a file was made, its path leads to it**, unless it leads to a device or a stream. -/
theorem isMade_of_create (h : t.create path = .ok t') : t'.IsMade path := by
  obtain ⟨_, hpath, h⟩ := bind_eq_ok.mp h
  obtain ⟨⟨place, name?⟩, hlocate, h⟩ := bind_eq_ok.mp h
  cases name? with
  | none => cases h
  | some name =>
      cases hdirectory : Path.namesDirectory path with
      | true =>
          simp only [hdirectory] at h
          cases h
      | false =>
          simp only [hdirectory] at h
          obtain ⟨node?, hchild, h⟩ := bind_eq_ok.mp h
          obtain ⟨hleads, rfl⟩ := leadsTo_of_locate_eq hpath hdirectory hlocate hchild
          -- A device or a stream is opened as it is; a file is emptied or made.
          split at h
          · cases h
          · next kind hnode =>
              cases h
              exact ⟨place, name, .device kind, hleads, hnode, rfl, nofun⟩
          · next which hnode =>
              cases h
              exact ⟨place, name, .stream which, hleads, hnode, rfl, nofun⟩
          · next hnode _ _ =>
              cases h
              refine ⟨place, name, .file [] none, hleads.put _ hnode, ?_, rfl, ?_⟩
              · rw [node?_put t _ (append_singleton_ne_nil place name), if_pos rfl]
              · rintro _ _ ⟨⟩
                rfl

/-- A change to what a path leads to makes itself felt there, if that is a file. -/
theorem LeadsTo.exists_change_eq {node : FileNode} (h : t.LeadsTo path place name)
    (hnode : t.node? (place ++ [name]) = some node) (hdirectory : node.isDirectory = false)
    (f : List UInt8 → Option Int64 → List UInt8 × Option Int64) :
    ∃ changed, t.change path f = .ok changed ∧
      ∀ content modified, node = .file content modified →
        changed.find path = .ok (.file (f content modified).1 (f content modified).2) := by
  -- Only a file holds what is written to it.
  cases node with
  | file content modified =>
      have hput := h.put (.file (f content modified).1 (f content modified).2)
        fun sized => by rw [hnode]; nofun
      refine ⟨_, h.change_eq hnode f, ?_⟩
      rintro _ _ ⟨⟩
      refine hput.find_eq ?_
      rw [node?_put t _ (append_singleton_ne_nil place name), if_pos rfl]
  | directory sized => cases hdirectory
  | device kind =>
      refine ⟨t, bind_eq_ok.mpr ⟨(), h.checkPath_eq, bind_eq_ok.mpr ⟨_, h.locate_eq, ?_⟩⟩, nofun⟩
      refine bind_eq_ok.mpr ⟨_, child?_eq t place h.isName, ?_⟩
      rw [hnode]
      rfl
  | stream which =>
      refine ⟨t, bind_eq_ok.mpr ⟨(), h.checkPath_eq, bind_eq_ok.mpr ⟨_, h.locate_eq, ?_⟩⟩, nofun⟩
      refine bind_eq_ok.mpr ⟨_, child?_eq t place h.isName, ?_⟩
      rw [hnode]
      rfl

end EventLog.FileTree
