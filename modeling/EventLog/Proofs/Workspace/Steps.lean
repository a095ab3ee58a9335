import EventLog.Proofs.Workspace.FileTree
import EventLog.Workspace.Model

set_option autoImplicit false

/-! # Steps in a world

Steps that succeed hand their results on, and a sequence of steps succeeds only if each of them
does. Bytes put into a file that was just made are what it holds (`World.exists_appendFile_eq`).
-/

namespace EventLog

namespace Workspace

variable {ε α β : Type} {w w' : World} {a : α}

/-! ## Steps that succeed -/

theorem attempt_eq_ok {x : StateM World (Except String α)} (h : x w = (.ok a, w')) :
    (attempt x : ExceptT LogError (StateM World) α) w = (.ok a, w') := by
  simp only [attempt, ExceptT.mk, bind, StateT.bind, h]
  rfl

theorem bindState_eq {x : StateM World α} {f : α → StateM World β} (h : x w = (a, w')) :
    (x >>= f) w = f a w' := by
  simp only [bind, StateT.bind, h]

theorem lift_eq {x : StateM World α} (h : x w = (a, w')) :
    (ExceptT.lift x : ExceptT ε (StateM World) α) w = (.ok a, w') := by
  simp only [ExceptT.lift, ExceptT.mk, Functor.map, StateT.map, h]
  rfl

theorem bind_eq_of_ok {x : ExceptT ε (StateM World) α} {f : α → ExceptT ε (StateM World) β}
    (h : x w = (.ok a, w')) : (x >>= f) w = f a w' := by
  simp only [bind, ExceptT.bind, ExceptT.mk, StateT.bind, h]
  rfl

theorem bind_eq_of_error {x : ExceptT ε (StateM World) α} {f : α → ExceptT ε (StateM World) β}
    {e : ε} (h : x w = (.error e, w')) : (x >>= f) w = (.error e, w') := by
  simp only [bind, ExceptT.bind, ExceptT.mk, StateT.bind, h]
  rfl

theorem exists_of_bind_eq_ok {x : ExceptT ε (StateM World) α} {f : α → ExceptT ε (StateM World) β}
    {b : β} (h : (x >>= f) w = (.ok b, w')) :
    ∃ a between, x w = (.ok a, between) ∧ f a between = (.ok b, w') := by
  cases hx : x w with
  | mk result between =>
      cases result with
      | error e =>
          rw [bind_eq_of_error hx] at h
          cases h
      | ok a =>
          rw [bind_eq_of_ok hx] at h
          exact ⟨a, between, rfl, h⟩

end Workspace

namespace World

variable {w : World} {files : FileTree}

theorem modifyFiles_eq {f : FileTree → Except SystemFault FileTree} (h : f w.files = .ok files) :
    modifyFiles f w = (.ok (), { w with files }) := by
  rw [modifyFiles, h]

theorem appendFile_eq {path : String} {bytes content : List UInt8} {modified : Option Int64}
    (hfind : w.files.find path = .ok (.file content modified))
    (hchange : w.files.change path (fun content modified => (content ++ bytes, modified)) =
      .ok files) :
    appendFile path bytes w = (.ok (), { w with files }) := by
  rw [appendFile, hfind]
  exact modifyFiles_eq hchange

/-- **A file that was made holds what is put into it.** What else was made in its place takes it
too, unless it has no room. -/
theorem exists_appendFile_eq {path : String} (hmade : w.files.IsMade path)
    (hroom : w.files.find path ≠ .ok (.device .full)) (bytes : List UInt8) :
    ∃ w' : World, appendFile path bytes w = (.ok (), w') ∧
      ∀ content modified, w.files.find path = .ok (.file content modified) →
        w'.files.find path = .ok (.file bytes modified) := by
  obtain ⟨place, name, node, hleads, hnode, hdirectory, hempty⟩ := hmade
  have hfind : w.files.find path = .ok node := hleads.find_eq hnode
  obtain ⟨changed, hchange, hchanged⟩ := hleads.exists_change_eq hnode hdirectory
    fun content modified => (content ++ bytes, modified)
  have hmodify : modifyFiles (fun t => t.change path fun content modified =>
      (content ++ bytes, modified)) w = (.ok (), { w with files := changed }) :=
    modifyFiles_eq hchange
  rw [appendFile, hfind]
  -- Of all that can be opened to write, only the full device refuses the bytes.
  cases node with
  | file content modified =>
      refine ⟨_, hmodify, fun content' modified' hfile => ?_⟩
      cases hfile
      have hbytes := hchanged content modified rfl
      rwa [hempty content modified rfl] at hbytes
  | directory sized => cases hdirectory
  | device kind =>
      cases kind with
      | null => exact ⟨_, hmodify, nofun⟩
      | full => exact absurd hfind hroom
  | stream which =>
      cases which with
      | input => exact ⟨_, hmodify, nofun⟩
      | output => exact ⟨_, rfl, nofun⟩
      | messages => exact ⟨_, rfl, nofun⟩

end World

end EventLog
