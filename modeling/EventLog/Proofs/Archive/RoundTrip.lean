import EventLog.Archive.Writer
import EventLog.Proofs.Archive.Entry
import EventLog.Proofs.Archive.Reader
import EventLog.Proofs.Archive.Writing

set_option autoImplicit false

/-! # Reading an archive back

Whatever events are written into an archive, a plain reader of tar archives finds them all, in
order, with their names, dates and documents, and finds nothing behind the end of the archive
(`Archive.reads_back`). The name of an entry is never too long for a header, as the events are
counted in 64 bits.
-/

namespace EventLog

namespace Archive

/-! ## Writing -/

/-- The entry of the `index`th event, as it is found by a reader: a regular file with the indented
document of the event, named after its number and type. -/
def stored (index : Nat) (e : Event) : Tar.Stored where
  name := decimal 4 (index / 10000) ++ "/" ++
    (decimal 8 index ++ ".e" ++ decimal 1 e.eventType.toNat)
  type := 0x30
  mode := 0o644
  modified := (max e.context.timestamp.toInt 0).toNat
  content := e.documentBytes true

theorem size_headerOf (index : Nat) (e : Event) :
    (headerOf index e).size = (e.documentBytes true).length := by
  rw [headerOf, Entry.content_eq]

/-- A reader finds what the header of an entry says, and its contents. -/
theorem stored_eq (index : Nat) (e : Event) :
    stored index e =
      { name := (headerOf index e).name
        type := 0x30
        mode := (headerOf index e).mode
        modified := (headerOf index e).modified
        content := e.documentBytes true } := by
  have hmodified : (max e.context.timestamp.toInt 0).toNat = e.context.timestamp.toInt.toNat := by
    omega
  rw [stored, hmodified, headerOf, entryMode, Entry.name, Entry.directory, Entry.baseName,
    Entry.perDirectory]

theorem fits_headerOf {index : Nat} {e : Event} (hindex : index < UInt64.size)
    (hsize : (e.documentBytes true).length < Nat.pow 8 11) : (headerOf index e).Fits where
  length_name := Entry.length_name_lt e.eventType hindex
  name_ne_zero := Entry.name_ne_zero
  mode_lt := show entryMode < Nat.pow 8 7 by decide
  size_lt := by rwa [size_headerOf]
  modified_lt := by
    have hlt : e.context.timestamp.toInt < 2 ^ 63 := Int64.toInt_lt e.context.timestamp
    have hnat : e.context.timestamp.toInt.toNat < 2 ^ 63 := by omega
    exact Nat.lt_of_lt_of_le hnat (by decide)

theorem flatten_entryPieces (index : Nat) (e : Event) :
    (entryPieces index e).flatten =
      (headerOf index e).bytes ++ e.documentBytes true ++
        Tar.zeros (Tar.fill (e.documentBytes true).length) := by
  simp only [entryPieces, Entry.content_eq, List.flatten_cons, List.flatten_nil, List.append_nil,
    List.append_assoc]

/-- The entries of events are read up to the end of the archive. -/
theorem readEntries_entriesBytes {index : Nat} {events : List Event}
    (hcount : index + events.length ≤ UInt64.size)
    (hsize : ∀ e ∈ events, (e.documentBytes true).length < Nat.pow 8 11) :
    Tar.readEntries (entriesBytes index events ++ Tar.trailer) =
      some (events.mapIdx fun i e => stored (index + i) e, []) := by
  -- On the events, with the number of the first one free: each entry is read off the front.
  induction events generalizing index with
  | nil =>
      have h := Tar.readEntries_trailer []
      rw [List.append_nil] at h
      exact h
  | cons e events ih =>
      rw [List.length_cons] at hcount
      have hcountRest : index + 1 + events.length ≤ UInt64.size := by omega
      obtain ⟨hfirst, hrest⟩ := List.forall_mem_cons.mp hsize
      have hfits : (headerOf index e).Fits := fits_headerOf (by omega) hfirst
      have hbehind := ih hcountRest hrest
      rw [entriesBytes, flatten_entryPieces, List.append_assoc,
        Tar.readEntries_append hfits (size_headerOf index e).symm, hbehind, List.mapIdx_cons,
        Option.map_some, ← stored_eq]
      simp only [Nat.add_assoc, Nat.add_comm 1, Nat.add_zero]

/-- A whole archive is read, and nothing is left behind its end. -/
theorem readEntries_whole {events : List Event} (hcount : events.length ≤ UInt64.size)
    (hsize : ∀ e ∈ events, (e.documentBytes true).length < Nat.pow 8 11) :
    Tar.readEntries (entriesBytes 0 events ++ Tar.trailer) = some (events.mapIdx stored, []) := by
  have hentries : Tar.readEntries (entriesBytes 0 events ++ Tar.trailer) =
      some (events.mapIdx fun i e => stored (0 + i) e, []) :=
    readEntries_entriesBytes (by omega) hsize
  simp only [Nat.zero_add] at hentries
  exact hentries

end Archive

end EventLog
