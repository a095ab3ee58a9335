import EventLog.Proofs.Wire.InTurn

set_option autoImplicit false

/-! # Reading a buffer by positions

A log can also be read without taking it apart: as a buffer with positions in it, where every sum
and every difference of positions could leave its range. A step that comes to such a number halts
with a breach, which is not a fault of the log.

A `Place` is a position in a buffer. Where the buffer has room behind it, the readers of elements at
a place do what those at its cursor do, and no breach is among it (`Buffer.Agrees`).
-/

namespace EventLog.Buffer

/-- What a step over a buffer must not come to. -/
inductive Breach where
  /-- A difference whose right side is the greater one. -/
  | difference (left right : Nat)
  /-- A sum that does not fit in 64 bits. -/
  | sum (left right : Nat)
  /-- A branch that a check before it has closed, with the fault that it would report. -/
  | closedBranch (fault : Fault)
  deriving DecidableEq, Repr

/-- Why a step gives nothing. -/
inductive Halt where
  | breach (breach : Breach)
  | fault (fault : Fault)
  deriving DecidableEq, Repr

/-! ## Numbers and slices -/

/-- The difference of two numbers, which has to be a number. -/
def minus (left right : Nat) : Except Halt Nat :=
  if right ≤ left then .ok (left - right) else .error (.breach (.difference left right))

def plus (left right : Nat) : Except Halt Nat :=
  if left + right < 2 ^ 64 then .ok (left + right) else .error (.breach (.sum left right))

/-- The bytes between two positions, if they are positions of the buffer in their order. -/
def slice? (buffer : List UInt8) (start stop : Nat) : Option (List UInt8) :=
  if start ≤ stop ∧ stop ≤ buffer.length then some ((buffer.drop start).take (stop - start))
  else none

def bytesAt (buffer : List UInt8) (start n : Nat) : Except Halt (Option (List UInt8)) := do
  let stop ← plus start n
  return slice? buffer start stop

theorem minus_of_le {left right : Nat} (h : right ≤ left) :
    minus left right = .ok (left - right) := if_pos h

theorem plus_of_lt {left right : Nat} (h : left + right < 2 ^ 64) :
    plus left right = .ok (left + right) := if_pos h

theorem plus_eq_ok {left right sum : Nat} (h : plus left right = .ok sum) :
    left + right = sum := by
  unfold plus at h
  split at h
  · exact Except.ok.inj h
  · cases h

theorem slice?_of_le {buffer : List UInt8} {start n : Nat} (h : start + n ≤ buffer.length) :
    slice? buffer start (start + n) = some ((buffer.drop start).take n) := by
  rw [slice?, if_pos ⟨Nat.le_add_right start n, h⟩, Nat.add_sub_cancel_left]

theorem slice?_of_lt {buffer : List UInt8} {start stop : Nat} (h : buffer.length < stop) :
    slice? buffer start stop = none := if_neg fun hin => Nat.not_le.mpr h hin.2

theorem bytesAt_of_lt {buffer : List UInt8} {start n : Nat} (h : start + n < 2 ^ 64) :
    bytesAt buffer start n = .ok (slice? buffer start (start + n)) := by
  rw [bytesAt, plus_of_lt h]
  rfl

/-! ## Places -/

/-- A position in a buffer that starts at position `base` of the log. -/
structure Place where
  buffer : List UInt8
  pos : Nat
  base : Nat

namespace Place

/-- The position in the log. -/
def position (p : Place) : Except Halt Nat := plus p.base p.pos

def cutOff {α : Type} (p : Place) (element : Element) (n : Nat) : Except Halt α := do
  let offset ← p.position
  -- What is left behind the end of the buffer counts as nothing.
  .error (.fault (.truncated element offset n (p.buffer.length - p.pos)))

def slice (p : Place) (element : Element) (n : Nat) : Except Halt (List UInt8) := do
  match ← bytesAt p.buffer p.pos n with
  | some bytes => .ok bytes
  | none => p.cutOff element n

/-- The place at a position of a buffer, which may be its end. -/
def enter (buffer : List UInt8) (pos base : Nat) : Except Halt Place := do
  let p : Place := { buffer, pos, base }
  let _ ← p.slice .start 0
  return p

def take (p : Place) (element : Element) (n : Nat) : Except Halt (List UInt8 × Place) := do
  let bytes ← p.slice element n
  let pos ← plus p.pos n
  return (bytes, { p with pos })

def number (p : Place) (element : Element) (n : Nat) : Except Halt (Nat × Place) := do
  let (bytes, p) ← p.take element n
  return (ofLittleEndian bytes, p)

def uuid (p : Place) : Except Halt (Uuid × Place) := do
  let (bytes, next) ← p.take .uuid 16
  -- Sixteen bytes were taken, but only their number says so.
  if h : bytes.length = 16 then .ok (⟨bytes, h⟩, next) else p.cutOff .uuid 16

def address (p : Place) : Except Halt (Address × Place) := do
  let (bytes, p) ← p.take .address 16
  return (Address.ofBytes bytes, p)

def string (p : Place) : Except Halt (String × Place) := do
  let (length, p) ← p.number .string 4
  let start ← p.position
  let (bytes, next) ← p.take .string length
  match Utf8.toString? bytes with
  | .ok s => .ok (s, next)
  | .error source => do
      let offset ← plus start source.validUpTo
      .error (.fault (.encoding source offset))

/-- Reads a field of the given layout; where it starts is reported before. -/
def field (p : Place) (layout : Layout) : Except Halt (FieldValue × Place) := do
  let _ ← p.position
  match layout with
  | .uuid => do
      let (u, p) ← p.uuid
      return (.uuid u, p)
  | .string | .nonEmptyString => do
      let (s, p) ← p.string
      return (.string s, p)
  | .integer primitive => do
      let (n, p) ← p.number (.integer primitive) primitive.size
      return (primitive.value n, p)

/-! ## Places with room behind them -/

def cursor (p : Place) : Cursor := .of p.buffer p.pos p.base

/-- The place is in its buffer, and the buffer ends where positions in the log have room for any
length that a string can have. -/
structure Sound (p : Place) : Prop where
  pos_le : p.pos ≤ p.buffer.length
  stop_lt : p.base + p.buffer.length < 2 ^ 63

/-- One place is behind another in their buffer, or the same. -/
structure Reaches (p q : Place) : Prop where
  buffer_eq : q.buffer = p.buffer
  base_eq : q.base = p.base
  pos_le : p.pos ≤ q.pos
  le_length : q.pos ≤ p.buffer.length

variable {p q r : Place}

theorem Reaches.sound (h : p.Reaches q) (hp : p.Sound) : q.Sound where
  pos_le := by
    rw [h.buffer_eq]
    exact h.le_length
  stop_lt := by
    rw [h.base_eq, h.buffer_eq]
    exact hp.stop_lt

theorem Sound.reaches_self (hp : p.Sound) : p.Reaches p := ⟨rfl, rfl, Nat.le_refl _, hp.pos_le⟩

theorem Reaches.trans (h : p.Reaches q) (h' : q.Reaches r) : p.Reaches r where
  buffer_eq := h'.buffer_eq.trans h.buffer_eq
  base_eq := h'.base_eq.trans h.base_eq
  pos_le := Nat.le_trans h.pos_le h'.pos_le
  le_length := h.buffer_eq ▸ h'.le_length

/-- The position of a place follows from that of one before it and the bytes between them. -/
theorem Reaches.plus_eq (h : p.Reaches q) (hp : p.Sound) :
    plus p.pos (q.pos - p.pos) = .ok q.pos := by
  have hsum : p.pos + (q.pos - p.pos) = q.pos := Nat.add_sub_cancel' h.pos_le
  have hle := h.le_length
  have hstop := hp.stop_lt
  rw [plus_of_lt (by omega), hsum]

theorem Sound.position_eq (hp : p.Sound) : p.position = .ok p.cursor.position := by
  have := hp.pos_le
  have := hp.stop_lt
  exact plus_of_lt (by omega)

theorem cursor_move (p : Place) (n : Nat) :
    cursor { p with pos := p.pos + n } = p.cursor.advance n :=
  (Cursor.advance_of p.buffer p.pos p.base n).symm

theorem length_rest_cursor (p : Place) : p.cursor.rest.length = p.buffer.length - p.pos :=
  List.length_drop

theorem Sound.cutOff_eq {α : Type} (hp : p.Sound) (element : Element) (n : Nat) :
    p.cutOff (α := α) element n = .error (.fault (p.cursor.cutOff element n)) := by
  rw [cutOff, hp.position_eq, Cursor.cutOff, length_rest_cursor]
  rfl

/-- No element has a length of more than 32 bits, so that its end has room too. -/
theorem Sound.slice_eq (hp : p.Sound) (element : Element) {n : Nat} (hn : n < UInt32.size) :
    p.slice element n =
      if hasAtLeast n p.cursor.rest then .ok (p.cursor.rest.take n)
      else .error (.fault (p.cursor.cutOff element n)) := by
  have hpos := hp.pos_le
  have hstop := hp.stop_lt
  rw [UInt32.size] at hn
  rw [slice, bytesAt_of_lt (by omega)]
  by_cases hroom : p.pos + n ≤ p.buffer.length
  · rw [slice?_of_le hroom, if_pos]
    · rfl
    · rw [hasAtLeast_iff, length_rest_cursor]
      omega
  · rw [slice?_of_lt (Nat.not_le.mp hroom), if_neg]
    · exact hp.cutOff_eq element n
    · rw [hasAtLeast_iff, length_rest_cursor]
      omega

theorem enter_of_le {buffer : List UInt8} {pos base : Nat}
    (hp : Sound { buffer, pos, base }) : enter buffer pos base = .ok { buffer, pos, base } := by
  rw [enter, hp.slice_eq .start (by decide)]
  rfl

end Place

/-! ## Agreement -/

/-- The fault is not about a position behind the end of a buffer. -/
def Inside : Fault → Prop
  | .truncated element .. => element ≠ .start
  | _ => True

/-- A step at a place does what one at a cursor does: both report the same fault, which is not about
the place itself, or both give the same value and stand at the same place behind it. -/
def Agrees {α : Type} (p : Place) (x : Except Halt (α × Place)) (y : Except Fault (α × Cursor)) :
    Prop :=
  (∃ fault, x = .error (.fault fault) ∧ y = .error fault ∧ Inside fault) ∨
    ∃ a q, x = .ok (a, q) ∧ y = .ok (a, q.cursor) ∧ p.Reaches q

section Sequences

variable {α β : Type} {p : Place}

theorem agrees_error {fault : Fault} (h : Inside fault) :
    Agrees (α := α) p (.error (.fault fault)) (.error fault) := .inl ⟨fault, rfl, rfl, h⟩

theorem agrees_ok (a : α) {q : Place} (h : p.Reaches q) :
    Agrees p (.ok (a, q)) (.ok (a, q.cursor)) := .inr ⟨a, q, rfl, rfl, h⟩

/-- Steps that agree do so one after another. -/
theorem Agrees.bind {x : Except Halt (α × Place)} {y : Except Fault (α × Cursor)}
    {f : α × Place → Except Halt (β × Place)} {g : α × Cursor → Except Fault (β × Cursor)}
    (hp : p.Sound) (h : Agrees p x y)
    (hthen : ∀ a q, y = .ok (a, q.cursor) → q.Sound → Agrees q (f (a, q)) (g (a, q.cursor))) :
    Agrees p (x >>= f) (y >>= g) := by
  rcases h with ⟨fault, rfl, rfl, hin⟩ | ⟨a, q, rfl, rfl, hq⟩
  · exact agrees_error hin
  · rcases hthen a q rfl (hq.sound hp) with ⟨fault, hx, hy, hin⟩ | ⟨b, r, hx, hy, hr⟩
    · exact .inl ⟨fault, hx, hy, hin⟩
    · exact .inr ⟨b, r, hx, hy, hq.trans hr⟩

theorem Agrees.map {x : Except Halt (α × Place)} {y : Except Fault (α × Cursor)} (f : α → β)
    (hp : p.Sound) (h : Agrees p x y) :
    Agrees p (x >>= fun (a, q) => .ok (f a, q)) (y >>= fun (a, c) => .ok (f a, c)) :=
  h.bind hp fun a _ _ hq => agrees_ok (f a) hq.reaches_self

end Sequences

/-! ## Elements -/

namespace Place.Sound

variable {p : Place}

/-- The bytes of an element are taken where the buffer has them. -/
theorem take_cases (hp : p.Sound) (element : Element) {n : Nat} (hn : n < UInt32.size) :
    (¬ hasAtLeast n p.cursor.rest ∧
      p.take element n = .error (.fault (p.cursor.cutOff element n))) ∨
    ∃ q, hasAtLeast n p.cursor.rest ∧ p.take element n = .ok (p.cursor.rest.take n, q) ∧
      q.cursor = p.cursor.advance n ∧ p.Reaches q := by
  by_cases hroom : hasAtLeast n p.cursor.rest
  · have hle := hasAtLeast_iff.mp hroom
    rw [length_rest_cursor] at hle
    have hpos := hp.pos_le
    have hstop := hp.stop_lt
    -- The buffer is below 2⁶³ bytes, so the checked sum stays in range.
    have hend : p.pos + n ≤ p.buffer.length := by omega
    refine .inr ⟨{ p with pos := p.pos + n }, hroom, ?_, cursor_move p n,
      ⟨rfl, rfl, Nat.le_add_right _ _, hend⟩⟩
    rw [take, hp.slice_eq element hn, if_pos hroom, ok_bind, plus_of_lt (by omega)]
    rfl
  · refine .inl ⟨hroom, ?_⟩
    rw [take, hp.slice_eq element hn, if_neg hroom]
    rfl

theorem agrees_take (hp : p.Sound) (element : Element) {n : Nat} (helement : element ≠ .start)
    (hn : n < UInt32.size) :
    Agrees p (p.take element n) (p.cursor.take element n) := by
  rcases hp.take_cases element hn with ⟨hcut, htake⟩ | ⟨q, hroom, htake, hcursor, hq⟩
  · rw [htake, Cursor.take, if_neg hcut]
    exact agrees_error helement
  · rw [htake, Cursor.take, if_pos hroom, ← hcursor]
    exact agrees_ok _ hq

theorem agrees_number (hp : p.Sound) (element : Element) {n : Nat} (helement : element ≠ .start)
    (hn : n < UInt32.size) :
    Agrees p (p.number element n) (p.cursor.number element n) :=
  (hp.agrees_take element helement hn).map ofLittleEndian hp

theorem agrees_uuid (hp : p.Sound) : Agrees p p.uuid p.cursor.uuid := by
  have hsize : 16 < UInt32.size := by decide
  rcases hp.take_cases .uuid hsize with ⟨hcut, htake⟩ | ⟨q, hroom, htake, hcursor, hq⟩
  · rw [uuid, htake, Cursor.uuid, dif_neg hcut]
    exact agrees_error (nofun : Element.uuid ≠ .start)
  · have hlength : (p.cursor.rest.take 16).length = 16 :=
      List.length_take_of_le (hasAtLeast_iff.mp hroom)
    rw [uuid, htake, ok_bind, Cursor.uuid, dif_pos hroom, ← hcursor]
    dsimp only
    rw [dif_pos hlength]
    exact agrees_ok _ hq

theorem agrees_address (hp : p.Sound) : Agrees p p.address p.cursor.address :=
  (hp.agrees_take .address nofun (by decide)).map Address.ofBytes hp

/-- A bad byte of a string is among its bytes, so that its position is one of the buffer. -/
theorem agrees_string (hp : p.Sound) : Agrees p p.string p.cursor.string := by
  refine (hp.agrees_number .string nofun (by decide)).bind hp fun length q hnumber hq => ?_
  have hlength : length < UInt32.size := (Cursor.number_eq_ok_iff.mp hnumber).1
  dsimp only
  rw [hq.position_eq, ok_bind]
  refine (hq.agrees_take .string nofun hlength).bind hq fun bytes next htake hnext => ?_
  cases htext : Utf8.toString? bytes with
  | ok s => exact agrees_ok s hnext.reaches_self
  | error source =>
      -- The bad byte lies inside the bytes that were taken, so its offset is in range too.
      have hvalid := Utf8.validUpTo_lt_length htext
      have hspans := (Cursor.take_eq_ok_iff.mp htake).2
      have hbytes := congrArg List.length hspans.1
      rw [List.length_append, length_rest_cursor] at hbytes
      have hpos := hq.pos_le
      have hstop := hq.stop_lt
      have hroom : q.cursor.position + source.validUpTo < 2 ^ 64 := by
        show q.base + q.pos + _ < _
        omega
      dsimp only
      rw [plus_of_lt hroom]
      exact agrees_error trivial

theorem agrees_field (hp : p.Sound) (layout : Layout) :
    Agrees p (p.field layout) (p.cursor.field layout) := by
  unfold field
  rw [hp.position_eq]
  cases layout with
  | uuid => exact hp.agrees_uuid.map FieldValue.uuid hp
  | string => exact hp.agrees_string.map FieldValue.string hp
  | nonEmptyString => exact hp.agrees_string.map FieldValue.string hp
  | integer primitive =>
      have hsize : primitive.size < UInt32.size := by cases primitive <;> decide
      exact (hp.agrees_number (.integer primitive) nofun hsize).map primitive.value hp

end Place.Sound

end EventLog.Buffer
