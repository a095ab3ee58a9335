import EventLog.Proofs.Wire.Strict
import Mathlib.Algebra.Order.Ring.Nat

set_option autoImplicit false

/-! # Payloads that end early

A payload is made of scalar elements one after another (`Piece`), whose sizes follow from the fields
declared and from the lengths of the strings. Where a payload ends early, the fault is that of the
one element in which it ends, whatever the bytes before it are (`Decoder.decode_take`): every
element is looked for before it is made sense of.

The proof follows the readers. A reader that succeeds takes some pieces (`Takes`): it gives the same
as long as the pieces are there, and else the fault of the piece that is cut.
-/

namespace EventLog

/-- A scalar element of a payload and the number of its bytes. -/
structure Piece where
  element : Element
  size : Nat

namespace Piece

def total (pieces : List Piece) : Nat := (pieces.map size).sum

/-- Where the piece of the given number begins, when the pieces lie one after another. -/
def boundary (pieces : List Piece) (i : Nat) : Nat := total (pieces.take i)

theorem total_append (front back : List Piece) :
    total (front ++ back) = total front + total back := by
  simp [total]

theorem boundary_mono (pieces : List Piece) {i j : Nat} (h : i ≤ j) :
    boundary pieces i ≤ boundary pieces j := by
  have hsplit : pieces.take j = pieces.take i ++ (pieces.take j).drop i := by
    rw [← Nat.min_eq_left h, ← List.take_take, Nat.min_eq_left h, List.take_append_drop]
  rw [boundary, boundary, hsplit, total_append]
  exact Nat.le_add_right _ _

/-- A place lies in one piece at most. -/
theorem boundary_unique {pieces : List Piece} {n i j : Nat} (hi : boundary pieces i ≤ n)
    (hi' : n < boundary pieces (i + 1)) (hj : boundary pieces j ≤ n)
    (hj' : n < boundary pieces (j + 1)) : i = j := by
  rcases Nat.lt_trichotomy i j with hlt | heq | hgt
  · have := boundary_mono pieces (show i + 1 ≤ j from hlt)
    omega
  · exact heq
  · have := boundary_mono pieces (show j + 1 ≤ i from hgt)
    omega

end Piece

open Piece

/-- The pieces of a field of which the given bytes are the first. The length of a string says how
many bytes follow it. -/
def Layout.pieces (layout : Layout) (bytes : List UInt8) : List Piece :=
  match layout with
  | .uuid => [⟨.uuid, 16⟩]
  | .string | .nonEmptyString => [⟨.string, 4⟩, ⟨.string, ofLittleEndian (bytes.take 4)⟩]
  | .integer p => [⟨.integer p, p.size⟩]

def fieldPieces : List FieldSpec → List UInt8 → List Piece
  | [], _ => []
  | spec :: specs, bytes =>
      let pieces := spec.layout.pieces bytes
      pieces ++ fieldPieces specs (bytes.drop (total pieces))

def RecordHeader.pieces : List Piece := [⟨.eventType, 4⟩, ⟨.eventVersion, 2⟩, ⟨.contextVersion, 2⟩]

def Context.pieces : List Piece := [⟨.timestamp, 8⟩, ⟨.uuid, 16⟩, ⟨.address, 16⟩]

def payloadPieces (specs : List FieldSpec) (payload : List UInt8) : List Piece :=
  RecordHeader.pieces ++ Context.pieces ++ fieldPieces specs (payload.drop 48)

/-! ## Cut cursors -/

/-- The cursor whose bytes end after the given number. -/
def Cursor.cut (c : Cursor) (n : Nat) : Cursor := ⟨c.position, c.rest.take n⟩

/-- A cut behind some bytes leaves them. -/
theorem Cursor.Spans.cut {c next : Cursor} {bytes : List UInt8} {n : Nat} (h : c.Spans bytes next)
    (hn : bytes.length ≤ n) : (c.cut n).Spans bytes (next.cut (n - bytes.length)) := by
  refine ⟨?_, h.2⟩
  show c.rest.take n = bytes ++ next.rest.take (n - bytes.length)
  rw [h.1, List.take_append, List.take_of_length_le hn]

/-- The fault of the piece in which bytes end that start at a position and of which there are `n`:
it is the piece behind those that are complete. -/
def CutBy (position : Nat) (pieces : List Piece) (n : Nat) (fault : Fault) : Prop :=
  ∃ (front : List Piece) (piece : Piece) (back : List Piece), pieces = front ++ piece :: back ∧
    total front ≤ n ∧ n < total front + piece.size ∧
    fault = .truncated piece.element (position + total front) piece.size (n - total front)

theorem CutBy.before {position n : Nat} {pieces : List Piece} {fault : Fault}
    (h : CutBy position pieces n fault) (more : List Piece) :
    CutBy position (pieces ++ more) n fault := by
  obtain ⟨front, piece, back, rfl, hfault⟩ := h
  exact ⟨front, piece, back ++ more, by simp, hfault⟩

theorem CutBy.behind {position n : Nat} {first pieces : List Piece} {fault : Fault}
    (hfirst : total first ≤ n) (h : CutBy (position + total first) pieces (n - total first) fault) :
    CutBy position (first ++ pieces) n fault := by
  obtain ⟨front, piece, back, rfl, hle, hlt, rfl⟩ := h
  refine ⟨first ++ front, piece, back, by simp, ?_⟩
  rw [total_append, Nat.sub_sub, ← Nat.add_assoc]
  exact ⟨by omega, by omega, rfl⟩

/-- What a reader does that takes some pieces from a cursor: the pieces lie before the cursor; where
the bytes end behind them, the reader gives the same; where they end inside, it gives the fault of
the piece that is cut. -/
structure Takes {α : Type} (read : Cursor → Except Fault (α × Cursor)) (c : Cursor)
    (pieces : List Piece) (a : α) (next : Cursor) : Prop where
  spans : ∃ bytes : List UInt8, bytes.length = total pieces ∧ c.Spans bytes next
  whole : ∀ n, total pieces ≤ n → read (c.cut n) = .ok (a, next.cut (n - total pieces))
  inside : ∀ n, n < total pieces → ∃ fault, read (c.cut n) = .error fault ∧
    CutBy c.position pieces n fault

/-! ## Sequences of readers -/

section Sequences

variable {α β : Type} {c middle next : Cursor} {pieces more : List Piece} {a : α} {b : β}

theorem takes_pure (a : α) (c : Cursor) : Takes (fun c => .ok (a, c)) c [] a c where
  spans := ⟨[], rfl, Cursor.spans_nil.mpr rfl⟩
  whole _ _ := rfl
  inside _ h := absurd h (Nat.not_lt_zero _)

theorem Takes.position_eq {read : Cursor → Except Fault (α × Cursor)}
    (h : Takes read c pieces a next) : next.position = c.position + total pieces := by
  obtain ⟨bytes, hlength, hspans⟩ := h.spans
  rw [hspans.2, hlength]

theorem Takes.rest_eq {read : Cursor → Except Fault (α × Cursor)}
    (h : Takes read c pieces a next) : next.rest = c.rest.drop (total pieces) := by
  obtain ⟨bytes, hlength, hspans⟩ := h.spans
  rw [hspans.1, ← hlength, List.drop_left]

/-- Readers one after another take their pieces one after another. The second may look at where the
first one started, which a cut does not change. -/
theorem Takes.bind {read : Cursor → Except Fault (α × Cursor)}
    {k : Nat → α × Cursor → Except Fault (β × Cursor)} (hread : Takes read c pieces a middle)
    (hthen : Takes (fun c' => k c.position (a, c')) middle more b next) :
    Takes (fun c => read c >>= k c.position) c (pieces ++ more) b next where
  spans := by
    obtain ⟨as, has, hfirst⟩ := hread.spans
    obtain ⟨bs, hbs, hsecond⟩ := hthen.spans
    refine ⟨as ++ bs, ?_, Cursor.spans_append.mpr ⟨middle, hfirst, hsecond⟩⟩
    rw [List.length_append, total_append, has, hbs]
  whole n hn := by
    rw [total_append] at hn ⊢
    rw [hread.whole n (by omega), ← Nat.sub_sub]
    exact hthen.whole _ (by omega)
  inside n hn := by
    rw [total_append] at hn
    -- The cut is in what the first reader takes, or in what is left to the second.
    by_cases hfirst : n < total pieces
    · obtain ⟨fault, herror, hcut⟩ := hread.inside n hfirst
      refine ⟨fault, ?_, hcut.before more⟩
      rw [herror]
      rfl
    · obtain ⟨fault, herror, hcut⟩ := hthen.inside (n - total pieces) (by omega)
      refine ⟨fault, ?_, ?_⟩
      · rw [hread.whole n (by omega)]
        exact herror
      · rw [hread.position_eq] at hcut
        exact hcut.behind (by omega)

theorem Takes.andThen {read : Cursor → Except Fault (α × Cursor)}
    {k : α × Cursor → Except Fault (β × Cursor)} (hread : Takes read c pieces a middle)
    (hthen : Takes (fun c' => k (a, c')) middle more b next) :
    Takes (fun c => read c >>= k) c (pieces ++ more) b next :=
  hread.bind (k := fun _ => k) hthen

theorem Takes.map {read : Cursor → Except Fault (α × Cursor)} (f : α → β)
    (hread : Takes read c pieces a next) :
    Takes (fun c => read c >>= fun p => .ok (f p.1, p.2)) c pieces (f a) next := by
  rw [← List.append_nil pieces]
  exact hread.andThen (takes_pure (f a) next)

end Sequences

/-! ## Elements -/

namespace Cursor

variable {c next : Cursor}

/-- An element is looked for before its bytes are made sense of. -/
theorem takes_take {element : Element} {n : Nat} {bytes : List UInt8}
    (h : c.take element n = .ok (bytes, next)) :
    Takes (fun c => c.take element n) c [⟨element, n⟩] bytes next := by
  obtain ⟨rfl, hspans⟩ := take_eq_ok_iff.mp h
  exact {
    spans := ⟨bytes, rfl, hspans⟩
    whole := fun n hn => take_eq_ok_iff.mpr ⟨rfl, hspans.cut hn⟩
    inside := fun n hn => by
      have hlength : (c.cut n).rest.length = n := by
        have := congrArg List.length hspans.1
        rw [List.length_append] at this
        exact List.length_take_of_le (by have : n < bytes.length := hn; omega)
      -- One piece only: it is whole or it is the piece that is cut.
      have hcut : ¬ hasAtLeast bytes.length (c.cut n).rest = true := by
        rw [hasAtLeast_iff, hlength, Nat.not_le]
        exact hn
      refine ⟨_, if_neg hcut, [], ⟨element, bytes.length⟩, [], rfl, Nat.zero_le n, ?_, ?_⟩
      · rw [total, List.map_nil, List.sum_nil, Nat.zero_add]
        exact hn
      · rw [cutOff, hlength]
        rfl }

theorem takes_number {element : Element} {width n : Nat}
    (h : c.number element width = .ok (n, next)) :
    Takes (fun c => c.number element width) c [⟨element, width⟩] n next := by
  obtain ⟨⟨bytes, middle⟩, htake, hresult⟩ := bind_eq_ok.mp h
  cases hresult
  exact (takes_take htake).map ofLittleEndian

theorem uuid_eq_error_of_take {c : Cursor} {fault : Fault} (h : c.take .uuid 16 = .error fault) :
    c.uuid = .error fault := by
  unfold take at h
  split at h
  · cases h
  · next hcut =>
      cases h
      exact dif_neg hcut

theorem takes_uuid {u : Uuid} (h : c.uuid = .ok (u, next)) :
    Takes uuid c [⟨.uuid, 16⟩] u next := by
  have hspans := uuid_eq_ok_iff.mp h
  have hbytes : c.take .uuid 16 = .ok (u.bytes, next) :=
    take_eq_ok_iff.mpr ⟨u.length_bytes, hspans⟩
  have htake := takes_take hbytes
  exact {
    spans := htake.spans
    whole := fun n hn => by
      have hle : u.bytes.length ≤ n := u.length_bytes ▸ hn
      rw [← u.length_bytes]
      exact uuid_eq_ok_iff.mpr (hspans.cut hle)
    inside := fun n hn => by
      obtain ⟨fault, herror, hcut⟩ := htake.inside n hn
      exact ⟨fault, uuid_eq_error_of_take herror, hcut⟩ }

theorem takes_address {a : Address} (h : c.address = .ok (a, next)) :
    Takes address c [⟨.address, 16⟩] a next := by
  obtain ⟨⟨bytes, middle⟩, htake, hresult⟩ := bind_eq_ok.mp h
  cases hresult
  exact (takes_take htake).map Address.ofBytes

/-- Makes sense of the bytes of a string that start at a position. -/
def readText (position : Nat) (p : List UInt8 × Cursor) : Except Fault (String × Cursor) :=
  match Utf8.toString? p.1 with
  | .ok s => .ok (s, p.2)
  | .error source => .error (.encoding source (position + source.validUpTo))

theorem string_eq (c : Cursor) :
    c.string = c.number .string 4 >>= fun p => p.2.take .string p.1 >>= readText p.2.position := by
  unfold string readText
  refine bind_congr fun ⟨length, start⟩ => bind_congr fun ⟨bytes, next⟩ => ?_
  dsimp only
  cases Utf8.toString? bytes <;> rfl

/-- A string that is cut off is not made sense of. -/
theorem takes_string {s : String} (h : c.string = .ok (s, next)) :
    Takes string c (Layout.string.pieces c.rest) s next := by
  rw [string_eq] at h
  obtain ⟨⟨length, start⟩, hnumber, hrest⟩ := bind_eq_ok.mp h
  obtain ⟨⟨bytes, behind⟩, htake, htext⟩ := bind_eq_ok.mp hrest
  obtain ⟨hlt, hspans⟩ := number_eq_ok_iff.mp hnumber
  have hlength : ofLittleEndian (c.rest.take 4) = length := by
    rw [hspans.1, List.take_left' (length_toLittleEndian 4 length),
      ofLittleEndian_toLittleEndian_of_lt hlt]
  -- The text's encoding is checked on bytes that are all there, so a cut is met before it.
  have hread : Takes (fun c' => readText start.position (bytes, c')) behind [] s next := by
    unfold readText at htext ⊢
    cases hutf : Utf8.toString? bytes with
    | error source =>
        simp only [hutf] at htext
        cases htext
    | ok t =>
        simp only [hutf] at htext
        cases htext
        simp only [hutf]
        exact takes_pure s next
  rw [funext string_eq, Layout.pieces, hlength]
  exact (takes_number hnumber).bind (k := fun _ p => p.2.take .string p.1 >>= readText p.2.position)
    ((takes_take htake).bind (k := readText) hread)

theorem takes_field {layout : Layout} {v : FieldValue} (h : c.field layout = .ok (v, next)) :
    Takes (fun c => c.field layout) c (layout.pieces c.rest) v next := by
  cases layout with
  | uuid =>
      obtain ⟨⟨u, middle⟩, hu, hresult⟩ := bind_eq_ok.mp h
      cases hresult
      exact (takes_uuid hu).map FieldValue.uuid
  | string | nonEmptyString =>
      obtain ⟨⟨s, middle⟩, hs, hresult⟩ := bind_eq_ok.mp h
      cases hresult
      exact (takes_string hs).map FieldValue.string
  | integer p =>
      obtain ⟨⟨n, middle⟩, hn, hresult⟩ := bind_eq_ok.mp h
      cases hresult
      exact (takes_number hn).map p.value

end Cursor

/-! ## Headers, contexts and fields -/

section Parts

variable {c next : Cursor}

theorem RecordHeader.takes_readFrom {h : RecordHeader} (hread : readFrom c = .ok (h, next)) :
    Takes readFrom c pieces h next := by
  obtain ⟨⟨n1, c1⟩, h1, hrest⟩ := bind_eq_ok.mp hread
  obtain ⟨⟨n2, c2⟩, h2, hrest⟩ := bind_eq_ok.mp hrest
  obtain ⟨⟨n3, c3⟩, h3, hresult⟩ := bind_eq_ok.mp hrest
  cases hresult
  refine Takes.andThen (Cursor.takes_number h1) ?_
  refine Takes.andThen (Cursor.takes_number h2) ?_
  exact (Cursor.takes_number h3).map fun n =>
    RecordHeader.mk (UInt32.ofNat n1) (UInt16.ofNat n2) (UInt16.ofNat n)

namespace Context

theorem takes_readOrigin {timestamp : Int64} {x : Context}
    (h : readOrigin timestamp c = .ok (x, next)) :
    Takes (readOrigin timestamp) c [⟨.uuid, 16⟩, ⟨.address, 16⟩] x next := by
  obtain ⟨⟨user, c1⟩, huser, hrest⟩ := bind_eq_ok.mp h
  obtain ⟨⟨address, c2⟩, haddress, hresult⟩ := bind_eq_ok.mp hrest
  cases hresult
  refine Takes.andThen (Cursor.takes_uuid huser) ?_
  exact (Cursor.takes_address haddress).map
    (Context.mk timestamp (EventLog.timestampText timestamp) user)

theorem takes_readVersion {version : UInt16} {x : Context}
    (h : readVersion version c = .ok (x, next)) :
    Takes (readVersion version) c pieces x next := by
  obtain rfl := (readVersion_eq_ok_iff.mp h).1
  have hversion : readVersion Context.version = readFrom := funext fun c => if_pos rfl
  rw [hversion] at h ⊢
  rw [readFrom_eq] at h
  obtain ⟨⟨n, afterTime⟩, htime, horigin⟩ := bind_eq_ok.mp h
  rw [funext readFrom_eq]
  refine (Cursor.takes_number htime).bind (k := fun position p =>
    if timestampSupported (UInt64.ofNat p.1).toInt64 then
      readOrigin (UInt64.ofNat p.1).toInt64 p.2
    else .error (.invalidTimestamp (UInt64.ofNat p.1).toInt64 position)) ?_
  -- The timestamp is there in full, and it is supported: nothing else is judged of a context.
  dsimp only at horigin
  split at horigin
  · next hsupported =>
      simp only [hsupported, if_true]
      exact takes_readOrigin horigin
  · cases horigin

end Context

namespace Payload

theorem takes_readFields {before fields : Fields} {specs : List FieldSpec}
    (h : readFields before specs c = .ok (fields, next)) :
    Takes (readFields before specs) c (fieldPieces specs c.rest) fields next := by
  induction specs generalizing before c with
  | nil =>
      cases h
      exact takes_pure _ _
  | cons spec specs ih =>
      obtain ⟨⟨value, middle⟩, hvalue, hrest⟩ := bind_eq_ok.mp h
      have hfield := Cursor.takes_field hvalue
      have hfields := ih hrest
      rw [hfield.rest_eq] at hfields
      exact hfield.andThen hfields

theorem takes_readFrom {table : Schema.Table} {key : EventKey} {specs : List FieldSpec}
    {fields : Fields} (hget : table.get? key = some specs)
    (h : readFrom table key c = .ok (fields, next)) :
    Takes (readFrom table key) c (fieldPieces specs c.rest) fields next := by
  have hread : readFrom table key = readFields .empty specs := by
    funext c
    rw [readFrom, hget]
  rw [hread] at h ⊢
  exact takes_readFields h

end Payload

end Parts

/-! ## Events -/

namespace Decoder

/-- An event that is decoded takes the pieces of its payload. -/
theorem takes_decodeFront {table : Schema.Table} {offset : Nat} {c next : Cursor} {e : Event}
    (h : decodeFront table offset c = .ok (some e, next)) :
    ∃ specs, table.get? ⟨e.eventType, e.version⟩ = some specs ∧
      Takes (decodeFront table offset) c (payloadPieces specs c.rest) (some e) next := by
  obtain ⟨⟨header, c1⟩, hheader, hrest⟩ := bind_eq_ok.mp h
  dsimp only at hrest
  split at hrest
  · cases hrest
  next htype =>
  obtain ⟨⟨context, c2⟩, hcontext, hrest⟩ := bind_eq_ok.mp hrest
  obtain ⟨⟨data, c3⟩, hdata, hresult⟩ := bind_eq_ok.mp hrest
  cases hresult
  obtain ⟨specs, values, hget, -⟩ := Payload.readFrom_eq_ok_iff.mp hdata
  -- The pieces are those of header, context and fields, each cut as its own reader is.
  have hfirst := RecordHeader.takes_readFrom hheader
  have hsecond := Context.takes_readVersion hcontext
  have hthird := Payload.takes_readFrom hget hdata
  rw [hsecond.rest_eq, hfirst.rest_eq, List.drop_drop] at hthird
  refine ⟨specs, hget, ?_⟩
  rw [payloadPieces, List.append_assoc]
  refine Takes.andThen hfirst ?_
  simp only [htype, if_false]
  exact Takes.andThen hsecond (hthird.map fun data =>
    some (assemble { table, strict := false } header offset context data))

/-- **A payload that ends early is at fault where it ends.** Of the elements of a payload that a
strict decoder accepts, one holds the place where the payload is cut; any decoder finds that this
element is cut off, and nothing else. -/
theorem decode_take {table : Schema.Table} {r : Record} {e : Event} {n : Nat}
    (h : decode { table, strict := true } r = .ok (some e)) (hn : n < r.payload.length) :
    ∃ specs, table.get? ⟨e.eventType, e.version⟩ = some specs ∧
      let pieces := payloadPieces specs r.payload
      total pieces = r.payload.length ∧
      ∃ i piece, pieces[i]? = some piece ∧
        boundary pieces i ≤ n ∧ n < boundary pieces (i + 1) ∧
        (∀ j, boundary pieces j ≤ n → n < boundary pieces (j + 1) → j = i) ∧
        ∀ strict, decode { table, strict } (r.withPayload (r.payload.take n)) =
          .error (.truncated piece.element (r.payloadOffset + boundary pieces i)
            (boundary pieces (i + 1) - boundary pieces i) (n - boundary pieces i)) := by
  obtain ⟨x, rest, hfits, hpayload, hrest, rfl⟩ := decode_eq_some_iff.mp h
  obtain rfl := hrest rfl
  have hfront := decodeFront_of_fits r.offset hfits (spans_payload hpayload)
  obtain ⟨specs, hget, htakes⟩ := takes_decodeFront hfront
  have htotal : total (payloadPieces specs r.payload) = r.payload.length := by
    have hbehind := htakes.position_eq
    rw [hpayload, List.append_nil]
    rw [Record.cursor, hpayload, List.append_nil] at hbehind
    exact (Nat.add_left_cancel hbehind).symm
  -- Exactly one piece is cut: those in front of it are whole, those behind are not reached.
  obtain ⟨fault, herror, front, piece, back, hpieces, hle, hlt, rfl⟩ :=
    htakes.inside n (htotal ▸ hn)
  refine ⟨specs, hget, htotal, front.length, piece, ?_⟩
  rw [show payloadPieces specs r.payload = front ++ piece :: back from hpieces]
  have hboundary : boundary (front ++ piece :: back) front.length = total front := by
    rw [boundary, List.take_left]
  have hnext : boundary (front ++ piece :: back) (front.length + 1) = total front + piece.size := by
    rw [boundary, List.append_cons, List.take_left' (by simp), total_append]
    rfl
  refine ⟨by simp, by omega, by omega, fun j hj hj' => ?_, fun strict => ?_⟩
  · exact boundary_unique hj hj' (by omega) (by omega)
  · rw [hboundary, hnext, Nat.add_sub_cancel_left, decode_eq_decodeFront]
    show decodeFront table r.offset (r.cursor.cut n) >>= _ = _
    rw [herror]
    rfl

def nameTable : Schema.Table :=
  { typeNames := [], schemas := [(⟨2, 1⟩, [⟨.string, "name"⟩])], nodup_keys := by decide }

/-- The record of such an event, whose string is one letter of two bytes. -/
def nameRecord : Record := ⟨0, 16, 0, barePayload ++ [2, 0, 0, 0, 0xC3, 0xA9]⟩

def nameEvent : Event :=
  { bareEvent with data := { entries := [("name", .string "é")], nodup_keys := by decide } }

theorem decode_take_name :
    decode { table := nameTable, strict := true } nameRecord = .ok (some nameEvent) ∧
      53 < nameRecord.payload.length ∧
      ∀ strict, decode { table := nameTable, strict }
        (nameRecord.withPayload (nameRecord.payload.take 53)) =
          .error (.truncated .string 68 2 1) := by
  have h : decode { table := nameTable, strict := true } nameRecord = .ok (some nameEvent) := rfl
  have hn : 53 < nameRecord.payload.length := by decide
  obtain ⟨specs, hget, -, i, piece, hpiece, -, -, hunique, hcut⟩ := decode_take h hn
  cases hget
  -- The letter is the eighth element, behind six of the header and context and its length.
  obtain rfl : 7 = i := hunique 7 (by decide) (by decide)
  cases hpiece
  exact ⟨h, hn, hcut⟩

end Decoder

end EventLog
