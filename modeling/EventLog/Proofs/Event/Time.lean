import EventLog.Proofs.Calendar.Text
import EventLog.Proofs.Wire.Context

set_option autoImplicit false

/-! # The time of a context

A full context is read unless its timestamp is out of range. Its text is then the time of the
calendar that has as many seconds from the start of 1970 on, so that different timestamps have
different texts; from year 0 on, the texts are in the order of the timestamps
(`Context.tells_time`).
-/

namespace EventLog

theorem timestampSupported_iff {timestamp : Int64} :
    timestampSupported timestamp = true ↔
      -377705023201 ≤ timestamp.toInt ∧ timestamp.toInt ≤ 253402207200 := by
  rw [timestampSupported, Bool.and_eq_true, decide_eq_true_iff, decide_eq_true_iff]
  exact Iff.rfl

/-- Different timestamps have different texts. -/
theorem timestampText_inj {timestamp timestamp' : Int64}
    (h : timestampText timestamp = timestampText timestamp') : timestamp = timestamp' := by
  obtain ⟨hvalid, hseconds⟩ := DateTime.seconds_ofSeconds timestamp.toInt
  obtain ⟨hvalid', hseconds'⟩ := DateTime.seconds_ofSeconds timestamp'.toInt
  apply Int64.toInt_inj.mp
  rw [← hseconds, ← hseconds', DateTime.text_inj hvalid hvalid' h]

section

variable {timestamp timestamp' : Int64} (hnonneg : -62167219200 ≤ timestamp.toInt)
  (hle : timestamp.toInt ≤ maxTimestamp)
include hnonneg hle

theorem length_timestampText : (timestampText timestamp).length = 20 := by
  obtain ⟨hyear, hyear'⟩ := DateTime.year_ofSeconds hnonneg hle
  exact DateTime.length_text (DateTime.seconds_ofSeconds _).1 hyear hyear'

theorem timestampText_lt (hle' : timestamp'.toInt ≤ maxTimestamp)
    (hlt : timestamp.toInt < timestamp'.toInt) :
    timestampText timestamp < timestampText timestamp' := by
  obtain ⟨hvalid, hseconds⟩ := DateTime.seconds_ofSeconds timestamp.toInt
  obtain ⟨hvalid', hseconds'⟩ := DateTime.seconds_ofSeconds timestamp'.toInt
  have hyear := (DateTime.year_ofSeconds hnonneg hle).1
  have hyear' := (DateTime.year_ofSeconds (by omega) hle').2
  refine DateTime.text_lt hvalid hvalid' hyear hyear' ?_
  refine DateTime.before_of_seconds_lt hvalid hvalid' ?_
  rw [hseconds, hseconds']
  exact hlt

/-- **Timestamps from year 0 on have texts in their order.** -/
theorem timestampText_lt_iff (hnonneg' : -62167219200 ≤ timestamp'.toInt)
    (hle' : timestamp'.toInt ≤ maxTimestamp) :
    timestampText timestamp < timestampText timestamp' ↔ timestamp < timestamp' := by
  rw [Int64.lt_iff_toInt_lt]
  constructor
  · intro htext
    rcases Int.lt_trichotomy timestamp.toInt timestamp'.toInt with hlt | heq | hgt
    · exact hlt
    · rw [Int64.toInt_inj.mp heq] at htext
      exact absurd htext (String.lt_irrefl _)
    · exact absurd (timestampText_lt hnonneg' hle' hle hgt) (String.lt_asymm htext)
  · exact timestampText_lt hnonneg hle hle'

end

namespace Context

/-- **The text of a context tells its time.** A full context is a fault exactly if its timestamp
lies before -9999-01-02 01:59:59 or after 9999-12-30 22:00:00. Otherwise its text is the date and
time of the calendar whose seconds, counted from the start of 1970 on, are the timestamp. Contexts
of different timestamps have different texts, and those from year 0 on have texts of twenty
characters that are ordered like the timestamps. -/
theorem tells_time {payload : List UInt8} {offset : Nat} {timestamp : Int64} (base : Nat)
    (hfull : offset + size ≤ payload.length)
    (htime : (payload.drop offset).take 8 = toLittleEndian 8 timestamp.toUInt64.toNat) :
    (read version payload offset base = .error (.invalidTimestamp timestamp (base + offset)) ↔
      timestamp.toInt < -377705023201 ∨ 253402207200 < timestamp.toInt) ∧
    (-377705023201 ≤ timestamp.toInt → timestamp.toInt ≤ 253402207200 →
      ∃ (x : Context) (t : DateTime), read version payload offset base = .ok x ∧
        x.timestamp = timestamp ∧ x.timestampText = t.text ∧ t.Valid ∧
        t.seconds = timestamp.toInt) ∧
    ∀ (payload' : List UInt8) (offset' base' : Nat) (x x' : Context),
      read version payload offset base = .ok x → read version payload' offset' base' = .ok x' →
        (x.timestamp ≠ x'.timestamp → x.timestampText ≠ x'.timestampText) ∧
        (-62167219200 ≤ x.timestamp.toInt → -62167219200 ≤ x'.timestamp.toInt →
          x.timestampText.length = 20 ∧ x'.timestampText.length = 20 ∧
            (x.timestampText < x'.timestampText ↔ x.timestamp < x'.timestamp)) := by
  refine ⟨⟨?_, ?_⟩, ?_, ?_⟩
  · intro herror
    -- Of a full context only the timestamp can be refused.
    by_contra hrange
    obtain ⟨x, hread, -⟩ := exists_read_eq_ok base hfull htime
      (timestampSupported_iff.mpr (by omega))
    rw [herror] at hread
    cases hread
  · intro hrange
    refine read_eq_error base hfull htime (Bool.eq_false_iff.mpr fun hsupported => ?_)
    have := timestampSupported_iff.mp hsupported
    omega
  · intro hmin hmax
    obtain ⟨x, hread, htimestamp⟩ := exists_read_eq_ok base hfull htime
      (timestampSupported_iff.mpr ⟨hmin, hmax⟩)
    obtain ⟨hvalid, hseconds⟩ := DateTime.seconds_ofSeconds timestamp.toInt
    refine ⟨x, .ofSeconds timestamp.toInt, hread, htimestamp, ?_, hvalid, hseconds⟩
    rw [(read_eq_ok_iff.mp hread).2.1.text, htimestamp]
    rfl
  · intro payload' offset' base' x x' hread hread'
    obtain ⟨-, hreadable, -⟩ := read_eq_ok_iff.mp hread
    obtain ⟨-, hreadable', -⟩ := read_eq_ok_iff.mp hread'
    have hmax := (timestampSupported_iff.mp hreadable.supported).2
    have hmax' := (timestampSupported_iff.mp hreadable'.supported).2
    rw [hreadable.text, hreadable'.text]
    refine ⟨?_, ?_⟩
    · intro hne htext
      exact hne (timestampText_inj htext)
    · intro hnonneg hnonneg'
      exact ⟨length_timestampText hnonneg hmax, length_timestampText hnonneg' hmax',
        timestampText_lt_iff hnonneg hmax hnonneg' hmax'⟩

/-- A context of the leap day of the year 2000. -/
def leapDay : List UInt8 := [0, 12, 187, 56, 0, 0, 0, 0] ++ List.replicate 32 0

theorem tells_time_leapDay :
    0 + size ≤ leapDay.length ∧
      (leapDay.drop 0).take 8 = toLittleEndian 8 (951782400 : Int64).toUInt64.toNat ∧
      ∃ (x : Context) (t : DateTime), read version leapDay 0 56 = .ok x ∧
        x.timestamp = 951782400 ∧ x.timestampText = t.text ∧ t.Valid ∧ t.seconds = 951782400 := by
  have hfull : 0 + size ≤ leapDay.length := by decide
  have htime : (leapDay.drop 0).take 8 = toLittleEndian 8 (951782400 : Int64).toUInt64.toNat := by
    decide
  exact ⟨hfull, htime, (tells_time 56 hfull htime).2.1 (by decide) (by decide)⟩

end Context

end EventLog
