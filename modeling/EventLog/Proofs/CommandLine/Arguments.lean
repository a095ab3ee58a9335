import EventLog.CommandLine.Arguments
import EventLog.Proofs.Text.Digits
import Mathlib.Data.List.Forall2
import Mathlib.Data.List.Induction
import Mathlib.Data.List.TakeWhile

set_option autoImplicit false

/-! # What a command line asks for

The arguments of a command line spell a list of choices (`Spells`): switches, values of options and
the path of the log. Where no option is given twice, the choices say which arguments the program
runs with (`asked`), however they are spelled and in whatever order they stand
(`parse_of_asks`).
-/

namespace EventLog.CommandLine

/-! ## Choices -/

/-- One thing that a command line asks for. -/
inductive Choice where
  | input (path : String)
  | format (format : OutputFormat)
  | output (path : String)
  | outputDir (path : String)
  | schema (path : String)
  | eventTypes (codes : List UInt32)
  | switch (switch : Switch)
  deriving DecidableEq

/-- Whether two choices must not stand beside each other, as an option would be given twice. -/
def Choice.repeats : Choice → Choice → Bool
  | input _, input _ | format _, format _ | output _, output _ | outputDir _, outputDir _
  | schema _, schema _ | eventTypes _, eventTypes _ => true
  | switch s, switch t => s == t && s != .verbose
  | _, _ => false

/-- Choices that start a run: no option is given twice but `-v`, and neither help nor the version
is asked for. -/
structure Consistent (choices : List Choice) : Prop where
  distinct : choices.Pairwise fun c d => c.repeats d = false
  no_help : .switch .help ∉ choices
  no_version : .switch .version ∉ choices

/-- The arguments that the program runs with. -/
def asked (choices : List Choice) : Arguments where
  input := choices.findSome? fun | .input path => some path | _ => none
  format := choices.findSome? fun | .format format => some format | _ => none
  output := choices.findSome? fun | .output path => some path | _ => none
  outputDir := choices.findSome? fun | .outputDir path => some path | _ => none
  schema := choices.findSome? fun | .schema path => some path | _ => none
  eventTypes := choices.findSome? fun | .eventTypes codes => some codes | _ => none
  overwrite := choices.contains (.switch .overwrite)
  noChecksums := choices.contains (.switch .noChecksums)
  strictLength := choices.contains (.switch .strictLength)
  noIndent := choices.contains (.switch .noIndent)
  hideRecordNumbers := choices.contains (.switch .hideRecordNumbers)
  verbosity := choices.count (.switch .verbose)

/-! ## Spelling -/

/-- The numeral of an event type: decimal digits, perhaps after zeros and a sign. -/
inductive SpellsCode : List Char → UInt32 → Prop
  | negativeZero (width : Nat) : SpellsCode ('-' :: paddedDigits 10 width 0) 0
  | digits (width : Nat) (code : UInt32) : SpellsCode (paddedDigits 10 width code.toNat) code
  | signed (width : Nat) (code : UInt32) : SpellsCode ('+' :: paddedDigits 10 width code.toNat) code

/-- The value of an option as it is written. -/
inductive SpellsValue : ValueOption → String → Choice → Prop
  | json : SpellsValue .format "json" (.format .json)
  | jsonLines : SpellsValue .format "jsonl" (.format .jsonLines)
  | tar : SpellsValue .format "tar" (.format .tar)
  | output {path : String} (h : path ≠ "") : SpellsValue .output path (.output path)
  | outputDir {path : String} (h : path ≠ "") : SpellsValue .outputDir path (.outputDir path)
  | schema {path : String} (h : path ≠ "") : SpellsValue .schema path (.schema path)
  | eventTypes {numerals : List (List Char)} {codes : List UInt32} (hne : numerals ≠ [])
      (h : List.Forall₂ SpellsCode numerals codes) :
      SpellsValue .eventTypes (String.ofList ([','].intercalate numerals)) (.eventTypes codes)

def optionName : ValueOption → String
  | .format => "format"
  | .output => "output"
  | .outputDir => "output-dir"
  | .schema => "schema"
  | .eventTypes => "event-types"

def optionLetter? : ValueOption → Option Char
  | .format => some 'o'
  | .output => some 'f'
  | _ => none

def switchName? : Switch → Option String
  | .overwrite => some "no-confirm-overwrite"
  | .noChecksums => some "no-checksums"
  | .strictLength => some "strict-length"
  | .noIndent => some "no-indent"
  | .hideRecordNumbers => some "dont-show-record-number"
  | .verbose => none
  | .help => some "help"
  | .version => some "version"

def switchLetter? : Switch → Option Char
  | .verbose => some 'v'
  | .help => some 'h'
  | .version => some 'V'
  | _ => none

/-- An argument that is no option: it does not begin with a hyphen, or is nothing else. -/
def IsPlain (argument : String) : Prop := argument = "-" ∨ argument.toList.head? ≠ some '-'

/-- A value behind the letter of its option, perhaps after an equals sign. -/
inductive Attached : List Char → String → Prop
  | equals (text : String) : Attached ('=' :: text.toList) text
  | plain {text : String} {c : Char} {cs : List Char} (h : text.toList = c :: cs) (hc : c ≠ '=') :
      Attached (c :: cs) text

/-- The arguments of a command line and what they ask for. -/
inductive Spells : List String → List Choice → Prop
  | nil : Spells [] []
  | paths (paths : List String) : Spells ("--" :: paths) (paths.map .input)
  | path {path : String} {rest : List String} {choices : List Choice} (h : IsPlain path)
      (hrest : Spells rest choices) : Spells (path :: rest) (.input path :: choices)
  | switch {s : Switch} {name : String} {rest : List String} {choices : List Choice}
      (hname : switchName? s = some name) (hrest : Spells rest choices) :
      Spells (("--" ++ name) :: rest) (.switch s :: choices)
  | attached {option : ValueOption} {text : String} {choice : Choice} {rest : List String}
      {choices : List Choice} (htext : SpellsValue option text choice) (hrest : Spells rest choices) :
      Spells (("--" ++ optionName option ++ "=" ++ text) :: rest) (choice :: choices)
  | separate {option : ValueOption} {text : String} {choice : Choice} {rest : List String}
      {choices : List Choice} (hplain : IsPlain text) (htext : SpellsValue option text choice)
      (hrest : Spells rest choices) :
      Spells (("--" ++ optionName option) :: text :: rest) (choice :: choices)
  | letters {letters : List Char} {switches : List Switch} {rest : List String}
      {choices : List Choice} (hne : letters ≠ [])
      (hletters : List.Forall₂ (fun c s => switchLetter? s = some c) letters switches)
      (hrest : Spells rest choices) :
      Spells (String.ofList ('-' :: letters) :: rest) (switches.map .switch ++ choices)
  | lettersAttached {letters : List Char} {switches : List Switch} {c : Char}
      {option : ValueOption} {value : List Char} {text : String} {choice : Choice}
      {rest : List String} {choices : List Choice}
      (hletters : List.Forall₂ (fun c s => switchLetter? s = some c) letters switches)
      (hletter : optionLetter? option = some c) (hvalue : Attached value text)
      (htext : SpellsValue option text choice) (hrest : Spells rest choices) :
      Spells (String.ofList ('-' :: (letters ++ c :: value)) :: rest)
        (switches.map .switch ++ choice :: choices)
  | lettersSeparate {letters : List Char} {switches : List Switch} {c : Char}
      {option : ValueOption} {text : String} {choice : Choice} {rest : List String}
      {choices : List Choice}
      (hletters : List.Forall₂ (fun c s => switchLetter? s = some c) letters switches)
      (hletter : optionLetter? option = some c) (hplain : IsPlain text)
      (htext : SpellsValue option text choice) (hrest : Spells rest choices) :
      Spells (String.ofList ('-' :: (letters ++ [c])) :: text :: rest)
        (switches.map .switch ++ choice :: choices)

/-- A command line asks for a run with the given arguments. -/
def Asks (arguments : List String) (a : Arguments) : Prop :=
  ∃ choices, Spells arguments choices ∧ Consistent choices ∧ a = asked choices

/-! ## Taking choices -/

/-- The arguments after one more choice, unless its option was given before. -/
def choose? (a : Arguments) : Choice → Option Arguments
  | .input path => if a.input = none then some { a with input := some path } else none
  | .format format => if a.format = none then some { a with format := some format } else none
  | .output path => if a.output = none then some { a with output := some path } else none
  | .outputDir path => if a.outputDir = none then some { a with outputDir := some path } else none
  | .schema path => if a.schema = none then some { a with schema := some path } else none
  | .eventTypes codes =>
      if a.eventTypes = none then some { a with eventTypes := some codes } else none
  | .switch .overwrite => if a.overwrite then none else some { a with overwrite := true }
  | .switch .noChecksums => if a.noChecksums then none else some { a with noChecksums := true }
  | .switch .strictLength => if a.strictLength then none else some { a with strictLength := true }
  | .switch .noIndent => if a.noIndent then none else some { a with noIndent := true }
  | .switch .hideRecordNumbers =>
      if a.hideRecordNumbers then none else some { a with hideRecordNumbers := true }
  | .switch .verbose => some { a with verbosity := a.verbosity + 1 }
  | .switch .help | .switch .version => none

theorem setInput_eq {a b : Arguments} {path : String} (h : choose? a (.input path) = some b) :
    a.setInput path = .ok b := by
  simp only [choose?, Option.ite_none_right_eq_some, Option.some.injEq] at h
  obtain ⟨hnew, rfl⟩ := h
  rw [Arguments.setInput, hnew]

theorem setSwitch_eq {a b : Arguments} {s : Switch} (h : choose? a (.switch s) = some b) :
    a.setSwitch s = .ok b := by
  cases s <;>
    simp only [choose?, Option.ite_none_left_eq_some, Option.some.injEq, reduceCtorEq] at h
  case verbose =>
    rw [← h]
    rfl
  all_goals
    obtain ⟨hnew, rfl⟩ := h
    simp only [Arguments.setSwitch, Arguments.switchOnce, hnew, Bool.false_eq_true, if_false]
    rfl

/-! ### Values -/

theorem isDigit_of_mem_paddedDigits {width n : Nat} {c : Char} (h : c ∈ paddedDigits 10 width n) :
    c.isDigit = true := by
  rcases List.mem_append.mp h with hzero | hdigit
  · rw [(List.mem_replicate.mp hzero).2]
    rfl
  · exact Nat.isDigit_of_mem_toDigits (by decide) (by decide) hdigit

theorem decimalNumber?_paddedDigits (width n : Nat) :
    Arguments.decimalNumber? (paddedDigits 10 width n) = some n := by
  have hne : (paddedDigits 10 width n).isEmpty = false :=
    List.isEmpty_eq_false_iff.mpr (paddedDigits_ne_nil 10 width n)
  have hdigits : (paddedDigits 10 width n).all Char.isDigit = true :=
    List.all_eq_true.mpr fun c hc => isDigit_of_mem_paddedDigits hc
  rw [Arguments.decimalNumber?, ofDigitChars_paddedDigits width (by decide) (by decide), hne, hdigits]
  rfl

theorem eventType?_of_spells {numeral : List Char} {code : UInt32} (h : SpellsCode numeral code) :
    Arguments.eventType? numeral = some code := by
  have hread (n : Nat) (hn : n = code.toNat) :
      (if n < UInt32.size then some (UInt32.ofNat n) else none) = some code := by
    rw [hn, if_pos code.toNat_lt, UInt32.ofNat_toNat]
  cases h with
  | negativeZero width =>
      show ((Arguments.decimalNumber? (paddedDigits 10 width 0)).filter (· == 0)).bind _ = _
      rw [decimalNumber?_paddedDigits]
      rfl
  | signed width code =>
      show (Arguments.decimalNumber? (paddedDigits 10 width code.toNat)).bind _ = _
      rw [decimalNumber?_paddedDigits]
      exact hread _ rfl
  | digits width code =>
      -- A digit is neither sign.
      obtain ⟨c, cs, hcs⟩ := List.exists_cons_of_ne_nil (paddedDigits_ne_nil 10 width code.toNat)
      have hc : c.isDigit = true :=
        isDigit_of_mem_paddedDigits (hcs ▸ List.mem_cons_self : c ∈ paddedDigits 10 width code.toNat)
      have hplus : c ≠ '+' := by
        rintro rfl
        cases hc
      have hminus : c ≠ '-' := by
        rintro rfl
        cases hc
      have hnumber := decimalNumber?_paddedDigits width code.toNat
      rw [hcs] at hnumber ⊢
      rw [Arguments.eventType?, hnumber]
      · exact hread _ rfl
      · exact fun digits hsign => hplus (List.cons.inj hsign).1
      · exact fun digits hsign => hminus (List.cons.inj hsign).1

theorem comma_not_mem {numeral : List Char} {code : UInt32} (h : SpellsCode numeral code) :
    ',' ∉ numeral := by
  have hdigits (width n : Nat) : ',' ∉ paddedDigits 10 width n := by
    intro hmem
    cases isDigit_of_mem_paddedDigits hmem
  cases h with
  | negativeZero width => exact List.not_mem_cons_of_ne_of_not_mem (by decide) (hdigits width 0)
  | digits width code => exact hdigits width _
  | signed width code => exact List.not_mem_cons_of_ne_of_not_mem (by decide) (hdigits width _)

theorem comma_not_mem_of_mem {numerals : List (List Char)} {codes : List UInt32}
    (h : List.Forall₂ SpellsCode numerals codes) : ∀ numeral ∈ numerals, ',' ∉ numeral := by
  induction h with
  | nil => exact List.forall_mem_nil _
  | cons hcode _ ih => exact List.forall_mem_cons.mpr ⟨comma_not_mem hcode, ih⟩

theorem eventTypes?_of_spells {numerals : List (List Char)} {codes : List UInt32}
    (hne : numerals ≠ []) (h : List.Forall₂ SpellsCode numerals codes) :
    Arguments.eventTypes? (String.ofList ([','].intercalate numerals)) = some codes := by
  rw [Arguments.eventTypes?, String.toList_ofList,
    List.splitOn_intercalate ',' (comma_not_mem_of_mem h) hne]
  clear hne
  induction h with
  | nil => rfl
  | cons hcode _ ih =>
      rw [List.mapM_cons, eventType?_of_spells hcode, ih]
      rfl

theorem setValue_eq {a b : Arguments} {option : ValueOption} {text : String} {choice : Choice}
    (htext : SpellsValue option text choice) (h : choose? a choice = some b) :
    a.setValue option text = .ok b := by
  -- An option that takes a value once is refused a second time, which `choose?` excludes.
  cases htext with
  | json | jsonLines | tar =>
      simp only [choose?, Option.ite_none_right_eq_some, Option.some.injEq] at h
      obtain ⟨hnew, rfl⟩ := h
      simp only [Arguments.setValue, hnew]
      rfl
  | output hne | outputDir hne | schema hne =>
      simp only [choose?, Option.ite_none_right_eq_some, Option.some.injEq] at h
      obtain ⟨hnew, rfl⟩ := h
      simp only [Arguments.setValue, Arguments.path?, hne, if_false, hnew]
      rfl
  | eventTypes hne hcodes =>
      simp only [choose?, Option.ite_none_right_eq_some, Option.some.injEq] at h
      obtain ⟨hnew, rfl⟩ := h
      simp only [Arguments.setValue, eventTypes?_of_spells hne hcodes, hnew]
      rfl

/-! ### Letters -/

/-- Switches that are joined are taken one after another, and then what follows them. -/
theorem takeLetters_append {a b : Arguments} {letters : List Char} {switches : List Switch}
    (hletters : List.Forall₂ (fun c s => switchLetter? s = some c) letters switches)
    (h : (switches.map Choice.switch).foldlM choose? a = some b) (more : List Char) :
    a.takeLetters (letters ++ more) = b.takeLetters more := by
  -- On the letters: a switch takes no value, so the next letter is looked at.
  induction hletters generalizing a with
  | nil =>
      cases h
      rfl
  | @cons c s letters switches hletter _ ih =>
      rw [List.map_cons, List.foldlM_cons, Option.bind_eq_bind, Option.bind_eq_some_iff] at h
      obtain ⟨between, hs, hrest⟩ := h
      have hoption : Arguments.shortOption? c = some (.inr s) := by
        cases s <;> cases hletter <;> rfl
      rw [List.cons_append, Arguments.takeLetters, hoption]
      show (a.setSwitch s >>= fun b => b.takeLetters (letters ++ more)) = _
      rw [setSwitch_eq hs]
      exact ih hrest

theorem takeLetters_attached {a b : Arguments} {c : Char} {option : ValueOption}
    {value : List Char} {text : String} {choice : Choice} (hletter : optionLetter? option = some c)
    (hvalue : Attached value text) (htext : SpellsValue option text choice)
    (h : choose? a choice = some b) : a.takeLetters (c :: value) = .ok (b, none) := by
  have hoption : Arguments.shortOption? c = some (.inl option) := by
    cases option <;> cases hletter <;> rfl
  have hset := setValue_eq htext h
  rw [Arguments.takeLetters, hoption]
  dsimp only
  -- The sign between letter and value may be left out, unless the value begins with it.
  cases hvalue with
  | equals text =>
      show (a.setValue option (String.ofList text.toList) >>= fun b => pure (b, none)) = _
      rw [String.ofList_toList, hset]
      rfl
  | @plain text d ds hcons hd =>
      have hofList : String.ofList (d :: ds) = text := by rw [← hcons, String.ofList_toList]
      split
      · next hnil => cases hnil
      · next hequals => exact absurd (List.cons.inj hequals).1 hd
      · rw [hofList, hset]
        rfl

theorem takeLetters_letter {a : Arguments} {c : Char} {option : ValueOption}
    (hletter : optionLetter? option = some c) : a.takeLetters [c] = .ok (a, some option) := by
  have hoption : Arguments.shortOption? c = some (.inl option) := by
    cases option <;> cases hletter <;> rfl
  rw [Arguments.takeLetters, hoption]

/-! ### Long names -/

theorem splitLong_name {name : String} (h : '=' ∉ name.toList) :
    Arguments.splitLong name.toList = (name, none) := by
  have hname : ∀ c ∈ name.toList, (c != '=') = true :=
    fun c hc => bne_iff_ne.mpr (ne_of_mem_of_not_mem hc h)
  simp only [Arguments.splitLong, List.takeWhile_eq_self_iff.mpr hname,
    List.dropWhile_eq_nil_iff.mpr hname, String.ofList_toList, List.isEmpty_nil, if_true]

theorem splitLong_attached {name : String} (h : '=' ∉ name.toList) (text : String) :
    Arguments.splitLong (name.toList ++ '=' :: text.toList) = (name, some text) := by
  have hname : ∀ c ∈ name.toList, (c != '=') = true :=
    fun c hc => bne_iff_ne.mpr (ne_of_mem_of_not_mem hc h)
  have htake : (name.toList ++ '=' :: text.toList).takeWhile (· != '=') = name.toList := by
    rw [List.takeWhile_append_of_pos hname, List.takeWhile_cons_of_neg (by decide), List.append_nil]
  have hdrop : (name.toList ++ '=' :: text.toList).dropWhile (· != '=') = '=' :: text.toList := by
    rw [List.dropWhile_append_of_pos hname, List.dropWhile_cons_of_neg (by decide)]
  simp only [Arguments.splitLong, htake, hdrop, String.ofList_toList, List.isEmpty_cons,
    Bool.false_eq_true, if_false, List.drop_succ_cons, List.drop_zero]

theorem takeArgument_long (a : Arguments) (long : String) :
    a.takeArgument ("--" ++ long) =
      a.takeLong (Arguments.splitLong long.toList).1 (Arguments.splitLong long.toList).2 := by
  have hchars : ("--" ++ long).toList = '-' :: '-' :: long.toList := String.toList_append
  rw [Arguments.takeArgument, hchars]
  rfl

theorem takeLong_switch {a b : Arguments} {s : Switch} {name : String}
    (hname : switchName? s = some name) (h : choose? a (.switch s) = some b) :
    a.takeArgument ("--" ++ name) = .ok (b, none) := by
  have hequals : '=' ∉ name.toList := by
    cases s <;> cases hname <;> decide
  have hoption : Arguments.longOption? name = some (.inr s) := by
    cases s <;> cases hname <;> rfl
  rw [takeArgument_long, splitLong_name hequals, Arguments.takeLong.eq_def, hoption]
  show (a.setSwitch s >>= fun b => pure (b, none)) = _
  rw [setSwitch_eq h]
  rfl

theorem equals_not_mem_optionName (option : ValueOption) : '=' ∉ (optionName option).toList := by
  cases option <;> decide

theorem longOption?_optionName (option : ValueOption) :
    Arguments.longOption? (optionName option) = some (.inl option) := by
  cases option <;> rfl

theorem takeLong_attached {a b : Arguments} {option : ValueOption} {text : String} {choice : Choice}
    (htext : SpellsValue option text choice) (h : choose? a choice = some b) :
    a.takeArgument ("--" ++ optionName option ++ "=" ++ text) = .ok (b, none) := by
  have hchars : (optionName option ++ "=" ++ text).toList =
      (optionName option).toList ++ '=' :: text.toList := by
    rw [String.toList_append, String.toList_append, List.append_assoc]
    rfl
  have hjoined : "--" ++ optionName option ++ "=" ++ text =
      "--" ++ (optionName option ++ "=" ++ text) := by
    simp only [String.append_assoc]
  rw [hjoined, takeArgument_long, hchars, splitLong_attached (equals_not_mem_optionName option),
    Arguments.takeLong.eq_def, longOption?_optionName]
  show (a.setValue option text >>= fun b => pure (b, none)) = _
  rw [setValue_eq htext h]
  rfl

theorem takeLong_option (a : Arguments) (option : ValueOption) :
    a.takeArgument ("--" ++ optionName option) = .ok (a, some option) := by
  rw [takeArgument_long, splitLong_name (equals_not_mem_optionName option),
    Arguments.takeLong.eq_def, longOption?_optionName]

/-! ## A whole command line -/

/-- An argument of letters after one hyphen. -/
theorem takeArgument_letters {c : Char} (hc : c ≠ '-') (a : Arguments) (cs : List Char) :
    a.takeArgument (String.ofList ('-' :: c :: cs)) = a.takeLetters (c :: cs) := by
  rw [Arguments.takeArgument, String.toList_ofList]
  split
  · next hlong => exact absurd (List.cons.inj (List.cons.inj hlong).2).1 hc
  · next hhyphen => cases hhyphen
  · next hletters => cases hletters; rfl
  · next hother => exact absurd rfl (hother (c :: cs))

theorem takePaths_eq {a b : Arguments} {paths : List String}
    (h : (paths.map Choice.input).foldlM choose? a = some b) : a.takePaths paths = .ok b := by
  induction paths generalizing a with
  | nil =>
      cases h
      rfl
  | cons path paths ih =>
      rw [List.map_cons, List.foldlM_cons, Option.bind_eq_bind, Option.bind_eq_some_iff] at h
      obtain ⟨between, hpath, hrest⟩ := h
      show (a.setInput path >>= fun b => b.takePaths paths) = _
      rw [setInput_eq hpath]
      exact ih hrest

/-! ### Choices that repeat none before them -/

theorem asked_append (front back : List Choice) :
    asked (front ++ back) =
      { input := (asked front).input.or (asked back).input
        format := (asked front).format.or (asked back).format
        output := (asked front).output.or (asked back).output
        outputDir := (asked front).outputDir.or (asked back).outputDir
        schema := (asked front).schema.or (asked back).schema
        eventTypes := (asked front).eventTypes.or (asked back).eventTypes
        overwrite := (asked front).overwrite || (asked back).overwrite
        noChecksums := (asked front).noChecksums || (asked back).noChecksums
        strictLength := (asked front).strictLength || (asked back).strictLength
        noIndent := (asked front).noIndent || (asked back).noIndent
        hideRecordNumbers := (asked front).hideRecordNumbers || (asked back).hideRecordNumbers
        verbosity := (asked front).verbosity + (asked back).verbosity } := by
  simp only [asked, List.findSome?_append, List.contains_append, List.count_append]

theorem findSome?_of_new {α : Type} {value? : Choice → Option α} {before : List Choice} {c : Choice}
    (hnew : ∀ d ∈ before, d.repeats c = false)
    (hvalue : ∀ d, value? d = none ∨ d.repeats c = true) : before.findSome? value? = none := by
  refine List.findSome?_eq_none_iff.mpr fun d hd => (hvalue d).resolve_right ?_
  rw [hnew d hd]
  exact Bool.false_ne_true

theorem not_mem_of_new {before : List Choice} {s : Switch} (hs : s ≠ .verbose)
    (hnew : ∀ d ∈ before, d.repeats (.switch s) = false) : .switch s ∉ before := by
  intro hmem
  have hrepeats := hnew _ hmem
  simp [Choice.repeats, hs] at hrepeats

/-- A choice that repeats none before it is taken, and nothing else changes. -/
theorem choose?_asked {before : List Choice} {c : Choice}
    (hnew : ∀ d ∈ before, d.repeats c = false) (hhelp : c ≠ .switch .help)
    (hversion : c ≠ .switch .version) :
    choose? (asked before) c = some (asked (before ++ [c])) := by
  rw [asked_append]
  cases c with
  | input _ | format _ | output _ | outputDir _ | schema _ | eventTypes _ =>
      -- Its member is still unset, since no choice before gave the same option.
      rw [choose?, Option.ite_none_right_eq_some]
      refine (and_iff_left_of_imp fun hnone => ?_).mpr (findSome?_of_new hnew fun d => ?_)
      · rw [hnone]
        simp [asked]
      · cases d <;> simp [Choice.repeats]
  | switch s =>
      cases s with
      | help => exact absurd rfl hhelp
      | version => exact absurd rfl hversion
      | verbose => simp [choose?, asked]
      | _ =>
          have habsent := not_mem_of_new (by decide) hnew
          simp [choose?, asked, habsent]

theorem foldlM_asked {choices : List Choice} (h : Consistent choices) :
    choices.foldlM choose? {} = some (asked choices) := by
  -- From the end: what the earlier choices ask for does not depend on the last one.
  induction choices using List.reverseRecOn with
  | nil => rfl
  | append_singleton before c ih =>
      obtain ⟨hbefore, -, hnew⟩ := List.pairwise_append.mp h.distinct
      have hconsistent : Consistent before :=
        { distinct := hbefore
          no_help := fun hmem => h.no_help (List.mem_append_left _ hmem)
          no_version := fun hmem => h.no_version (List.mem_append_left _ hmem) }
      have hlast : c ∈ before ++ [c] := List.mem_append_right _ (List.mem_singleton_self c)
      rw [List.foldlM_append, ih hconsistent]
      show (choose? (asked before) c).bind pure = _
      rw [choose?_asked (fun d hd => hnew d hd c (List.mem_singleton_self c))
        (fun hc => h.no_help (hc ▸ hlast)) (fun hc => h.no_version (hc ▸ hlast))]
      rfl

/-! ### Spelled choices -/

theorem isValue_of_isPlain {argument : String} (h : IsPlain argument) :
    Arguments.isValue argument = true := by
  rw [Arguments.isValue, Bool.or_eq_true, bne_iff_ne, beq_iff_eq]
  exact h.symm

theorem takeArgument_plain {a b : Arguments} {path : String} (h : IsPlain path)
    (hpath : choose? a (.input path) = some b) : a.takeArgument path = .ok (b, none) := by
  have htake : a.takeArgument path = (a.setInput path >>= fun b => pure (b, none)) := by
    rcases h with rfl | hhead
    · rfl
    · rw [Arguments.takeArgument]
      split
      · next hlong => simp [hlong] at hhead
      · next hhyphen => simp [hhyphen] at hhead
      · next hletters => simp [hletters] at hhead
      · rfl
  rw [htake, setInput_eq hpath]
  rfl

theorem letter_ne_hyphen {s : Switch} {c : Char} (h : switchLetter? s = some c) : c ≠ '-' := by
  cases s <;> cases h <;> decide

theorem optionLetter_ne_hyphen {option : ValueOption} {c : Char}
    (h : optionLetter? option = some c) : c ≠ '-' := by
  cases option <;> cases h <;> decide

theorem long_ne {long : String} (h : long ≠ "") : "--" ++ long ≠ "--" := by
  intro heq
  have hchars := congrArg String.toList heq
  rw [String.toList_append] at hchars
  exact h (String.toList_eq_nil_iff.mp (List.append_right_eq_self.mp hchars))

theorem letters_ne {c : Char} (hc : c ≠ '-') (cs : List Char) :
    String.ofList ('-' :: c :: cs) ≠ "--" := by
  intro heq
  have hchars := congrArg String.toList heq
  rw [String.toList_ofList] at hchars
  exact hc (List.cons.inj (List.cons.inj hchars).2).1

/-- The first of some letters of switches, or what follows if there are none, is no hyphen. -/
theorem exists_first_letter {letters : List Char} {switches : List Switch}
    (hletters : List.Forall₂ (fun c s => switchLetter? s = some c) letters switches) {c : Char}
    (hc : c ≠ '-') (cs : List Char) :
    ∃ d ds, letters ++ c :: cs = d :: ds ∧ d ≠ '-' := by
  cases hletters with
  | nil => exact ⟨c, cs, rfl, hc⟩
  | cons hletter _ => exact ⟨_, _, rfl, letter_ne_hyphen hletter⟩

/-- An argument that is complete is taken by itself. -/
theorem takeAll_complete {a b : Arguments} {argument : String} (hne : argument ≠ "--")
    (h : a.takeArgument argument = .ok (b, none)) (rest : List String) :
    a.takeAll (argument :: rest) = b.takeAll rest := by
  rw [Arguments.takeAll, if_neg hne, h]

/-- An option whose value is to follow is taken with the next argument. -/
theorem takeAll_separate {a between b : Arguments} {argument text : String} {option : ValueOption}
    (hne : argument ≠ "--") (h : a.takeArgument argument = .ok (between, some option))
    (hplain : IsPlain text) (hset : between.setValue option text = .ok b) (rest : List String) :
    a.takeAll (argument :: text :: rest) = b.takeAll rest := by
  rw [Arguments.takeAll, if_neg hne, h]
  dsimp only
  rw [if_pos (isValue_of_isPlain hplain), hset]

theorem takeAll_path {a b : Arguments} {path : String} (hplain : IsPlain path)
    (h : choose? a (.input path) = some b) (rest : List String) :
    a.takeAll (path :: rest) = b.takeAll rest := by
  have hne : path ≠ "--" := by
    rintro rfl
    rcases hplain with heq | hhead
    · exact absurd heq (by decide)
    · exact hhead rfl
  exact takeAll_complete hne (takeArgument_plain hplain h) rest

theorem takeAll_switch {a b : Arguments} {s : Switch} {name : String}
    (hname : switchName? s = some name) (h : choose? a (.switch s) = some b) (rest : List String) :
    a.takeAll (("--" ++ name) :: rest) = b.takeAll rest := by
  have hne : name ≠ "" := by
    cases s <;> cases hname <;> decide
  exact takeAll_complete (long_ne hne) (takeLong_switch hname h) rest

theorem takeAll_attached {a b : Arguments} {option : ValueOption} {text : String} {choice : Choice}
    (htext : SpellsValue option text choice) (h : choose? a choice = some b) (rest : List String) :
    a.takeAll (("--" ++ optionName option ++ "=" ++ text) :: rest) = b.takeAll rest := by
  have hne : "--" ++ optionName option ++ "=" ++ text ≠ "--" := by
    rw [String.append_assoc, String.append_assoc]
    refine long_ne fun hempty => ?_
    have hchars : (optionName option).toList ++ ("=" ++ text).toList = [] := by
      rw [← String.toList_append, hempty]
      rfl
    cases option <;> cases (List.append_eq_nil_iff.mp hchars).1
  exact takeAll_complete hne (takeLong_attached htext h) rest

theorem takeAll_option {a b : Arguments} {option : ValueOption} {text : String} {choice : Choice}
    (hplain : IsPlain text) (htext : SpellsValue option text choice) (h : choose? a choice = some b)
    (rest : List String) :
    a.takeAll (("--" ++ optionName option) :: text :: rest) = b.takeAll rest := by
  have hne : optionName option ≠ "" := by
    cases option <;> decide
  exact takeAll_separate (long_ne hne) (takeLong_option a option) hplain (setValue_eq htext h) rest

section

variable {letters : List Char} {switches : List Switch}
  (hletters : List.Forall₂ (fun c s => switchLetter? s = some c) letters switches)
  {a between b : Arguments} (hswitches : (switches.map Choice.switch).foldlM choose? a = some between)

include hletters hswitches

theorem takeAll_letters (hne : letters ≠ []) (rest : List String) :
    a.takeAll (String.ofList ('-' :: letters) :: rest) = between.takeAll rest := by
  have htake := takeLetters_append hletters hswitches []
  rw [List.append_nil] at htake
  cases hletters with
  | nil => exact absurd rfl hne
  | cons hletter _ =>
      have hc := letter_ne_hyphen hletter
      exact takeAll_complete (letters_ne hc _) ((takeArgument_letters hc a _).trans htake) rest

variable {c : Char} {option : ValueOption} {text : String} {choice : Choice}
  (hletter : optionLetter? option = some c) (htext : SpellsValue option text choice)
  (h : choose? between choice = some b)

include hletter htext h

theorem takeAll_lettersAttached {value : List Char} (hvalue : Attached value text)
    (rest : List String) :
    a.takeAll (String.ofList ('-' :: (letters ++ c :: value)) :: rest) = b.takeAll rest := by
  have htake := takeLetters_append hletters hswitches (c :: value)
  rw [takeLetters_attached hletter hvalue htext h] at htake
  obtain ⟨d, ds, hfirst, hd⟩ :=
    exists_first_letter hletters (optionLetter_ne_hyphen hletter) value
  rw [hfirst] at htake ⊢
  exact takeAll_complete (letters_ne hd ds) ((takeArgument_letters hd a ds).trans htake) rest

theorem takeAll_lettersSeparate (hplain : IsPlain text) (rest : List String) :
    a.takeAll (String.ofList ('-' :: (letters ++ [c])) :: text :: rest) = b.takeAll rest := by
  have htake := takeLetters_append hletters hswitches [c]
  rw [takeLetters_letter hletter] at htake
  obtain ⟨d, ds, hfirst, hd⟩ := exists_first_letter hletters (optionLetter_ne_hyphen hletter) []
  rw [hfirst] at htake ⊢
  exact takeAll_separate (letters_ne hd ds) ((takeArgument_letters hd a ds).trans htake) hplain
    (setValue_eq htext h) rest

end

/-- **Arguments are taken as the choices that they spell.** -/
theorem takeAll_of_spells {arguments : List String} {choices : List Choice}
    (h : Spells arguments choices) {a b : Arguments} (hchoices : choices.foldlM choose? a = some b) :
    a.takeAll arguments = .ok b := by
  -- One case for each way to spell a choice; what was chosen before does not matter.
  induction h generalizing a with
  | nil =>
      cases hchoices
      rfl
  | paths paths =>
      rw [Arguments.takeAll, if_pos rfl]
      exact takePaths_eq hchoices
  | path hplain _ ih =>
      obtain ⟨between, hpath, hrest⟩ := Option.bind_eq_some_iff.mp hchoices
      exact (takeAll_path hplain hpath _).trans (ih hrest)
  | switch hname _ ih =>
      obtain ⟨between, hswitch, hrest⟩ := Option.bind_eq_some_iff.mp hchoices
      exact (takeAll_switch hname hswitch _).trans (ih hrest)
  | attached htext _ ih =>
      obtain ⟨between, hchoice, hrest⟩ := Option.bind_eq_some_iff.mp hchoices
      exact (takeAll_attached htext hchoice _).trans (ih hrest)
  | separate hplain htext _ ih =>
      obtain ⟨between, hchoice, hrest⟩ := Option.bind_eq_some_iff.mp hchoices
      exact (takeAll_option hplain htext hchoice _).trans (ih hrest)
  | letters hne hletters _ ih =>
      rw [List.foldlM_append] at hchoices
      obtain ⟨between, hswitches, hrest⟩ := Option.bind_eq_some_iff.mp hchoices
      exact (takeAll_letters hletters hswitches hne _).trans (ih hrest)
  | lettersAttached hletters hletter hvalue htext _ ih =>
      rw [List.foldlM_append] at hchoices
      obtain ⟨between, hswitches, hchoices⟩ := Option.bind_eq_some_iff.mp hchoices
      obtain ⟨last, hchoice, hrest⟩ := Option.bind_eq_some_iff.mp hchoices
      have htake := takeAll_lettersAttached hletters hswitches hletter htext hchoice hvalue
      exact (htake _).trans (ih hrest)
  | lettersSeparate hletters hletter hplain htext _ ih =>
      rw [List.foldlM_append] at hchoices
      obtain ⟨between, hswitches, hchoices⟩ := Option.bind_eq_some_iff.mp hchoices
      obtain ⟨last, hchoice, hrest⟩ := Option.bind_eq_some_iff.mp hchoices
      have htake := takeAll_lettersSeparate hletters hswitches hletter htext hchoice hplain
      exact (htake _).trans (ih hrest)

/-- **A command line is read as what it asks for**, if it names a log and one output at most. -/
theorem parse_of_asks {arguments : List String} {a : Arguments} (h : Asks arguments a)
    {input : String} (hinput : a.input = some input)
    (houtput : a.output = none ∨ a.outputDir = none) :
    Arguments.parse arguments = .ok (a, input) := by
  obtain ⟨choices, hspells, hconsistent, rfl⟩ := h
  have hcheck : (asked choices).check = .ok (asked choices, input) := by
    have hone : ((asked choices).output.isSome && (asked choices).outputDir.isSome) = false := by
      rcases houtput with hnone | hnone <;> simp [hnone]
    rw [Arguments.check, hone, hinput]
    rfl
  show (Arguments.takeAll {} arguments >>= Arguments.check) = _
  rw [takeAll_of_spells hspells (foldlM_asked hconsistent)]
  exact hcheck

end EventLog.CommandLine
