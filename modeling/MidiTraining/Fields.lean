/-
MidiTraining/Fields.lean

What is typed into the plugin, at the other end.

A number in a text field is written into the command of the START button,
split off by Qt and read by `atoi` (`atoi_decimal`).  The name of the
instrument goes further: `main` writes it between double quotes into the
buffer `cmd[100]`, and the shell that `system` starts reads the words of
`aconnect` from there.

If no part of a name is taken for a separator or for an expansion on the way,
everything arrives: the parameters of `MIT`, the file `aplaymidi` plays and,
as long as the command fits its buffer, the port `aconnect` connects
(`fields_arrive`).
-/
import MidiTraining.Lib.MachineInt
import MidiTraining.Lib.Shell
import MidiTraining.Plugin

namespace MidiTraining

open CommandLine MachineInt Shell

/-! ### Numbers -/

/-- A number, as it is typed. -/
def decimal : ℤ → List Char
  | .ofNat n => Nat.toDigits 10 n
  | .negSucc n => '-' :: Nat.toDigits 10 (n + 1)

theorem isDigit_bounds {c : Char} (h : c.isDigit = true) : '0' ≤ c ∧ c ≤ '9' := by
  rw [Char.isDigit, Bool.and_eq_true, decide_eq_true_eq, decide_eq_true_eq] at h
  exact h

theorem isDigit_of_mem_digits {c : Char} {n : ℕ} (h : c ∈ Nat.toDigits 10 n) : c.isDigit = true :=
  Nat.isDigit_of_mem_toDigits (by decide) (by decide) h

/-- The value of a digit. -/
theorem digit_value {c : Char} (h : c.isDigit = true) :
    ((c.toNat : ℤ) - ('0'.toNat : ℤ)) = ((c.toNat - '0'.toNat : ℕ) : ℤ) := by
  have hle : '0'.toNat ≤ c.toNat := (isDigit_bounds h).1
  omega

/-- `readDigits` reads the digits up to the first other character. -/
theorem readDigits_append {cs rest : List Char} (hcs : ∀ c ∈ cs, c.isDigit = true)
    (hrest : ∀ c ∈ rest.head?, c.isDigit = false) (n : ℕ) :
    readDigits n (cs ++ rest) = (Nat.ofDigitChars 10 cs n : ℤ) := by
  induction cs generalizing n with
  | nil =>
    rcases rest with - | ⟨c, rest⟩
    · rfl
    · have hc : c.isDigit = false := hrest c rfl
      show (if c.isDigit = true then _ else (n : ℤ)) = _
      rw [hc]
      rfl
  | cons c cs ih =>
    have hc := hcs c List.mem_cons_self
    have htail := ih (fun d hd => hcs d (List.mem_cons_of_mem c hd))
      (10 * n + (c.toNat - '0'.toNat))
    rw [Nat.ofDigitChars_cons, ← htail]
    show (if c.isDigit = true then readDigits _ (cs ++ rest) else _) = _
    rw [if_pos hc, digit_value hc]
    push_cast
    rfl

/-- The white space that `atoi` skips. -/
def isSkipped (c : Char) : Bool := c = ' ' || ('\t' ≤ c && c ≤ '\r')

theorem dropWhile_blanks {blanks cs : List Char} (hblanks : ∀ c ∈ blanks, isSkipped c = true)
    (hcs : ∀ c ∈ cs.head?, isSkipped c = false) :
    (blanks ++ cs).dropWhile isSkipped = cs := by
  rw [List.dropWhile_append_of_pos hblanks]
  rcases cs with - | ⟨c, cs⟩
  · rfl
  · have hc : isSkipped c = false := hcs c rfl
    rw [List.dropWhile_cons, hc]
    rfl

theorem atoi_of_minus {cs ds : List Char} (h : cs.dropWhile isSkipped = '-' :: ds) :
    atoi cs = -readDigits 0 ds := by
  rw [atoi]
  split
  · rename_i heq
    obtain ⟨-, rfl⟩ := List.cons.inj (h.symm.trans heq)
    rfl
  · rename_i heq
    exact absurd (List.cons.inj (h.symm.trans heq)).1 (by decide)
  · rename_i hminus _
    exact absurd h (hminus ds)

theorem atoi_of_number {cs ds : List Char} {c : Char} (h : cs.dropWhile isSkipped = c :: ds)
    (hminus : c ≠ '-') (hplus : c ≠ '+') : atoi cs = readDigits 0 (c :: ds) := by
  rw [atoi]
  split
  · rename_i heq
    exact absurd (List.cons.inj (h.symm.trans heq)).1 hminus
  · rename_i heq
    exact absurd (List.cons.inj (h.symm.trans heq)).1 hplus
  · exact congrArg (readDigits 0) h

/-- The first character of a number is a digit. -/
theorem digits_head (n : ℕ) : ∃ c cs, Nat.toDigits 10 n = c :: cs ∧ '0' ≤ c ∧ c ≤ '9' := by
  obtain ⟨c, cs, hdigits⟩ := List.exists_cons_of_ne_nil (Nat.toDigits_ne_nil (n := n) (b := 10))
  refine ⟨c, cs, hdigits, isDigit_bounds (isDigit_of_mem_digits (n := n) ?_)⟩
  rw [hdigits]
  exact List.mem_cons_self

theorem readDigits_decimal {rest : List Char} (hrest : ∀ c ∈ rest.head?, c.isDigit = false)
    (n : ℕ) : readDigits 0 (Nat.toDigits 10 n ++ rest) = n := by
  have h : readDigits (0 : ℕ) (Nat.toDigits 10 n ++ rest) =
      (Nat.ofDigitChars 10 (Nat.toDigits 10 n) 0 : ℤ) :=
    readDigits_append (fun c hc => isDigit_of_mem_digits hc) hrest 0
  rw [Nat.ofDigitChars_ten_toDigits] at h
  exact h

/-- **`atoi` reads a typed number**, after white space and up to the first
character that is not a digit. -/
theorem atoi_decimal {blanks rest : List Char} (hblanks : ∀ c ∈ blanks, isSkipped c = true)
    (hrest : ∀ c ∈ rest.head?, c.isDigit = false) (n : ℤ) :
    atoi (blanks ++ (decimal n ++ rest)) = n := by
  cases n with
  | ofNat n =>
    obtain ⟨c, cs, hdigits, hlow, hhigh⟩ := digits_head n
    have hne (d : Char) (hd : ¬ '0' ≤ d) : c ≠ d := fun heq => hd (heq ▸ hlow)
    have hskip : isSkipped c = false := by
      have hreturn : ¬ c ≤ '\r' := fun hle =>
        absurd (Char.le_trans hlow hle : '0' ≤ '\r') (by decide)
      simp [isSkipped, hne ' ' (by decide), hreturn]
    have hdrop : (blanks ++ (decimal (.ofNat n) ++ rest)).dropWhile isSkipped =
        c :: (cs ++ rest) := by
      have hdecimal : decimal (.ofNat n) = c :: cs := hdigits
      rw [hdecimal]
      exact dropWhile_blanks hblanks fun d hd => Option.some_inj.mp hd ▸ hskip
    rw [atoi_of_number hdrop (hne '-' (by decide)) (hne '+' (by decide))]
    have hread := readDigits_decimal hrest n
    rw [hdigits] at hread
    exact hread
  | negSucc n =>
    have hread := readDigits_decimal hrest (n + 1)
    have hdrop : (blanks ++ (decimal (.negSucc n) ++ rest)).dropWhile isSkipped =
        '-' :: (Nat.toDigits 10 (n + 1) ++ rest) := by
      refine dropWhile_blanks hblanks ?_
      intro c hc
      obtain rfl : '-' = c := Option.some_inj.mp hc
      decide
    rw [atoi_of_minus hdrop, hread]
    rfl

/-- A number is a word of visible characters. -/
theorem decimal_graphic (n : ℤ) :
    decimal n ≠ [] ∧ ∀ c ∈ decimal n, '!' ≤ c ∧ c ≤ '~' ∧ c ≠ '"' := by
  have hdigit {c : Char} (h : c.isDigit = true) : '!' ≤ c ∧ c ≤ '~' ∧ c ≠ '"' := by
    obtain ⟨hlow, hhigh⟩ := isDigit_bounds h
    have hleft : '!' ≤ '0' := by decide
    have hright : '9' ≤ '~' := by decide
    refine ⟨Char.le_trans hleft hlow, Char.le_trans hhigh hright, ?_⟩
    rintro rfl
    exact absurd hlow (by decide)
  cases n with
  | ofNat n => exact ⟨Nat.toDigits_ne_nil, fun c hc => hdigit (isDigit_of_mem_digits hc)⟩
  | negSucc n =>
    refine ⟨List.cons_ne_nil _ _, ?_⟩
    intro c hc
    rcases List.mem_cons.mp hc with rfl | hc
    · decide
    · exact hdigit (isDigit_of_mem_digits hc)

/-! ### The connection -/

/-- `"aconnect \"%s\" \"FloF Sequencer\":1"`. -/
def connectCommand (name : List Char) : List Char :=
  "aconnect \"".toList ++ name ++ "\" \"FloF Sequencer\":1".toList

/-- The bytes of a text. -/
def bytes (cs : List Char) : ℕ := (cs.map Char.utf8Size).sum

theorem bytes_append (cs ds : List Char) : bytes (cs ++ ds) = bytes cs + bytes ds := by
  rw [bytes, List.map_append, List.sum_append]
  rfl

/-- `sprintf` into a buffer: `none` where it writes past the end. -/
def sprintf (size : ℕ) (cs : List Char) : Option (List Char) :=
  if bytes cs + 1 ≤ size then some cs else none

/-- The words of the command that `system(cmd)` runs. -/
def connects (name : List Char) : Option (List (List Char)) :=
  (sprintf 100 (connectCommand name)).bind shellWords

/-- The command, in pieces. -/
theorem connectCommand_eq (name : List Char) :
    connectCommand name = writeCommand
      [[.bare "aconnect".toList], [.quoted name],
        [.quoted "FloF Sequencer".toList, .bare ":1".toList]] := by
  have h₁ : "aconnect \"".toList = "aconnect".toList ++ [' ', '"'] := by simp
  have h₂ : "\" \"FloF Sequencer\":1".toList =
      '"' :: ' ' :: '"' :: ("FloF Sequencer".toList ++ '"' :: ":1".toList) := by simp
  show "aconnect \"".toList ++ name ++ "\" \"FloF Sequencer\":1".toList = _
  rw [h₁, h₂]
  generalize "aconnect".toList = program
  generalize "FloF Sequencer".toList = client
  generalize ":1".toList = port
  simp [writeCommand, writeWord, Piece.write]

/-- **The instrument is connected** under its name if the name is not longer
than 69 bytes; with a longer one `sprintf` leaves the buffer. -/
theorem connects_eq {name : List Char} (h : ∀ c ∈ name, isActive c = false) :
    connects name =
      if bytes name ≤ 69 then some ["aconnect".toList, name, "FloF Sequencer:1".toList]
      else none := by
  have hlength : bytes (connectCommand name) = bytes name + 30 := by
    have hleft : bytes "aconnect \"".toList = 10 := by decide +kernel
    have hright : bytes "\" \"FloF Sequencer\":1".toList = 20 := by decide +kernel
    show bytes ("aconnect \"".toList ++ name ++ "\" \"FloF Sequencer\":1".toList) = _
    rw [bytes_append, bytes_append, hleft, hright]
    omega
  rw [connects, sprintf, hlength]
  by_cases hfits : bytes name ≤ 69
  · rw [if_pos hfits, if_pos (by omega)]
    show shellWords (connectCommand name) = _
    rw [connectCommand_eq, shellWords_write]
    · simp [wordText, Piece.text]
    · have hwords : (Piece.bare "aconnect".toList).Ok ∧
          (Piece.quoted "FloF Sequencer".toList).Ok ∧ (Piece.bare ":1".toList).Ok := by
        simp [Piece.Ok, isBlank, isSpecial, isActive]
      have hname : (Piece.quoted name).Ok := h
      intro w hw
      simp only [List.mem_cons, List.not_mem_nil, or_false] at hw
      rcases hw with rfl | rfl | rfl
      · exact ⟨List.cons_ne_nil _ _, List.forall_mem_singleton.mpr hwords.1⟩
      · exact ⟨List.cons_ne_nil _ _, List.forall_mem_singleton.mpr hname⟩
      · exact ⟨List.cons_ne_nil _ _,
          List.forall_mem_cons.mpr ⟨hwords.2.1, List.forall_mem_singleton.mpr hwords.2.2⟩⟩
  · rw [if_neg hfits, if_neg (by omega)]
    rfl

/-! ### The text fields -/

/-- What is typed: names, and numbers that an `int` holds. -/
structure Fields where
  instrumentName : List Char
  midiPath : List Char
  scoreName : List Char
  instrumentChannel : {n : ℤ // InWord 32 n}
  scoreChannel : {n : ℤ // InWord 32 n}
  maxBadness : {n : ℤ // InWord 32 n}
  weightStart : {n : ℤ // InWord 32 n}
  weightEndp : {n : ℤ // InWord 32 n}
  weightEndn : {n : ℤ // InWord 32 n}

namespace Fields

/-- The texts of the fields. -/
def launch (f : Fields) : Launch where
  instrumentName := f.instrumentName
  midiPath := f.midiPath
  scoreName := f.scoreName
  instrumentChannel := decimal f.instrumentChannel
  scoreChannel := decimal f.scoreChannel
  maxBadness := decimal f.maxBadness
  weightStart := decimal f.weightStart
  weightEndp := decimal f.weightEndp
  weightEndn := decimal f.weightEndn

/-- The MIDI file. -/
def file (f : Fields) : List Char := f.midiPath ++ "/".toList ++ f.scoreName ++ ".mid".toList

/-- The names hold no separators and no double quotes, and that of the
instrument nothing that the shell expands. -/
structure PlainNames (isSpace : Char → Bool) (f : Fields) : Prop where
  nonempty : f.instrumentName ≠ []
  instrument : ∀ c ∈ f.instrumentName, isSpace c = false ∧ isActive c = false
  file : ∀ c ∈ f.file, isSpace c = false ∧ c ≠ '"'

theorem plainNames_iff {isSpace : Char → Bool} {f : Fields} :
    f.PlainNames isSpace ↔ f.instrumentName ≠ [] ∧
      f.instrumentName.all (fun c => !isSpace c && !isActive c) = true ∧
      f.file.all (fun c => !isSpace c && c != '"') = true := by
  simp only [List.all_eq_true, Bool.and_eq_true, Bool.not_eq_true', bne_iff_ne]
  exact ⟨fun ⟨h₁, h₂, h₃⟩ => ⟨h₁, h₂, h₃⟩, fun ⟨h₁, h₂, h₃⟩ => ⟨h₁, h₂, h₃⟩⟩

instance (isSpace : Char → Bool) (f : Fields) : Decidable (f.PlainNames isSpace) :=
  decidable_of_iff _ plainNames_iff.symm

end Fields

section arrive

variable {isSpace : Char → Bool} {split : List Char → List (List Char)}

/-- The arguments are words. -/
theorem plain_of_plainNames (h : SplitsCommands isSpace split) {f : Fields}
    (hplain : f.PlainNames isSpace) : f.launch.Plain isSpace := by
  have hnumber (n : ℤ) : IsWord isSpace (decimal n) ∧ '"' ∉ decimal n := by
    obtain ⟨hne, hall⟩ := decimal_graphic n
    exact ⟨⟨hne, fun c hc => h.graphic c (hall c hc).1 (hall c hc).2.1⟩,
      fun hquote => (hall '"' hquote).2.2 rfl⟩
  have hinstrument : IsWord isSpace f.instrumentName ∧ '"' ∉ f.instrumentName :=
    ⟨⟨hplain.nonempty, fun c hc => (hplain.instrument c hc).1⟩,
      fun hquote => ne_quote_of_not_active (hplain.instrument '"' hquote).2 rfl⟩
  have hfile : IsWord isSpace f.file ∧ '"' ∉ f.file := by
    refine ⟨⟨?_, fun c hc => (hplain.file c hc).1⟩, fun hquote => (hplain.file '"' hquote).2 rfl⟩
    exact List.append_ne_nil_of_right_ne_nil _ (by decide)
  intro w hw
  simp only [Launch.args, Args.toList, List.mem_cons, List.not_mem_nil, or_false] at hw
  rcases hw with rfl | rfl | rfl | rfl | rfl | rfl | rfl | rfl
  · exact hinstrument
  · exact hfile
  · exact hnumber _
  · exact hnumber _
  · exact hnumber _
  · exact hnumber _
  · exact hnumber _
  · exact hnumber _

theorem atoi_number (n : ℤ) : atoi (decimal n) = n := by
  have hend : ∀ c ∈ ([] : List Char).head?, c.isDigit = false := by simp
  have h : atoi ([] ++ (decimal n ++ [])) = n := atoi_decimal (List.forall_mem_nil _) hend n
  rw [List.nil_append, List.append_nil] at h
  exact h

/-- **What is typed arrives**: the numbers are the parameters and the channels
of `MIT`, `aplaymidi` plays the file, and `aconnect` connects the instrument
if its name has at most 69 bytes; a longer name overflows the buffer. -/
theorem fields_arrive (h : SplitsCommands isSpace split) (f : Fields)
    (hplain : f.PlainNames isSpace) :
    ∃ a, readArgs (split f.launch.command) = some a ∧
      a.config = ⟨f.maxBadness, f.weightStart, f.weightEndp, f.weightEndn⟩ ∧
      a.start = initial f.scoreChannel f.instrumentChannel ∧
      playerArgv a = ["aplaymidi".toList, f.file, "-p".toList, "FloF Sequencer:0".toList] ∧
      connects a.connect = if bytes f.instrumentName ≤ 69 then
        some ["aconnect".toList, f.instrumentName, "FloF Sequencer:1".toList] else none := by
  refine ⟨f.launch.args, readArgs_of_plain h (plain_of_plainNames h hplain), ?_, ?_, rfl, ?_⟩
  · show Config.mk (atoi (decimal _)) (atoi (decimal _)) (atoi (decimal _)) (atoi (decimal _)) = _
    rw [atoi_number, atoi_number, atoi_number, atoi_number]
  · show initial (atoi (decimal _)) (atoi (decimal _)) = _
    rw [atoi_number, atoi_number]
  · exact connects_eq fun c hc => (hplain.instrument c hc).2

end arrive

/-- The fields as they stand when the plugin opens, but for the name. -/
def keyboardFields : Fields where
  instrumentName := "Keyboard".toList
  midiPath := "C:/Partitions".toList
  scoreName := "Scales".toList
  instrumentChannel := ⟨0, by decide⟩
  scoreChannel := ⟨0, by decide⟩
  maxBadness := ⟨100, by decide⟩
  weightStart := ⟨10, by decide⟩
  weightEndp := ⟨10, by decide⟩
  weightEndn := ⟨5, by decide⟩

theorem keyboard_arrives : ∃ a,
    readArgs (splitCommand Char.isWhitespace keyboardFields.launch.command) = some a ∧
      a.config = ⟨100, 10, 10, 5⟩ ∧
      connects a.connect =
        some ["aconnect".toList, "Keyboard".toList, "FloF Sequencer:1".toList] := by
  obtain ⟨a, hread, hconfig, -, -, hconnects⟩ := fields_arrive whitespace_splits keyboardFields
    (by decide)
  refine ⟨a, hread, hconfig, hconnects.trans ?_⟩
  have hbytes : bytes keyboardFields.instrumentName ≤ 69 := by decide +kernel
  exact if_pos hbytes

end MidiTraining
