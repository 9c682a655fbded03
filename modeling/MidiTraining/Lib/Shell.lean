/-
MidiTraining/Lib/Shell.lean

Simple commands of the shell: words, blanks and double quotations.

`shellWords` reads a command that uses no other syntax; where it meets a
character that the shell gives another meaning, an expansion or an operator,
it says nothing (`none`).  The same quotation can begin and end inside of a
word, so a word is written in *pieces*, bare ones and quoted ones.

A command written in pieces is read as it was meant
(`shellWords_write`).
-/
import Mathlib.Data.List.Basic

namespace Shell

/-! ### Reading -/

/-- The blanks that separate words. -/
def isBlank (c : Char) : Bool := c = ' ' || c = '\t'

/-- What has to be quoted to stand for itself. -/
def isSpecial (c : Char) : Bool :=
  c ∈ ['|', '&', ';', '<', '>', '(', ')', '$', '\x60', '\\', '"', '\'', '\n', '*', '?', '[', '#',
    '~', '=', '%', '!', '\x7b', '\x7d']

/-- What keeps its meaning inside of a double quotation. -/
def isActive (c : Char) : Bool := c ∈ ['$', '\x60', '\\', '"']

/-- The loop of `shellWords`: whether a quotation is open, and the word that is
being read, if any. -/
def readWords (quoted : Bool) (word : Option (List Char)) : List Char → Option (List (List Char))
  | [] => if quoted then none else some word.toList
  | c :: cs =>
    if c = '"' then readWords (!quoted) (some (word.getD [])) cs
    else if quoted then
      if isActive c then none else readWords true (some (word.getD [] ++ [c])) cs
    else if isBlank c then (readWords false none cs).map (word.toList ++ ·)
    else if isSpecial c then none
    else readWords false (some (word.getD [] ++ [c])) cs

/-- The words of a simple command. -/
def shellWords (cs : List Char) : Option (List (List Char)) := readWords false none cs

/-! ### Writing -/

/-- A part of a word. -/
inductive Piece
  | bare (cs : List Char)
  | quoted (cs : List Char)
  deriving DecidableEq, Repr

namespace Piece

/-- What it stands for. -/
def text : Piece → List Char
  | bare cs => cs
  | quoted cs => cs

/-- How it is written. -/
def write : Piece → List Char
  | bare cs => cs
  | quoted cs => '"' :: cs ++ ['"']

/-- It can be written so. -/
def Ok : Piece → Prop
  | bare cs => cs ≠ [] ∧ ∀ c ∈ cs, isBlank c = false ∧ isSpecial c = false
  | quoted cs => ∀ c ∈ cs, isActive c = false

instance : (p : Piece) → Decidable p.Ok
  | bare cs => inferInstanceAs
      (Decidable (cs ≠ [] ∧ ∀ c ∈ cs, isBlank c = false ∧ isSpecial c = false))
  | quoted cs => inferInstanceAs (Decidable (∀ c ∈ cs, isActive c = false))

end Piece

/-- What a word in pieces stands for. -/
def wordText (w : List Piece) : List Char := w.flatMap Piece.text

/-- How it is written. -/
def writeWord (w : List Piece) : List Char := w.flatMap Piece.write

/-- A command: its words, with a blank between them. -/
def writeCommand (ws : List (List Piece)) : List Char := [' '].intercalate (ws.map writeWord)

/-! ### The round trip -/

/-- A quote is special. -/
theorem ne_quote_of_not_special {c : Char} (h : isSpecial c = false) : c ≠ '"' := by
  rintro rfl
  exact absurd h (by decide)

theorem ne_quote_of_not_active {c : Char} (h : isActive c = false) : c ≠ '"' := by
  rintro rfl
  exact absurd h (by decide)

/-- Outside of a quotation, characters with no meaning are read into the
word. -/
theorem readWords_bare {word : List Char} {cs : List Char}
    (h : ∀ c ∈ cs, isBlank c = false ∧ isSpecial c = false) (rest : List Char) :
    readWords false (some word) (cs ++ rest) = readWords false (some (word ++ cs)) rest := by
  induction cs generalizing word with
  | nil => rw [List.nil_append, List.append_nil]
  | cons c cs ih =>
    obtain ⟨hblank, hspecial⟩ := h c List.mem_cons_self
    have hrest := @ih (word ++ [c]) fun d hd => h d (List.mem_cons_of_mem c hd)
    rw [List.append_assoc, List.singleton_append] at hrest
    rw [← hrest]
    simp [readWords, ne_quote_of_not_special hspecial, hblank, hspecial]

/-- A quotation is read into the word as it stands. -/
theorem readWords_quoted {word : List Char} {cs : List Char} (h : ∀ c ∈ cs, isActive c = false)
    (rest : List Char) :
    readWords true (some word) (cs ++ '"' :: rest) = readWords false (some (word ++ cs)) rest := by
  induction cs generalizing word with
  | nil =>
    rw [List.append_nil]
    rfl
  | cons c cs ih =>
    have hactive := h c List.mem_cons_self
    have hrest := @ih (word ++ [c]) fun d hd => h d (List.mem_cons_of_mem c hd)
    rw [List.append_assoc, List.singleton_append] at hrest
    rw [← hrest]
    simp [readWords, ne_quote_of_not_active hactive, hactive]

/-- A piece is read as its text, whether it is quoted or not. -/
theorem readWords_piece {p : Piece} (h : p.Ok) (word : Option (List Char)) (rest : List Char) :
    readWords false word (p.write ++ rest) =
      readWords false (some (word.getD [] ++ p.text)) rest := by
  cases p with
  | bare cs =>
    obtain ⟨hne, hall⟩ := h
    obtain ⟨c, cs, rfl⟩ := List.exists_cons_of_ne_nil hne
    obtain ⟨hblank, hspecial⟩ := hall c List.mem_cons_self
    have hrest := @readWords_bare (word.getD [] ++ [c]) cs
      (fun d hd => hall d (List.mem_cons_of_mem c hd)) rest
    rw [List.append_assoc, List.singleton_append] at hrest
    show readWords false word (c :: (cs ++ rest)) = readWords false (some (word.getD [] ++ _)) rest
    rw [Piece.text, ← hrest]
    simp [readWords, ne_quote_of_not_special hspecial, hblank, hspecial]
  | quoted cs =>
    show readWords false word ('"' :: cs ++ ['"'] ++ rest) = _
    rw [List.append_assoc, List.singleton_append]
    show readWords true (some (word.getD [])) (cs ++ '"' :: rest) = _
    rw [readWords_quoted h]
    rfl

/-- A word is read as the texts of its pieces. -/
theorem readWords_word {w : List Piece} (hne : w ≠ []) (h : ∀ p ∈ w, p.Ok)
    (word : Option (List Char)) (rest : List Char) :
    readWords false word (writeWord w ++ rest) =
      readWords false (some (word.getD [] ++ wordText w)) rest := by
  induction w generalizing word with
  | nil => exact absurd rfl hne
  | cons p w ih =>
    have hp := readWords_piece (h p List.mem_cons_self) word (writeWord w ++ rest)
    rw [writeWord, List.flatMap_cons, List.append_assoc, wordText, List.flatMap_cons,
      ← List.append_assoc (word.getD [])]
    refine hp.trans ?_
    rcases w with - | ⟨q, w⟩
    · simp [writeWord]
    · exact ih (List.cons_ne_nil q w) (fun d hd => h d (List.mem_cons_of_mem p hd)) _

/-- **A command written in pieces is read as it was meant.** -/
theorem shellWords_write {ws : List (List Piece)} (h : ∀ w ∈ ws, w ≠ [] ∧ ∀ p ∈ w, p.Ok) :
    shellWords (writeCommand ws) = some (ws.map wordText) := by
  induction ws with
  | nil => rfl
  | cons w ws ih =>
    obtain ⟨hne, hok⟩ := h w List.mem_cons_self
    have hrest := ih fun v hv => h v (List.mem_cons_of_mem w hv)
    rcases ws with - | ⟨v, ws⟩
    · have hword := readWords_word hne hok none []
      rw [List.append_nil] at hword
      rw [writeCommand, List.map_singleton, List.intercalate_singleton]
      exact hword
    · rw [writeCommand, List.map_cons, List.map_cons, List.intercalate_cons_cons,
        List.append_assoc, List.singleton_append, shellWords, readWords_word hne hok]
      show (shellWords (writeCommand (v :: ws))).map _ = _
      rw [hrest]
      rfl

end Shell
