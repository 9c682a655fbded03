/-
MidiTraining/Lib/CommandLine.lean

Command lines: a program and its arguments in one string.

`words p l` are the maximal parts of `l` without separators.  Parts that are
words themselves survive being joined and split again
(`words_intercalate`), and every part of a split is a word (`isWord_of_mem`).

`SplitsCommands isSpace split` is what a splitter with quotes promises: a
command without double quotes is split into its words, and a double quote
reaches an argument only where three of them stand in the command.
`splitCommand` is such a splitter (`splitCommand_splits`): double quotes
group, and three in a row stand for one.
-/
import Mathlib.Data.List.Basic

namespace CommandLine

variable {α : Type*} {p : α → Bool} {l w : List α} {s : α}

/-! ### Words -/

/-- A part that splitting leaves whole. -/
def IsWord (p : α → Bool) (w : List α) : Prop := w ≠ [] ∧ ∀ a ∈ w, p a = false

instance [DecidableEq α] (p : α → Bool) (w : List α) : Decidable (IsWord p w) := by
  unfold IsWord
  infer_instance

/-- The maximal parts without separators. -/
def words (p : α → Bool) (l : List α) : List (List α) := (l.splitOnP p).filter fun w => !w.isEmpty

theorem not_sep_of_mem_splitOnP (h : w ∈ l.splitOnP p) : ∀ a ∈ w, p a = false := by
  induction l generalizing w with
  | nil =>
    obtain rfl : w = [] := by simpa using h
    simp
  | cons b l ih =>
    rw [List.splitOnP_cons_eq_if_modifyHead] at h
    rcases hb : p b with - | -
    · rw [hb] at h
      obtain ⟨v, vs, hsplit⟩ := List.exists_cons_of_ne_nil (List.splitOnP_ne_nil p l)
      simp only [hsplit, Bool.false_eq_true, if_false, List.modifyHead_cons, List.mem_cons] at h
      rcases h with rfl | hmem
      · intro a ha
        rcases List.mem_cons.mp ha with rfl | ha
        · exact hb
        · exact ih (by simp [hsplit]) a ha
      · exact ih (by simp [hsplit, hmem])
    · rw [hb] at h
      simp only [if_true, List.mem_cons] at h
      rcases h with rfl | hmem
      · simp
      · exact ih hmem

/-- Every part of a split is a word. -/
theorem isWord_of_mem (h : w ∈ words p l) : IsWord p w := by
  obtain ⟨hmem, hne⟩ := List.mem_filter.mp h
  exact ⟨by simpa using hne, not_sep_of_mem_splitOnP hmem⟩

@[simp] theorem words_nil : words p [] = [] := by simp [words]

theorem words_of_isWord (h : IsWord p w) : words p w = [w] := by
  rw [words, List.splitOnP_eq_singleton h.2]
  simp [h.1]

theorem words_append_cons (p : α → Bool) (l l' : List α) (hs : p s = true) :
    words p (l ++ s :: l') = words p l ++ words p l' := by
  rw [words, List.splitOnP_append_cons l l' hs, List.filter_append]
  rfl

/-- **Words survive being joined and split again.** -/
theorem words_intercalate (hs : p s = true) {ws : List (List α)} (h : ∀ w ∈ ws, IsWord p w) :
    words p ([s].intercalate ws) = ws := by
  induction ws with
  | nil => simp
  | cons w ws ih =>
    have hw := words_of_isWord (h w (by simp))
    rcases ws with - | ⟨v, ws⟩
    · rw [List.intercalate_singleton, hw]
    · rw [List.intercalate_cons_cons, List.append_assoc, List.singleton_append,
        words_append_cons p _ _ hs, hw, ih fun u hu => h u (by simp [hu])]
      rfl

/-- Joining adds no element but separators. -/
theorem count_intercalate [DecidableEq α] {a : α} (hs : s ≠ a) (ws : List (List α)) :
    ([s].intercalate ws).count a = ws.flatten.count a := by
  induction ws with
  | nil => simp
  | cons w ws ih =>
    rcases ws with - | ⟨v, ws⟩
    · simp
    · rw [List.intercalate_cons_cons, List.count_append, List.count_append, ih,
        List.count_singleton, if_neg (by simpa using hs), Nat.add_zero,
        List.flatten_cons (l := w), List.count_append]

/-! ### Splitting with quotes -/

/-- What a splitter promises. -/
structure SplitsCommands (isSpace : Char → Bool) (split : List Char → List (List Char)) : Prop where
  /-- The space separates arguments. -/
  space : isSpace ' ' = true
  /-- The visible ASCII characters do not. -/
  graphic : ∀ c, '!' ≤ c → c ≤ '~' → isSpace c = false
  /-- A command without double quotes is split into its words. -/
  unquoted : ∀ cs, '"' ∉ cs → split cs = words isSpace cs
  /-- A double quote in an argument takes three in the command. -/
  literal : ∀ cs, 3 * (split cs).flatten.count '"' ≤ cs.count '"'

/-- The loop of `splitCommand`: `quotes` counts the double quotes just read,
`inQuote` tells whether a quotation is open, `tmp` is the argument so far. -/
def splitLoop (isSpace : Char → Bool) (quotes : ℕ) (inQuote : Bool) (tmp : List Char) :
    List Char → List (List Char)
  | [] => if tmp = [] then [] else [tmp]
  | c :: cs =>
      if c = '"' then
        if quotes = 2 then splitLoop isSpace 0 inQuote (tmp ++ [c]) cs
        else splitLoop isSpace (quotes + 1) inQuote tmp cs
      else
        let inQuote := if quotes = 1 then !inQuote else inQuote
        if !inQuote && isSpace c then
          if tmp = [] then splitLoop isSpace 0 inQuote [] cs
          else tmp :: splitLoop isSpace 0 inQuote [] cs
        else splitLoop isSpace 0 inQuote (tmp ++ [c]) cs

/-- Split a command at the spaces outside of quotations. -/
def splitCommand (isSpace : Char → Bool) (cs : List Char) : List (List Char) :=
  splitLoop isSpace 0 false [] cs

section splitCommand

variable {isSpace : Char → Bool}

theorem splitLoop_unquoted {tmp : List Char} (htmp : ∀ c ∈ tmp, isSpace c = false) {cs : List Char}
    (h : '"' ∉ cs) : splitLoop isSpace 0 false tmp cs = words isSpace (tmp ++ cs) := by
  induction cs generalizing tmp with
  | nil =>
    rw [List.append_nil, splitLoop]
    split
    · rename_i hnil
      simp [hnil]
    · rename_i hne
      rw [words_of_isWord ⟨hne, htmp⟩]
  | cons c cs ih =>
    have hc : c ≠ '"' := fun hc => h (by simp [hc])
    have hcs : '"' ∉ cs := fun hmem => h (by simp [hmem])
    rcases hspace : isSpace c with - | -
    · have happ : ∀ d ∈ tmp ++ [c], isSpace d = false := by
        intro d hd
        rcases List.mem_append.mp hd with hd | hd
        · exact htmp d hd
        · rw [List.mem_singleton.mp hd]
          exact hspace
      have hrest := ih happ hcs
      rw [List.append_assoc, List.singleton_append] at hrest
      simp [splitLoop, hc, hspace, hrest]
    · have hrest : splitLoop isSpace 0 false [] cs = words isSpace ([] ++ cs) := ih (by simp) hcs
      rw [List.nil_append] at hrest
      rw [words_append_cons isSpace tmp cs hspace, ← hrest]
      by_cases hne : tmp = []
      · subst hne
        simp [splitLoop, hc, hspace]
      · rw [words_of_isWord ⟨hne, htmp⟩]
        simp [splitLoop, hc, hspace, hne]

/-- A double quote is added to an argument at the third in a row. -/
theorem splitLoop_literal {n : ℕ} (hn : n ≤ 2) (inQuote : Bool) (tmp cs : List Char) :
    3 * (splitLoop isSpace n inQuote tmp cs).flatten.count '"' ≤
      3 * tmp.count '"' + n + cs.count '"' := by
  induction cs generalizing n inQuote tmp with
  | nil =>
    rw [splitLoop]
    split
    · simp
    · simp
  | cons c cs ih =>
    by_cases hc : c = '"'
    · subst hc
      rw [List.count_cons_self, splitLoop, if_pos rfl]
      split
      · have h := ih (n := 0) (by omega) inQuote (tmp ++ ['"'])
        rw [List.count_append, List.count_singleton_self] at h
        omega
      · have h := ih (n := n + 1) (by omega) inQuote tmp
        omega
    · have hcount : (c :: cs).count '"' = cs.count '"' := List.count_cons_of_ne hc
      have hkeep (q : Bool) := ih (n := 0) (by omega) q (tmp ++ [c])
      have hsplit (q : Bool) := ih (n := 0) (by omega) q []
      have hone : (tmp ++ [c]).count '"' = tmp.count '"' := by
        rw [List.count_append, List.count_singleton, if_neg (by simpa using hc), Nat.add_zero]
      rw [hcount, splitLoop, if_neg hc]
      show 3 * (List.flatten (if _ then _ else _)).count '"' ≤ _
      generalize (if n = 1 then !inQuote else inQuote) = q
      have hdrop := hsplit q
      rw [List.count_nil] at hdrop
      split
      · split
        · omega
        · rw [List.flatten_cons, List.count_append]
          omega
      · have h := hkeep q
        rw [hone] at h
        omega

/-- **`splitCommand` keeps the promises**, for any test for white space that
the space passes and no visible ASCII character does. -/
theorem splitCommand_splits (hspace : isSpace ' ' = true)
    (hgraphic : ∀ c, '!' ≤ c → c ≤ '~' → isSpace c = false) :
    SplitsCommands isSpace (splitCommand isSpace) where
  space := hspace
  graphic := hgraphic
  unquoted := fun _ h => splitLoop_unquoted (by simp) h
  literal := fun cs => by
    have h : 3 * (splitCommand isSpace cs).flatten.count '"' ≤ 3 * 0 + 0 + cs.count '"' :=
      splitLoop_literal (by omega) false [] cs
    omega

end splitCommand

end CommandLine
