/-
MidiTraining/Launch.lean

How the program is started.

The START button of `MIT.qml` writes the program, the instrument name, the
MIDI file and six text fields into one string, with spaces between them, and
`QProcess.start` splits that string again.  `main` takes its parameters from
the arguments by position and does not look at `argc`.

The splitting is Qt's, so it is a parameter here: any `split` that keeps the
promises of `SplitsCommands`.  `main` reads what was entered exactly when
each argument is a word without double quotes (`main_reads_fields_iff`);
the button writes no quotes of its own, so an instrument name with a space
in it, as the default one, shifts every later argument.

Strings are lists of characters.  `atoi` is exact, also where the number does
not fit into an `int`, which C leaves undefined.
-/
import MidiTraining.Event
import MidiTraining.Lib.CommandLine

namespace MidiTraining

open CommandLine

/-! ### `main` -/

/-- The digits that `atoi` reads, after the value of those before them. -/
def readDigits (n : ℤ) : List Char → ℤ
  | [] => n
  | c :: cs => if c.isDigit then readDigits (10 * n + (c.toNat - '0'.toNat : ℤ)) cs else n

/-- `atoi`: white space, a sign, digits; what follows is ignored. -/
def atoi (cs : List Char) : ℤ :=
  match cs.dropWhile fun c => c = ' ' || ('\t' ≤ c && c ≤ '\r') with
  | '-' :: cs => -readDigits 0 cs
  | '+' :: cs => readDigits 0 cs
  | cs => readDigits 0 cs

/-- The arguments `main` uses: the port it connects, the file it plays, the
channels of `track_inst` and `track_part`, and the parameters. -/
structure Args where
  connect : List Char
  play : List Char
  trackInst : List Char
  trackPart : List Char
  maxBadness : List Char
  weightStart : List Char
  weightEndp : List Char
  weightEndn : List Char
  deriving DecidableEq, Repr

namespace Args

/-- The arguments in their positions, from `argv[1]` on. -/
def toList (a : Args) : List (List Char) :=
  [a.connect, a.play, a.trackInst, a.trackPart, a.maxBadness, a.weightStart, a.weightEndp,
    a.weightEndn]

/-- The global parameters. -/
def config (a : Args) : Config where
  maxBadness := atoi a.maxBadness
  weightStart := atoi a.weightStart
  weightEndp := atoi a.weightEndp
  weightEndn := atoi a.weightEndn

/-- The tables that `main` creates. -/
def start (a : Args) : State := initial (atoi a.trackPart) (atoi a.trackInst)

end Args

/-- What `main` reads from `argv`: `none` where it reads past the end. -/
def readArgs (argv : List (List Char)) : Option Args := do
  return {
    connect := ← argv[1]?
    play := ← argv[2]?
    trackInst := ← argv[3]?
    trackPart := ← argv[4]?
    maxBadness := ← argv[5]?
    weightStart := ← argv[6]?
    weightEndp := ← argv[7]?
    weightEndn := ← argv[8]? }

/-- `main` reads the eight arguments after the program, and ignores more. -/
theorem readArgs_eq_some_iff {argv : List (List Char)} {a : Args} :
    readArgs argv = some a ↔ ∃ program rest, argv = program :: (a.toList ++ rest) := by
  constructor
  · intro h
    rcases argv with - | ⟨program, - | ⟨a₁, - | ⟨a₂, - | ⟨a₃, - | ⟨a₄, - | ⟨a₅, - | ⟨a₆, - | ⟨a₇,
      - | ⟨a₈, rest⟩⟩⟩⟩⟩⟩⟩⟩⟩ <;> cases h
    exact ⟨program, rest, rfl⟩
  · rintro ⟨program, rest, rfl⟩
    rfl

/-- `main`, from its arguments on. -/
def mainRun (argv : List (List Char)) (calls : List ((ℤ × Event) × List (ℤ × Event))) :
    Option (Except Fault (State × List (List Output))) :=
  (readArgs argv).map fun a => mainLoop a.config a.start calls

/-! ### The START button -/

/-- What can be entered in the plugin: the text fields, the folder of the
MIDI files and the name of the score. -/
structure Launch where
  instrumentName : List Char
  midiPath : List Char
  scoreName : List Char
  instrumentChannel : List Char
  scoreChannel : List Char
  maxBadness : List Char
  weightStart : List Char
  weightEndp : List Char
  weightEndn : List Char
  deriving DecidableEq, Repr

/-- `pluginsPath` of the plugin. -/
def pluginsPath : List Char := "C:/Users/Bubu/Documents/MuseScore3/Plugins".toList

namespace Launch

/-- The string passed to `proc2.start`. -/
def command (f : Launch) : List Char :=
  pluginsPath ++ "/MIT/MIT ".toList ++ f.instrumentName
    ++ " ".toList ++ f.midiPath ++ "/".toList ++ f.scoreName ++ ".mid ".toList
    ++ f.instrumentChannel ++ " ".toList ++ f.scoreChannel ++ " ".toList
    ++ f.maxBadness ++ " ".toList ++ f.weightStart ++ " ".toList
    ++ f.weightEndp ++ " ".toList ++ f.weightEndn

/-- The arguments it stands for. -/
def args (f : Launch) : Args where
  connect := f.instrumentName
  play := f.midiPath ++ "/".toList ++ f.scoreName ++ ".mid".toList
  trackInst := f.instrumentChannel
  trackPart := f.scoreChannel
  maxBadness := f.maxBadness
  weightStart := f.weightStart
  weightEndp := f.weightEndp
  weightEndn := f.weightEndn

/-- Each argument is a word without double quotes. -/
def Plain (isSpace : Char → Bool) (f : Launch) : Prop :=
  ∀ w ∈ f.args.toList, IsWord isSpace w ∧ '"' ∉ w

instance (isSpace : Char → Bool) (f : Launch) : Decidable (f.Plain isSpace) := by
  unfold Plain
  infer_instance

/-- The command is the program and the arguments, joined by spaces. -/
theorem command_eq (f : Launch) :
    f.command = [' '].intercalate ((pluginsPath ++ "/MIT/MIT".toList) :: f.args.toList) := by
  have h₁ : "/MIT/MIT ".toList = "/MIT/MIT".toList ++ [' '] := by decide
  have h₂ : ".mid ".toList = ".mid".toList ++ [' '] := by decide
  have h₃ : " ".toList = [' '] := by decide
  show pluginsPath ++ "/MIT/MIT ".toList ++ f.instrumentName
    ++ " ".toList ++ f.midiPath ++ "/".toList ++ f.scoreName ++ ".mid ".toList
    ++ f.instrumentChannel ++ " ".toList ++ f.scoreChannel ++ " ".toList
    ++ f.maxBadness ++ " ".toList ++ f.weightStart ++ " ".toList
    ++ f.weightEndp ++ " ".toList ++ f.weightEndn = _
  simp only [h₁, h₂, h₃, args, Args.toList, List.intercalate_cons_cons,
    List.intercalate_singleton, List.append_assoc]

theorem count_quotes (f : Launch) : f.command.count '"' = f.args.toList.flatten.count '"' := by
  have hprogram : (pluginsPath ++ "/MIT/MIT".toList).count '"' = 0 := by decide
  rw [command_eq, count_intercalate (by decide), List.flatten_cons, List.count_append, hprogram,
    Nat.zero_add]

end Launch

section roundTrip

variable {isSpace : Char → Bool} {split : List Char → List (List Char)}

theorem program_isWord (h : SplitsCommands isSpace split) :
    IsWord isSpace (pluginsPath ++ "/MIT/MIT".toList) := by
  have hall : (pluginsPath ++ "/MIT/MIT".toList).all
      (fun c => decide ('!' ≤ c ∧ c ≤ '~')) = true := by decide
  refine ⟨by decide, fun c hc => ?_⟩
  have hc' : '!' ≤ c ∧ c ≤ '~' := of_decide_eq_true (List.all_eq_true.mp hall c hc)
  exact h.graphic c hc'.1 hc'.2

/-- Where all arguments arrive, none of them has a double quote. -/
theorem no_quotes (h : SplitsCommands isSpace split) {f : Launch}
    (hread : readArgs (split f.command) = some f.args) : f.args.toList.flatten.count '"' = 0 := by
  obtain ⟨program, rest, hargv⟩ := readArgs_eq_some_iff.mp hread
  have hliteral := h.literal f.command
  rw [f.count_quotes, hargv, List.flatten_cons, List.flatten_append, List.count_append,
    List.count_append] at hliteral
  omega

theorem split_of_no_quotes (h : SplitsCommands isSpace split) {f : Launch}
    (hcount : f.args.toList.flatten.count '"' = 0) : split f.command = words isSpace f.command :=
  h.unquoted f.command (List.count_eq_zero.mp (f.count_quotes.trans hcount))

theorem plain_of_readArgs (h : SplitsCommands isSpace split) {f : Launch}
    (hread : readArgs (split f.command) = some f.args) : f.Plain isSpace := by
  intro w hw
  have hcount := no_quotes h hread
  refine ⟨?_, fun hquote => ?_⟩
  · obtain ⟨program, rest, hargv⟩ := readArgs_eq_some_iff.mp hread
    rw [split_of_no_quotes h hcount] at hargv
    exact isWord_of_mem (l := f.command) (by rw [hargv]; simp [hw])
  · exact List.count_eq_zero.mp hcount (List.mem_flatten.mpr ⟨w, hw, hquote⟩)

theorem readArgs_of_plain (h : SplitsCommands isSpace split) {f : Launch}
    (hplain : f.Plain isSpace) : readArgs (split f.command) = some f.args := by
  have hcount : f.args.toList.flatten.count '"' = 0 := by
    refine List.count_eq_zero.mpr fun hmem => ?_
    obtain ⟨w, hw, hquote⟩ := List.mem_flatten.mp hmem
    exact (hplain w hw).2 hquote
  rw [split_of_no_quotes h hcount, f.command_eq, words_intercalate h.space]
  · exact readArgs_eq_some_iff.mpr ⟨_, [], by rw [List.append_nil]⟩
  · intro w hw
    rcases List.mem_cons.mp hw with rfl | hw
    · exact program_isWord h
    · exact (hplain w hw).1

/-- **Launch arguments round-trip** exactly when each of them is a word without
double quotes. -/
theorem main_reads_fields_iff (h : SplitsCommands isSpace split) (f : Launch) :
    readArgs (split f.command) = some f.args ↔ f.Plain isSpace :=
  ⟨plain_of_readArgs h, readArgs_of_plain h⟩

/-- The run that a plain launch starts. -/
theorem mainRun_of_plain (h : SplitsCommands isSpace split) {f : Launch}
    (hplain : f.Plain isSpace) (calls : List ((ℤ × Event) × List (ℤ × Event))) :
    mainRun (split f.command) calls = some (mainLoop
      ⟨atoi f.maxBadness, atoi f.weightStart, atoi f.weightEndp, atoi f.weightEndn⟩
      (initial (atoi f.scoreChannel) (atoi f.instrumentChannel)) calls) := by
  rw [mainRun, readArgs_of_plain h hplain]
  rfl

end roundTrip

/-- The fields as they stand when the plugin opens, for a score named
`Scales`. -/
def defaultLaunch : Launch where
  instrumentName := "Your instrument".toList
  midiPath := "C:/Users/Bubu/Documents/MuseScore3/Partitions".toList
  scoreName := "Scales".toList
  instrumentChannel := "0".toList
  scoreChannel := "0".toList
  maxBadness := "100".toList
  weightStart := "10".toList
  weightEndp := "10".toList
  weightEndn := "5".toList

theorem whitespace_splits :
    SplitsCommands Char.isWhitespace (splitCommand Char.isWhitespace) := by
  refine splitCommand_splits (by decide) fun c hlow _ => ?_
  have hne (d : Char) (hd : ¬ '!' ≤ d) : c ≠ d := fun heq => hd (heq ▸ hlow)
  simp [Char.isWhitespace, hne ' ' (by decide), hne '\t' (by decide), hne '\r' (by decide),
    hne '\n' (by decide)]

theorem keyboard_launched :
    readArgs (splitCommand Char.isWhitespace
      { defaultLaunch with instrumentName := "Keyboard".toList }.command) =
        some { defaultLaunch with instrumentName := "Keyboard".toList }.args :=
  (main_reads_fields_iff whitespace_splits _).mpr (by decide)

/-- **The default instrument name** is split in two. -/
theorem default_not_launched :
    ¬ ∀ (isSpace : Char → Bool) (split : List Char → List (List Char)),
      SplitsCommands isSpace split → ∀ f : Launch, readArgs (split f.command) = some f.args := by
  intro h
  have hread := h Char.isWhitespace (splitCommand Char.isWhitespace) whitespace_splits defaultLaunch
  revert hread
  decide

/-- The second half of the name takes the place of the file, and `MAX_BADNESS`
that of a channel. -/
example : (readArgs (splitCommand Char.isWhitespace defaultLaunch.command)).map
    (fun a => a.config.maxBadness) = some 0 := by decide

end MidiTraining
