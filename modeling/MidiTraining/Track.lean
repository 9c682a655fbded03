/-
MidiTraining/Track.lean

The tables of sounding notes of `MIT.c`, as the code keeps them: a length
and seven parallel arrays of `MAX_LENGTH` slots, with the two operations
`track_note_on` and `track_note_off` and the colour scale `getcolor`.

Every array access of the source is a checked access here: reading or
writing a slot outside the array is the fault `outOfBounds`, so that index
safety is a theorem about the code and not built into the model.  Likewise
the division of `getcolor` faults when `MAX_BADNESS` is zero.  Integers are
exact.

`*tick`, the out-parameter of `track_note_off`, is the field `tick` of its
result: `none` where the call writes nothing through the pointer.
-/
import Mathlib.Data.Int.Init
import Mathlib.Data.List.Range
import Mathlib.Algebra.Order.Group.Unbundled.Int
import Mathlib.Algebra.Order.Ring.Int
import Mathlib.Logic.Function.Basic
import MidiTraining.Lib.FaultMachine

namespace MidiTraining

/-- `MAX_LENGTH`: max number of notes played simultaneously. -/
def maxLength : ℕ := 50

/-- What stops the program: an array access outside the array, or a division
by zero. -/
inductive Fault
  | outOfBounds
  | divByZero
  deriving DecidableEq, Repr

/-- The parameters `main` reads from `argv[5]` … `argv[8]`. -/
structure Config where
  maxBadness : ℤ
  weightStart : ℤ
  weightEndp : ℤ
  weightEndn : ℤ
  deriving DecidableEq, Repr

/-! ### Arrays -/

/-- An `int` array of `MAX_LENGTH` slots. -/
abbrev Slots := Fin maxLength → ℤ

/-- `a[i]` as a value. -/
def Slots.read (a : Slots) (i : ℤ) : Except Fault ℤ :=
  if h : 0 ≤ i ∧ i < maxLength then .ok (a ⟨i.toNat, by omega⟩) else .error .outOfBounds

/-- `a[i] = v`. -/
def Slots.write (a : Slots) (i v : ℤ) : Except Fault Slots :=
  if h : 0 ≤ i ∧ i < maxLength then .ok (Function.update a ⟨i.toNat, by omega⟩ v)
  else .error .outOfBounds

theorem Slots.read_of_lt (a : Slots) {i : ℕ} (h : i < maxLength) :
    a.read i = .ok (a ⟨i, h⟩) := by
  simp [Slots.read, h]

theorem Slots.write_of_lt (a : Slots) {i : ℕ} (h : i < maxLength) (v : ℤ) :
    a.write i v = .ok (Function.update a ⟨i, h⟩ v) := by
  simp [Slots.write, h]

/-! ### Tables -/

/-- `MIDItrack`. -/
structure MIDItrack where
  length : ℤ
  channel : ℤ
  note : Slots
  start : Slots
  tick : Slots
  link : Slots
  lstart : Slots
  lend : Slots
  ltick : Slots

/-- `newMIDItrack`: the designated initialiser zeroes every other field. -/
def newMIDItrack (channel : ℤ) : MIDItrack where
  length := 0
  channel := channel
  note := fun _ => 0
  start := fun _ => 0
  tick := fun _ => 0
  link := fun _ => 0
  lstart := fun _ => 0
  lend := fun _ => 0
  ltick := fun _ => 0

/-! ### `track_note_on` -/

/-- The body of the linking loop of `track_note_on`.  The slot
`track->length` is the new note's: the length grows after the loop. -/
def linkStep (st : MIDItrack × MIDItrack) (n : ℕ) : Except Fault (MIDItrack × MIDItrack) := do
  let (track, ref) := st
  if (← ref.link.read n) = -1 then
    if (← ref.note.read n) = (← track.note.read track.length) then
      let refLink ← ref.link.write n track.length
      let trackLink ← track.link.write track.length n
      return ({ track with link := trackLink }, { ref with link := refLink })
    else return (track, ref)
  else return (track, ref)

/-- `track_note_on`: the two tables after the call. -/
def trackNoteOn (track ref : MIDItrack) (note t tick : ℤ) :
    Except Fault (MIDItrack × MIDItrack) := do
  if track.length < maxLength then
    -- Save note in tables
    let noteArr ← track.note.write track.length note
    let startArr ← track.start.write track.length t
    let tickArr ← track.tick.write track.length tick
    let linkArr ← track.link.write track.length (-1)
    let lstartArr ← track.lstart.write track.length (-1)
    let lendArr ← track.lend.write track.length (-1)
    let ltickArr ← track.ltick.write track.length (-1)
    let saved : MIDItrack :=
      { track with
        note := noteArr, start := startArr, tick := tickArr, link := linkArr
        lstart := lstartArr, lend := lendArr, ltick := ltickArr }
    -- Try to link note with ref notes
    let (track, ref) ← (List.range ref.length.toNat).foldlM linkStep (saved, ref)
    return ({ track with length := track.length + 1 }, ref)
  else return (track, ref)

/-! ### `track_note_off` -/

/-- The result of `track_note_off`: the returned badness, the value written
to `*tick` if any, and the two tables after the call. -/
structure NoteOff (τ : Type*) where
  badness : ℤ
  tick : Option ℤ
  track : τ
  ref : τ
  deriving DecidableEq, Repr

/-- The weighted delay of a note whose partner has ended.  `isInst` is `1`
for the instrument and `-1` for the score. -/
def weightedDelay (cfg : Config) (isInst t start lstart lend : ℤ) : ℤ :=
  cfg.weightStart * |start - lstart| +
    if isInst * (t - lend) > 0 then cfg.weightEndp * |t - lend| else cfg.weightEndn * |t - lend|

/-- The branch of `track_note_off` on the link and the recorded end of slot
`n`: the badness and the other table. -/
def gradeSlot (cfg : Config) (track ref : MIDItrack) (t isInst : ℤ) (n : ℕ) :
    Except Fault (ℤ × MIDItrack) := do
  if (← track.link.read n) > -1 then
    if (← track.lend.read n) > -1 then
      return (weightedDelay cfg isInst t (← track.start.read n) (← track.lstart.read n)
        (← track.lend.read n), ref)
    else
      -- Send infos to linked ref note
      let lstartArr ← ref.lstart.write (← track.link.read n) (← track.start.read n)
      let lendArr ← ref.lend.write (← track.link.read n) t
      let ltickArr ← ref.ltick.write (← track.link.read n) (← track.tick.read n)
      return (-2, { ref with lstart := lstartArr, lend := lendArr, ltick := ltickArr })
  else return (-1, ref)

/-- Remove slot `n`: the length shrinks, then the seven fields of the last
slot are copied into slot `n`. -/
def removeSlot (track : MIDItrack) (n : ℕ) : Except Fault MIDItrack := do
  let last := track.length - 1
  let noteArr ← track.note.write n (← track.note.read last)
  let startArr ← track.start.write n (← track.start.read last)
  let tickArr ← track.tick.write n (← track.tick.read last)
  let linkArr ← track.link.write n (← track.link.read last)
  let lstartArr ← track.lstart.write n (← track.lstart.read last)
  let lendArr ← track.lend.write n (← track.lend.read last)
  let ltickArr ← track.ltick.write n (← track.ltick.read last)
  return { track with
    length := last, note := noteArr, start := startArr, tick := tickArr, link := linkArr
    lstart := lstartArr, lend := lendArr, ltick := ltickArr }

/-- The body of the found branch of `track_note_off`, for slot `n`. -/
def endSlot (cfg : Config) (track ref : MIDItrack) (t isInst : ℤ) (n : ℕ) :
    Except Fault (NoteOff MIDItrack) := do
  let (badness, ref) ← gradeSlot cfg track ref t isInst n
  -- Return score tick
  let tick ← if isInst = 1 then track.ltick.read n else track.tick.read n
  let track ← removeSlot track n
  return ⟨badness, some tick, track, ref⟩

/-- The scan of `track_note_off` over the given slots: it stops at the first
one that holds the pitch. -/
def scanOff (cfg : Config) (track ref : MIDItrack) (note t isInst : ℤ) :
    List ℕ → Except Fault (NoteOff MIDItrack)
  | [] => .ok ⟨-1, none, track, ref⟩
  | n :: ns => do
      if note = (← track.note.read n) then endSlot cfg track ref t isInst n
      else scanOff cfg track ref note t isInst ns

/-- `track_note_off`. -/
def trackNoteOff (cfg : Config) (track ref : MIDItrack) (note t isInst : ℤ) :
    Except Fault (NoteOff MIDItrack) :=
  scanOff cfg track ref note t isInst (List.range track.length.toNat)

/-! ### `getcolor` -/

/-- The colours that `getcolor` returns. -/
inductive Color
  | blue
  | green
  | yellow
  | orange
  | red
  deriving DecidableEq, Repr

/-- The `switch` of `getcolor`. -/
def colorOf : ℤ → Color
  | 0 => .blue
  | 1 | 2 | 3 => .green
  | 4 | 5 | 6 => .yellow
  | 7 | 8 | 9 => .orange
  | _ => .red

/-- `getcolor`: C's division truncates towards zero. -/
def getcolor (cfg : Config) (badness : ℤ) : Except Fault Color :=
  if cfg.maxBadness = 0 then .error .divByZero
  else .ok (colorOf ((10 * badness).tdiv cfg.maxBadness))

theorem getcolor_of_ne_zero {cfg : Config} (h : cfg.maxBadness ≠ 0) (badness : ℤ) :
    getcolor cfg badness = .ok (colorOf ((10 * badness).tdiv cfg.maxBadness)) := by
  simp [getcolor, h]

end MidiTraining
