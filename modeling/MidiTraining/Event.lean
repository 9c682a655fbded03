/-
MidiTraining/Event.lean

`midi_event` and the loop of `main` that calls it.

One *pass* is one round of the `do … while` of `midi_event`: the clock
reading `time = tmsec()`, the event taken from the sequencer, and whether it
is the first round of its call.  The flag matters for one variable only: the
local `tick` is not initialised, so on a first round it holds nothing
(`none`), and on a later round it still holds what the rounds before left in
it.  `track_note_off` overwrites it only when it finds the note.

A call of `midi_event` is a run of passes of which the first is flagged
(`midiEvent`), and the loop of `main` is a run of calls, hence again a run
of passes (`mainLoop_eq_run`).  All results about the program are therefore
stated for arbitrary lists of passes.
-/
import MidiTraining.Track

namespace MidiTraining

open FaultMachine

/-! ### Events -/

/-- `ev->type`, as far as `midi_event` distinguishes it. -/
inductive EventType
  | noteon
  | noteoff
  | other
  deriving DecidableEq, Repr

/-- The fields of `snd_seq_event_t` that `midi_event` reads: `dest.port`,
`type`, `data.note.channel`, `data.note.note`, `data.note.velocity` and
`time.tick`.  The last one is unsigned in the source; `tick` is the `int` that
`track_note_on` is passed. -/
structure Event where
  port : ℤ
  type : EventType
  channel : ℤ
  note : ℤ
  velocity : ℤ
  tick : ℤ
  deriving DecidableEq, Repr

/-- One round of the `do … while` of `midi_event`. -/
structure Pass where
  /-- First round of its call: the local `tick` is not yet assigned. -/
  first : Bool
  /-- `time = tmsec()`. -/
  time : ℤ
  ev : Event
  deriving DecidableEq, Repr

/-- The test for a note-off: a `NOTEON` of velocity `0` counts as one. -/
def Event.isNoteOff (ev : Event) : Bool :=
  (ev.type = .noteon && ev.velocity = 0) || ev.type = .noteoff

/-- A `/color-note` message: tick, pitch and colour.  A tick of `none` is the
content of a variable that was never assigned. -/
structure Message where
  tick : Option ℤ
  note : ℤ
  color : Color
  deriving DecidableEq, Repr

/-- What one pass shows: the result of `track_note_off`, if it was called,
the value it wrote through `&tick`, if any, and the messages sent. -/
structure Output where
  badness : Option ℤ
  wrote : Option ℤ
  sent : List Message
  deriving DecidableEq, Repr

/-- A pass that calls no `track_note_off`. -/
def Output.silent : Output := ⟨none, none, []⟩

/-- The two tables and the local `tick`. -/
structure State where
  track1 : MIDItrack
  track2 : MIDItrack
  tick : Option ℤ

/-- The tables as `main` creates them: `argv[4]` is the score channel and
`argv[3]` the instrument channel. -/
def initial (scoreChannel instChannel : ℤ) : State where
  track1 := newMIDItrack scoreChannel
  track2 := newMIDItrack instChannel
  tick := none

/-! ### `midi_event` -/

/-- What port 0 sends after a note-off of the score. -/
def sendScore (cfg : Config) (badness : ℤ) (tick : Option ℤ) (note : ℤ) :
    Except Fault (List Message) := do
  -- If badness is already determined
  if badness > -2 then
    let clamped := if badness = -1 ∨ badness > cfg.maxBadness then cfg.maxBadness else badness
    return [⟨tick, note, ← getcolor cfg clamped⟩]
  else return []

/-- What port 1 sends after a note-off of the instrument. -/
def sendInst (cfg : Config) (badness : ℤ) (tick : Option ℤ) (note : ℤ) :
    Except Fault (List Message) := do
  -- If played note exists in score and badness is already determined
  if badness > -1 then
    let clamped := if badness > cfg.maxBadness then cfg.maxBadness else badness
    return [⟨tick, note, ← getcolor cfg clamped⟩]
  else return []

/-- One round of `midi_event`. -/
def midiEventPass (cfg : Config) (s : State) (p : Pass) : Except Fault (State × Output) := do
  let tick := if p.first then none else s.tick
  if p.ev.port = 0 then
    -- Event on track1 (score)
    if p.ev.channel = s.track1.channel then
      if p.ev.isNoteOff then
        let r ← trackNoteOff cfg s.track1 s.track2 p.ev.note p.time (-1)
        let tick := r.tick.or tick
        let sent ← sendScore cfg r.badness tick p.ev.note
        return (⟨r.track, r.ref, tick⟩, ⟨some r.badness, r.tick, sent⟩)
      else if p.ev.type = .noteon then
        let (track1, track2) ← trackNoteOn s.track1 s.track2 p.ev.note p.time p.ev.tick
        return (⟨track1, track2, tick⟩, .silent)
      else return ({ s with tick := tick }, .silent)
    else return ({ s with tick := tick }, .silent)
  else if p.ev.port = 1 then
    -- Event on track2 (instrument)
    if p.ev.channel = s.track2.channel then
      if p.ev.isNoteOff then
        let r ← trackNoteOff cfg s.track2 s.track1 p.ev.note p.time 1
        let tick := r.tick.or tick
        let sent ← sendInst cfg r.badness tick p.ev.note
        return (⟨r.ref, r.track, tick⟩, ⟨some r.badness, r.tick, sent⟩)
      else if p.ev.type = .noteon then
        let (track2, track1) ← trackNoteOn s.track2 s.track1 p.ev.note p.time 0
        return (⟨track1, track2, tick⟩, .silent)
      else return ({ s with tick := tick }, .silent)
    else return ({ s with tick := tick }, .silent)
  else return ({ s with tick := tick }, .silent)

/-- The passes of one call of `midi_event`, which handles an event and those
pending after it. -/
def callPasses (call : (ℤ × Event) × List (ℤ × Event)) : List Pass :=
  ⟨true, call.1.1, call.1.2⟩ :: call.2.map fun e => ⟨false, e.1, e.2⟩

/-- A call of `midi_event`. -/
def midiEvent (cfg : Config) (s : State) (call : (ℤ × Event) × List (ℤ × Event)) :
    Except Fault (State × List Output) :=
  run (midiEventPass cfg) s (callPasses call)

/-- The loop of `main`: one call of `midi_event` after the other. -/
def mainLoop (cfg : Config) (s : State) (calls : List ((ℤ × Event) × List (ℤ × Event))) :
    Except Fault (State × List (List Output)) :=
  run (midiEvent cfg) s calls

/-- **The loop of `main` is a run of passes.** -/
theorem mainLoop_eq_run (cfg : Config) (s : State)
    (calls : List ((ℤ × Event) × List (ℤ × Event))) :
    (mainLoop cfg s calls).map (fun r => (r.1, r.2.flatten)) =
      run (midiEventPass cfg) s (calls.flatMap callPasses) :=
  run_flatten callPasses s calls

end MidiTraining
