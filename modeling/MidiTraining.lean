import MidiTraining.Lib.FaultMachine
import MidiTraining.Lib.Loop
import MidiTraining.Lib.Processes
import MidiTraining.Lib.Shell
import MidiTraining.Lib.SwapRemove
import MidiTraining.Track
import MidiTraining.Event
import MidiTraining.Table
import MidiTraining.Refine
import MidiTraining.Safety
import MidiTraining.Contents
import MidiTraining.Sounding
import MidiTraining.Links
import MidiTraining.Ledger
import MidiTraining.Book
import MidiTraining.Grading
import MidiTraining.Origins
import MidiTraining.Heard
import MidiTraining.Mirror
import MidiTraining.Nested
import MidiTraining.Session
import MidiTraining.Sequencer
import MidiTraining.Plugin
import MidiTraining.Conversation
import MidiTraining.Fields
import MidiTraining.Voices
import MidiTraining.Launch
import MidiTraining.Shift
import MidiTraining.Roster
import MidiTraining.Scale
import MidiTraining.Tuning
import MidiTraining.Codes
import MidiTraining.Order
import MidiTraining.Capacity
import MidiTraining.Arithmetic
import MidiTraining.Clock
import MidiTraining.Score
import MidiTraining.Selection
import MidiTraining.Clearing
import MidiTraining.Strikes
import MidiTraining.Phrases
