/-
MidiTraining/Codes.lean

One `int` carries a weighted sum and two codes: `track_note_off` returns `-1`
for a note without partner, `-2` for a result that comes later, and the
weighted delay otherwise.

The codes can be told from the sums exactly if no weight is negative, and a
graded pair then produces a message exactly if `MAX_BADNESS` is not zero
(`codes_unambiguous_iff`).  For a negative weight one pair suffices: the
score and the instrument strike one note, and the delay that the weight is
for is one millisecond (`run_scoreOff`, `run_instOff`).
-/
import MidiTraining.Links
import MidiTraining.Scale

namespace MidiTraining

open SwapRemove FaultMachine

/-- The table of a side, as arrays. -/
def State.track (s : State) : Side → MIDItrack
  | .score => s.track1
  | .inst => s.track2

/-! ### Runs of one pair -/

/-- One note of the score and one of the instrument, of the same pitch. -/
def pairOn (sS sI : ℤ) : List Pass :=
  [⟨true, sS, ⟨0, .noteon, 0, 60, 64, 0⟩⟩, ⟨true, sI, ⟨1, .noteon, 0, 60, 64, 0⟩⟩]

/-- The score ends its note. -/
def scoreOff (t : ℤ) : Pass := ⟨true, t, ⟨0, .noteoff, 0, 60, 0, 0⟩⟩

/-- The instrument ends its note. -/
def instOff (t : ℤ) : Pass := ⟨true, t, ⟨1, .noteoff, 0, 60, 0, 0⟩⟩

section pair

variable (cfg : Config) (sS sI eS eI : ℤ)

/-- The score ends first: the instrument knows when. -/
theorem run_scoreOff : run (tablesPass cfg 0 0) noTables (pairOn sS sI ++ [scoreOff eS]) =
    .ok (⟨[], [⟨60, sI, 0, 0, sS, eS, 0⟩], some 0⟩,
      [.silent, .silent, ⟨some (-2), some 0, []⟩]) := rfl

/-- The instrument ends first: the score knows when. -/
theorem run_instOff : run (tablesPass cfg 0 0) noTables (pairOn sS sI ++ [instOff eI]) =
    .ok (⟨[⟨60, sS, 0, 0, sI, eI, 0⟩], [], some (-1)⟩,
      [.silent, .silent, ⟨some (-2), some (-1), []⟩]) := rfl

end pair

/-! ### The codes -/

/-- The result of a note-off tells the three cases apart. -/
structure ClearCode (T : Table) (note badness : ℤ) : Prop where
  /-- The note was not found, or has no link. -/
  unmatched : badness = -1 ↔ ∀ n e, firstAt (Entry.hasNote note) T = some (n, e) → e.link = -1
  /-- The note is linked, and its partner's end is not recorded. -/
  deferred : badness = -2 ↔
    ∃ n e, firstAt (Entry.hasNote note) T = some (n, e) ∧ e.link ≠ -1 ∧ e.lend = -1
  graded : badness ≠ -1 → badness ≠ -2 → 0 ≤ badness

/-- In every state the program reaches, every note-off returns a clear code,
and one that grades a pair sends a message with the colour of its result. -/
def UnambiguousCodes (cfg : Config) : Prop :=
  ∀ c₁ c₂ ps s outs, (∀ p ∈ ps, 0 ≤ p.time) →
    run (midiEventPass cfg) (initial c₁ c₂) ps = .ok (s, outs) →
    (∀ side note t, ∃ r,
      trackNoteOff cfg (s.track side) (s.track side.other) note t side.isInst = .ok r ∧
        ClearCode (s.tables.get side) note r.badness) ∧
    ∀ p side note n e, p.action c₁ c₂ = .noteOff side note p.time →
      firstAt (Entry.hasNote note) (s.tables.get side) = some (n, e) → e.link ≠ -1 → e.lend ≠ -1 →
      ∃ s' o badness m, midiEventPass cfg s p = .ok (s', o) ∧ o.badness = some badness ∧
        o.sent = [m] ∧ getcolor cfg (min cfg.maxBadness badness) = .ok m.color

/-- The call on arrays returns what the call on tables returns. -/
theorem trackNoteOff_badness (cfg : Config) {s : State} (hwf : s.WellFormed) (side : Side)
    (note t : ℤ) :
    ∃ r, trackNoteOff cfg (s.track side) (s.track side.other) note t side.isInst = .ok r ∧
      r.badness =
        (noteOff cfg (s.tables.get side) (s.tables.get side.other) note t side.isInst).badness := by
  cases side with
  | score =>
    obtain ⟨track, ref, hcall, -⟩ :=
      noteOff_agree cfg hwf.range1 hwf.range2 hwf.links1 hwf.links2 note t (-1)
    exact ⟨_, hcall, rfl⟩
  | inst =>
    obtain ⟨track, ref, hcall, -⟩ :=
      noteOff_agree cfg hwf.range2 hwf.range1 hwf.links2 hwf.links1 note t 1
    exact ⟨_, hcall, rfl⟩

section clear

variable {cfg : Config} {T R : Table} {note t : ℤ} {side : Side}

theorem clearCode_of_first {n : ℕ} {e : Entry}
    (hfind : firstAt (Entry.hasNote note) T = some (n, e)) {b : ℤ} (h₁ : b = -1 ↔ e.link = -1)
    (h₂ : b = -2 ↔ e.link ≠ -1 ∧ e.lend = -1) (h₃ : b ≠ -1 → b ≠ -2 → 0 ≤ b) :
    ClearCode T note b where
  unmatched := by
    rw [h₁, hfind]
    constructor
    · intro hlink n' e' heq
      cases heq
      exact hlink
    · exact fun h => h n e rfl
  deferred := by
    rw [h₂, hfind]
    constructor
    · exact fun h => ⟨n, e, rfl, h⟩
    · rintro ⟨n', e', heq, h⟩
      cases heq
      exact h
  graded := h₃

/-- **One note-off** returns a clear code if the weights are not negative. -/
theorem clearCode_noteOff (hw : cfg.NonnegWeights) (hlink : ∀ e ∈ T, -1 ≤ e.link)
    (hlend : ∀ e ∈ T, -1 ≤ e.lend) :
    ClearCode T note (noteOff cfg T R note t side.isInst).badness := by
  rcases noteOff_cases cfg T R note t side.isInst with ⟨hnone, hoff⟩ | ⟨n, e, hfind, hoff⟩
  · rw [hoff]
    refine ⟨?_, ?_, ?_⟩
    · simp [hnone]
    · simp [hnone]
    · exact fun h => absurd rfl h
  · have hl := hlink e (firstAt_mem hfind)
    have he := hlend e (firstAt_mem hfind)
    rcases hoff with ⟨hun, hoff⟩ | ⟨hans, hoff⟩ | ⟨hwait, hoff⟩
    · rw [hoff]
      show ClearCode T note (-1)
      exact clearCode_of_first hfind (by omega) (by omega) (by omega)
    · -- a weighted sum, not negative, is neither code
      have hnonneg : 0 ≤ weightedDelay cfg side.isInst t e.start e.lstart e.lend := by
        rw [weightedDelay_eq_delayCost]
        exact delayCost_nonneg hw _ _
      have := hans.1
      have := hans.2
      rw [hoff]
      show ClearCode T note (weightedDelay cfg side.isInst t e.start e.lstart e.lend)
      exact clearCode_of_first hfind (by omega) (by omega) (by omega)
    · have := hwait.1
      have := hwait.2
      rw [hoff]
      show ClearCode T note (-2)
      exact clearCode_of_first hfind (by omega) (by omega) (by omega)

end clear

/-! ### The condition -/

/-- Clear codes make every sum that is graded non-negative. -/
theorem UnambiguousCodes.weightedDelay_nonneg {cfg : Config} (h : UnambiguousCodes cfg)
    {ps : List Pass} (htime : ∀ p ∈ ps, 0 ≤ p.time) {s : Tables} {outs : List Output}
    (hrun : run (tablesPass cfg 0 0) noTables ps = .ok (s, outs)) (side : Side) {n : ℕ} {e : Entry}
    (hfind : firstAt (Entry.hasNote e.note) (s.get side) = some (n, e)) (he : e.Answered) (t : ℤ) :
    0 ≤ weightedDelay cfg side.isInst t e.start e.lstart e.lend := by
  obtain ⟨s', hs', rfl⟩ := run_of_tables hrun
  obtain ⟨r, hcall, hclear⟩ := (h 0 0 ps s' outs htime hs').1 side e.note t
  obtain ⟨r', hcall', hbadness⟩ := trackNoteOff_badness cfg (run_tables hs').2 side e.note t
  obtain rfl := Except.ok.inj (hcall.symm.trans hcall')
  have hlink := he.1
  have hlend := he.2
  have hb : r.badness = weightedDelay cfg side.isInst t e.start e.lstart e.lend := by
    rw [hbadness, noteOff_badness cfg _ t _ hfind, gradeEntry_of_answered _ _ _ _ he]
  rw [← hb]
  refine hclear.graded (fun h1 => ?_) (fun h2 => ?_)
  · have := hclear.unmatched.mp h1 n e hfind
    omega
  · obtain ⟨n', e', hfind', -, hend⟩ := hclear.deferred.mp h2
    rw [hfind] at hfind'
    cases hfind'
    omega

/-- **The codes are unambiguous exactly if** no weight is negative and
`MAX_BADNESS` is not zero. -/
theorem codes_unambiguous_iff (cfg : Config) :
    UnambiguousCodes cfg ↔ cfg.NonnegWeights ∧ cfg.maxBadness ≠ 0 := by
  constructor
  · intro h
    refine ⟨⟨?_, ?_, ?_⟩, ?_⟩
    · -- the instrument starts late and ends in time
      have hdelay := h.weightedDelay_nonneg (by decide) (run_scoreOff cfg 0 1 1) .inst
        (e := ⟨60, 1, 0, 0, 0, 1, 0⟩) rfl (by decide) 1
      simpa [weightedDelay] using hdelay
    · -- it ends late
      have hdelay := h.weightedDelay_nonneg (by decide) (run_scoreOff cfg 0 0 0) .inst
        (e := ⟨60, 0, 0, 0, 0, 0, 0⟩) rfl (by decide) 1
      simpa [weightedDelay, Side.isInst] using hdelay
    · -- it ends early
      have hdelay := h.weightedDelay_nonneg (by decide) (run_instOff cfg 0 0 0) .score
        (e := ⟨60, 0, 0, 0, 0, 0, 0⟩) rfl (by decide) 1
      simpa [weightedDelay, Side.isInst] using hdelay
    · intro hzero
      obtain ⟨s, hs, ht⟩ := run_of_tables (run_scoreOff cfg 0 0 0)
      obtain ⟨s', o, b, m, -, -, -, hcolor⟩ := (h 0 0 _ s _ (by decide) hs).2 (instOff 0) .inst 60 0
        ⟨60, 0, 0, 0, 0, 0, 0⟩ rfl (by rw [ht]; rfl) (by decide) (by decide)
      rw [getcolor, if_pos hzero] at hcolor
      cases hcolor
  · rintro ⟨hw, hbad⟩ c₁ c₂ ps s outs htime hrun
    obtain ⟨htables, hwf⟩ := run_tables hrun
    have hlend := run_lend_range htime htables
    have hlink : ∀ σ, ∀ e ∈ s.tables.get σ, -1 ≤ e.link := by
      intro σ e he
      cases σ with
      | score => exact (hwf.links1 e he).1
      | inst => exact (hwf.links2 e he).1
    constructor
    · intro side note t
      obtain ⟨r, hcall, hb⟩ := trackNoteOff_badness cfg hwf side note t
      refine ⟨r, hcall, ?_⟩
      rw [hb]
      exact clearCode_noteOff hw (hlink side) (hlend side)
    · intro p side note n e ha hfind hl he
      have hans : e.Answered := by
        have := hlink side e (firstAt_mem hfind)
        have := hlend side e (firstAt_mem hfind)
        exact ⟨by omega, by omega⟩
      obtain ⟨t', o, hstep⟩ := tablesPass_total hbad c₁ c₂ s.tables p
      obtain ⟨s', hs', -⟩ := pass_of_tables hrun hstep
      obtain ⟨tick, sent, -, hsend, rfl⟩ := tablesPass_of_noteOff hstep ha
      have hb := noteOff_badness cfg (s.tables.get side.other) p.time side.isInst hfind
      rw [gradeEntry_of_answered _ _ _ _ hans, weightedDelay_eq_delayCost] at hb
      have hnonneg := delayCost_nonneg hw (side.startDelay e) (side.endDelay e p.time)
      obtain ⟨color, hcolor, rfl⟩ := sent_of_graded hsend (hb ▸ hnonneg)
      exact ⟨s', _, _, _, hs', rfl, rfl, hcolor⟩

/-- A weight of `-1` for the start: an instrument that starts one millisecond
late and ends in time is taken for a note without partner. -/
theorem negative_weight_ambiguous : ¬ ∀ cfg, UnambiguousCodes cfg := by
  intro h
  have hdelay := (h ⟨100, -1, 10, 5⟩).weightedDelay_nonneg (by decide)
    (run_scoreOff ⟨100, -1, 10, 5⟩ 0 1 1) .inst (e := ⟨60, 1, 0, 0, 0, 1, 0⟩) rfl
    (by decide) 1
  exact absurd hdelay (by decide)

end MidiTraining
