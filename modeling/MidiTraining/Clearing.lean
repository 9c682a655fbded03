/-
MidiTraining/Clearing.lean

What the start button clears.

`MidiTraining.Selection` tells when `applyToNotesInSelection` calls `func` on
exactly the selected notes.  Here is what remains true of the start button,
which calls it with `uncolorNote`, when it does not.  A selection that reaches
the end of the score clears too much: every note.  Any other selection clears
too little, the selected notes from its anchor on (`Score.Clears`).  So no
selected note is missed in the first case, and no note outside the selection
is touched in the second; and to press the button again changes nothing
(`start_clears`).
-/
import MidiTraining.Selection

namespace MidiTraining

universe u

variable {ν : Type u} {κ : Type*}

/-- The notes that the start button clears. -/
def Score.Clears (score : Score ν) : Option (Range score) → ν → Prop
  | none, note => score.Selected none note
  | some r, note =>
    if r.stop = score.segments.length then score.Selected none note
    else ∃ segment ∈ r.anchored, ∃ track, r.Covers segment track ∧ note ∈ segment.notes track

section clears

variable {score : Score ν} {r : Range score} {note : ν}

theorem Range.stop_eq_of_drop (h : score.segments.drop r.stop = []) :
    r.stop = score.segments.length :=
  Nat.le_antisymm r.stop_le (List.drop_eq_nil_iff.mp h)

theorem Range.stop_ne_of_drop {stop : Segment ν} {rest : List (Segment ν)}
    (h : score.segments.drop r.stop = stop :: rest) : r.stop ≠ score.segments.length := by
  intro heq
  rw [heq, List.drop_length] at h
  cases h

/-- The segments from the anchor on come after the start of the selection. -/
theorem Range.skipped_append_anchored (r : Range score) :
    r.skipped ++ r.anchored = score.segments.drop r.start :=
  List.takeWhile_append_dropWhile

/-- Up to the end of the score, nothing selected is missed. -/
theorem clears_of_end (h : r.stop = score.segments.length) (note : ν) :
    score.Clears (some r) note ↔ score.Selected none note := by
  show (if _ then _ else _) ↔ _
  rw [if_pos h]

theorem clears_iff_of_not_end (h : r.stop ≠ score.segments.length) (note : ν) :
    score.Clears (some r) note ↔
      ∃ segment ∈ r.anchored, ∃ track, r.Covers segment track ∧ note ∈ segment.notes track := by
  show (if _ then _ else _) ↔ _
  rw [if_neg h]

/-- Before the end of the score, only selected notes are cleared, and only
those before the anchor are missed. -/
theorem clears_of_not_end (h : r.stop ≠ score.segments.length) (note : ν) :
    (score.Clears (some r) note → score.Selected (some r) note) ∧
      (score.Selected (some r) note → score.Clears (some r) note ∨
        ∃ segment ∈ r.skipped, ∃ track, r.Covers segment track ∧ note ∈ segment.notes track) := by
  rw [clears_iff_of_not_end h]
  constructor
  · rintro ⟨segment, hs, track, hcovers, hnote⟩
    exact ⟨segment, r.anchored_sublist.subset hs, track, hcovers, hnote⟩
  · rintro ⟨segment, hs, track, hcovers, hnote⟩
    have hcovers : r.Covers segment track := hcovers
    have hdrop := (Range.mem_drop_start_iff hs).mpr hcovers.startTick_le
    rw [← r.skipped_append_anchored] at hdrop
    rcases List.mem_append.mp hdrop with hskipped | hanchored
    · exact Or.inr ⟨segment, hskipped, track, hcovers, hnote⟩
    · exact Or.inl ⟨segment, hanchored, track, hcovers, hnote⟩

/-- **The calls are the notes to clear.** -/
theorem mem_calls_iff (selection : Option (Range score)) (note : ν) :
    note ∈ score.calls selection ↔ score.Clears selection note := by
  rcases selection with - | r
  · exact Score.mem_notes_iff
  · unfold Score.calls
    rcases h : score.segments.drop r.stop with - | ⟨stop, rest⟩
    · simp only [h]
      rw [clears_of_end (Range.stop_eq_of_drop h)]
      exact Score.mem_notes_iff
    · simp only [h]
      rw [clears_iff_of_not_end (Range.stop_ne_of_drop h)]
      simp only [mem_notesOn_iff, List.mem_filter]
      have hin {segment : Segment ν} (hs : segment ∈ r.anchored) :
          segment ∈ score.segments.drop r.start := by
        rw [← r.skipped_append_anchored]
        exact List.mem_append_right _ hs
      constructor
      · rintro ⟨segment, ⟨hs, hwithin⟩, track, htrack, hnote⟩
        have hcovers := (Range.covers_iff h (List.mem_of_mem_drop (hin hs))).mpr
          ⟨hin hs, hwithin, htrack⟩
        exact ⟨segment, hs, track, hcovers, hnote⟩
      · rintro ⟨segment, hs, track, hcovers, hnote⟩
        obtain ⟨-, hwithin, htrack⟩ :=
          (Range.covers_iff h (List.mem_of_mem_drop (hin hs))).mp hcovers
        exact ⟨segment, ⟨hs, hwithin⟩, track, htrack, hnote⟩

/-- A selected note is a note of the score. -/
theorem Score.Selected.of_range (h : score.Selected (some r) note) : score.Selected none note := by
  obtain ⟨segment, hsegment, track, hcovers, hnote⟩ := h
  exact ⟨segment, hsegment, track, Range.Covers.lt_nstaves hcovers, hnote⟩

end clears

/-! ### The start button -/

section start

variable [DecidableEq ν] {api : CursorApi ν κ} {score : Score ν} {selection : Option (Range score)}
variable {place : κ → Place ν} {fuel : ℕ}

/-- **What the start button does** to the colours, for any selection: the
notes to clear become black, all others keep their colours, and a second
press changes nothing.  A selection that reaches the end of the score clears
every note; another one clears selected notes only, and misses at most those
before its anchor. -/
theorem start_clears (hapi : Documented api score selection place)
    (hfuel : score.segments.length < fuel) (color : ν → String) :
    ∃ color', applyToNotesInSelection api uncolorNote fuel color = some color' ∧
      applyToNotesInSelection api uncolorNote fuel color' = some color' ∧
      (∀ note, score.Clears selection note → color' note = "#000000") ∧
      (∀ note, ¬ score.Clears selection note → color' note = color note) ∧
      ∀ r, selection = some r →
        (r.stop = score.segments.length →
          (∀ note, score.Clears selection note ↔ score.Selected none note) ∧
            ∀ note, score.Selected selection note → score.Clears selection note) ∧
        (r.stop ≠ score.segments.length → ∀ note,
          (score.Clears selection note → score.Selected selection note) ∧
            (score.Selected selection note → score.Clears selection note ∨
              ∃ segment ∈ r.skipped, ∃ track,
                r.Covers segment track ∧ note ∈ segment.notes track)) := by
  refine ⟨_, apply_calls hapi hfuel color, ?_, ?_, ?_, ?_⟩
  · rw [apply_calls hapi hfuel]
    refine congrArg some (funext fun note => ?_)
    rw [foldl_uncolorNote, foldl_uncolorNote]
    split <;> rfl
  · intro note hnote
    rw [foldl_uncolorNote, if_pos ((mem_calls_iff selection note).mpr hnote)]
  · intro note hnote
    rw [foldl_uncolorNote, if_neg (mt (mem_calls_iff selection note).mp hnote)]
  · rintro r rfl
    refine ⟨fun h => ⟨clears_of_end h, fun note hnote => ?_⟩, clears_of_not_end⟩
    exact (clears_of_end h note).mpr hnote.of_range

end start

/-- The button on the two staves: a note behind the selection keeps its
colour. -/
theorem middle_cleared : ∃ color',
    applyToNotesInSelection (cursorApi halvesOverQuarters (some middle)) uncolorNote 5
      (fun _ => "#ff0000") = some color' ∧ color' 4 = "#000000" ∧ color' 6 = "#ff0000" := by
  obtain ⟨color', h, -, hcleared, hkept, -⟩ :=
    start_clears (cursorApi_documented halvesOverQuarters (some middle))
      (by decide : halvesOverQuarters.segments.length < 5) fun _ => "#ff0000"
  refine ⟨color', h, hcleared 4 ?_, hkept 6 ?_⟩
  · exact (mem_calls_iff _ _).mp (by decide)
  · exact mt (mem_calls_iff _ _).mpr (by decide)

end MidiTraining
