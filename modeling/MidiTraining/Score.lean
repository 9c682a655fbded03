/-
MidiTraining/Score.lean

Scores and their selections, as the plugin sees them.

A score is a list of segments with increasing ticks; a segment has an element
on some of its tracks, four for each staff.  Every note is in one place
(`Score.notes_unique`): a segment and a track.  A range selection covers the
segments from its start on up to its stop, on some staves; in the list of
segments it starts where their ticks reach its own (`Range.mem_drop_start_iff`).
-/
import Mathlib.Data.List.Flatten
import Mathlib.Data.List.Lattice
import Mathlib.Data.List.Nodup
import Mathlib.Data.List.Pairwise

namespace MidiTraining

universe u

variable {ν : Type u}

/-! ### Scores and selections -/

/-- An element of a segment on one track.  The notes of a chord are those of
the property `notes`, without its grace notes. -/
inductive Element (ν : Type u)
  | chord (notes : List ν)
  | other

/-- A segment of chords and rests. -/
structure Segment (ν : Type u) where
  tick : ℕ
  /-- The element on track `4 * staff + voice`. -/
  element : ℕ → Option (Element ν)

/-- The notes of the chord on a track; a rest, or nothing, has none. -/
def Segment.notes (segment : Segment ν) (track : ℕ) : List ν :=
  match segment.element track with
  | some (.chord notes) => notes
  | _ => []

/-- The notes of these segments on a track. -/
def notesOnTrack (segments : List (Segment ν)) (track : ℕ) : List ν :=
  segments.flatMap fun segment => segment.notes track

/-- The notes of these segments in all voices of these staves. -/
def notesOn (segments : List (Segment ν)) (staves : List ℕ) : List ν :=
  staves.flatMap fun staff => (List.range 4).flatMap fun voice =>
    notesOnTrack segments (4 * staff + voice)

/-- A score, as the cursor walks over it: its segments by tick. -/
structure Score (ν : Type u) where
  nstaves : ℕ
  segments : List (Segment ν)
  ordered : segments.Pairwise fun s s' => s.tick < s'.tick
  /-- A note is in one chord, once. -/
  nodup : (notesOn segments (List.range nstaves)).Nodup

/-- All notes of the score. -/
def Score.notes (score : Score ν) : List ν := notesOn score.segments (List.range score.nstaves)

/-- A range selection. -/
structure Range (score : Score ν) where
  /-- The index of the first segment. -/
  start : ℕ
  /-- The index of the first segment after it: the number of segments if it
  reaches the end of the score. -/
  stop : ℕ
  start_lt_stop : start < stop
  stop_le : stop ≤ score.segments.length
  firstStaff : ℕ
  lastStaff : ℕ
  firstStaff_le : firstStaff ≤ lastStaff
  lastStaff_lt : lastStaff < score.nstaves

/-- The tick at which a range starts. -/
def Range.startTick {score : Score ν} (r : Range score) : ℕ :=
  (score.segments.get ⟨r.start, Nat.lt_of_lt_of_le r.start_lt_stop r.stop_le⟩).tick

/-- The staves of a range. -/
def Range.staves {score : Score ν} (r : Range score) : List ℕ :=
  List.range' r.firstStaff (r.lastStaff + 1 - r.firstStaff)

/-- The range covers a track of a segment. -/
structure Range.Covers {score : Score ν} (r : Range score) (segment : Segment ν) (track : ℕ) :
    Prop where
  startTick_le : r.startTick ≤ segment.tick
  tick_lt : ∀ s, score.segments[r.stop]? = some s → segment.tick < s.tick
  firstStaff_le : r.firstStaff ≤ track / 4
  le_lastStaff : track / 4 ≤ r.lastStaff

/-- What is selected: without a range, all staves. -/
def Score.Covers (score : Score ν) : Option (Range score) → Segment ν → ℕ → Prop
  | none, _, track => track / 4 < score.nstaves
  | some r, segment, track => r.Covers segment track

/-- `note` is a selected note. -/
def Score.Selected (score : Score ν) (selection : Option (Range score)) (note : ν) : Prop :=
  ∃ segment ∈ score.segments, ∃ track,
    score.Covers selection segment track ∧ note ∈ segment.notes track

/-! ### The notes of a list of segments -/

section notes

variable {segments : List (Segment ν)} {staves : List ℕ} {track : ℕ} {note : ν}

theorem Segment.notes_of_isNone {segment : Segment ν} (h : (segment.element track).isNone) :
    segment.notes track = [] := by
  unfold Segment.notes
  rw [Option.isNone_iff_eq_none.mp h]

/-- A note of the staves is one of a segment, on a track of these staves. -/
theorem mem_notesOn_iff : note ∈ notesOn segments staves ↔
    ∃ segment ∈ segments, ∃ track, track / 4 ∈ staves ∧ note ∈ segment.notes track := by
  simp only [notesOn, notesOnTrack, List.mem_flatMap, List.mem_range]
  constructor
  · rintro ⟨staff, hstaff, voice, hvoice, segment, hsegment, hnote⟩
    refine ⟨segment, hsegment, 4 * staff + voice, ?_, hnote⟩
    rw [show (4 * staff + voice) / 4 = staff by omega]
    exact hstaff
  · rintro ⟨segment, hsegment, track, htrack, hnote⟩
    refine ⟨track / 4, htrack, track % 4, by omega, segment, hsegment, ?_⟩
    rw [Nat.div_add_mod]
    exact hnote

/-- Fewer segments and staves have fewer notes, in the same order. -/
theorem notesOn_sublist {segments' : List (Segment ν)} {staves' : List ℕ}
    (h : segments.Sublist segments') (h' : staves.Sublist staves') :
    (notesOn segments staves).Sublist (notesOn segments' staves') := by
  refine (h'.flatMap _).trans ?_
  apply List.Sublist.flatMap_right
  intro staff _
  apply List.Sublist.flatMap_right
  intro voice _
  exact h.flatMap _

theorem eq_of_nodup_flatMap {α β : Type*} {l : List α} {f : α → List β} (h : (l.flatMap f).Nodup)
    {a b : α} (ha : a ∈ l) (hb : b ∈ l) {x : β} (hx : x ∈ f a) (hx' : x ∈ f b) : a = b := by
  by_contra hne
  have : Std.Symm (Function.onFun List.Disjoint f) := ⟨fun _ _ => List.Disjoint.symm⟩
  exact (List.nodup_flatMap.mp h).2.forall ha hb hne hx hx'

/-- A note is in one place. -/
theorem notesOn_unique (h : (notesOn segments staves).Nodup) {s s' : Segment ν} {track' : ℕ}
    (hs : s ∈ segments) (hs' : s' ∈ segments) (ht : track / 4 ∈ staves) (ht' : track' / 4 ∈ staves)
    (hnote : note ∈ s.notes track) (hnote' : note ∈ s'.notes track') : s = s' ∧ track = track' := by
  have hmem {s : Segment ν} (hs : s ∈ segments) {track : ℕ} (hnote : note ∈ s.notes track) :
      note ∈ notesOnTrack segments (4 * (track / 4) + track % 4) := by
    rw [Nat.div_add_mod]
    exact List.mem_flatMap.mpr ⟨s, hs, hnote⟩
  have hvoice (track : ℕ) : track % 4 ∈ List.range 4 := List.mem_range.mpr (by omega)
  -- the list is nested three deep: the staff, then the voice, then the segment
  have hstaff : track / 4 = track' / 4 := by
    apply eq_of_nodup_flatMap h ht ht' (x := note)
    · exact List.mem_flatMap.mpr ⟨_, hvoice track, hmem hs hnote⟩
    · exact List.mem_flatMap.mpr ⟨_, hvoice track', hmem hs' hnote'⟩
  have hnodup := (List.nodup_flatMap.mp h).1 _ ht
  have htrack : track % 4 = track' % 4 := by
    apply eq_of_nodup_flatMap hnodup (hvoice track) (hvoice track') (hmem hs hnote)
    rw [hstaff]
    exact hmem hs' hnote'
  obtain rfl : track = track' := by omega
  have hnodup := (List.nodup_flatMap.mp hnodup).1 _ (hvoice track)
  rw [Nat.div_add_mod] at hnodup
  exact ⟨eq_of_nodup_flatMap hnodup hs hs' hnote hnote', rfl⟩

end notes

/-! ### The notes of a score -/

section score

variable {score : Score ν} {r : Range score} {segment : Segment ν} {track : ℕ} {note : ν}

/-- Without a selection every note is selected. -/
theorem Score.mem_notes_iff : note ∈ score.notes ↔ score.Selected none note := by
  simp only [Score.notes, mem_notesOn_iff, List.mem_range]
  rfl

theorem Range.Covers.lt_nstaves (h : r.Covers segment track) : track / 4 < score.nstaves :=
  Nat.lt_of_le_of_lt h.le_lastStaff r.lastStaff_lt

/-- A note is in one place of the score. -/
theorem Score.notes_unique {segment' : Segment ν} {track' : ℕ} (h : segment ∈ score.segments)
    (h' : segment' ∈ score.segments) (ht : track / 4 < score.nstaves)
    (ht' : track' / 4 < score.nstaves) (hnote : note ∈ segment.notes track)
    (hnote' : note ∈ segment'.notes track') : segment = segment' ∧ track = track' :=
  notesOn_unique score.nodup h h' (List.mem_range.mpr ht) (List.mem_range.mpr ht') hnote hnote'

/-! ### Ranges -/

/-- A range has the staves from its first to its last. -/
theorem Range.mem_staves_iff {staff : ℕ} :
    staff ∈ r.staves ↔ r.firstStaff ≤ staff ∧ staff ≤ r.lastStaff := by
  have := r.firstStaff_le
  unfold Range.staves
  rw [List.mem_range'_1]
  omega

/-- They are staves of the score, in order. -/
theorem Range.staves_sublist (r : Range score) : r.staves.Sublist (List.range score.nstaves) := by
  -- the staves before the range, and those up to its last
  have hsplit : List.range' 0 r.firstStaff ++ r.staves = List.range' 0 (r.lastStaff + 1) := by
    have := List.range'_append_1 (s := 0) (m := r.firstStaff) (n := r.lastStaff + 1 - r.firstStaff)
    rw [Nat.zero_add, Nat.add_sub_cancel' (Nat.le_succ_of_le r.firstStaff_le)] at this
    exact this
  rw [List.range_eq_range']
  refine (List.sublist_append_right (List.range' 0 r.firstStaff) _).trans ?_
  rw [hsplit]
  exact List.range'_sublist_right.mpr r.lastStaff_lt

/-- The segments from the start of a range on are those not before its
tick. -/
theorem Range.mem_drop_start_iff (h : segment ∈ score.segments) :
    segment ∈ score.segments.drop r.start ↔ r.startTick ≤ segment.tick := by
  have hlt : r.start < score.segments.length := Nat.lt_of_lt_of_le r.start_lt_stop r.stop_le
  -- the segments before the start, the start itself, and those after it
  have hdrop := List.drop_eq_getElem_cons hlt
  have hordered := score.ordered
  rw [← List.take_append_drop r.start score.segments, List.pairwise_append] at hordered
  obtain ⟨-, hrest, hcross⟩ := hordered
  constructor
  · intro hmem
    rw [hdrop] at hmem hrest
    rcases List.mem_cons.mp hmem with rfl | hmem
    · exact Nat.le_refl _
    · exact Nat.le_of_lt (List.rel_of_pairwise_cons hrest hmem)
  · intro hle
    rw [← List.take_append_drop r.start score.segments] at h
    rcases List.mem_append.mp h with htake | hmem
    · have hless := hcross segment htake score.segments[r.start]
        (by rw [hdrop]; exact List.mem_cons_self)
      exact absurd hle (Nat.not_le_of_lt hless)
    · exact hmem

end score

end MidiTraining
